import ShellLexing.Proofs.MiniShell.Move
import ShellLexing.Proofs.Tokenizer.Drain

/-!
# The miniature shell honours its contracts

A grammar action breaks a contract when it closes what is not open. The miniature shell does this in
one way only: by a parenthesis that closes no command substitution, which is a fault of the script.

**Main result** (`session_contracts`). Let any number of calls be made on a new tokenizer, also
behind failures. The initial mode is then at the bottom of the modes, the open frames are at most
the command substitutions among the modes, and these are at most the saved modes. Every failure so
far is that no rule matched or that a parenthesis closed nothing, and a call that fails leaves the
session exactly as it was. So a parenthesis never closes a frame without leaving a mode as well.

The bounds are `Ordered`, which one step keeps (`Move.ordered`) and so every run
(`orderedOver_run`). The failures are read off the moves (`Move.failure`).
-/

namespace ShellLexing.MiniShell

variable {c : Cursor} {s : Session} {t : Tokenizer Cursor}

/-! ## Steps that fail -/

/-- A step fails because no rule matches or because a parenthesis closes nothing, and then the
session is as it was. -/
theorem Move.failure {e : MatchFailure} (hmove : Move c s (.error e) t) :
    t.session = s ∧ ((∃ offset, e = .noMatch offset) ∨
      e = .violation .noOpenSubshell ∧ s.quotes.enclosing = [] ∧ c.ahead.head? = some ')') := by
  cases hmove with
  | openBody | atSign => exact ⟨rfl, Or.inl ⟨_, rfl⟩⟩
  | unmatched _ hc _ hframes =>
    refine ⟨rfl, Or.inr ⟨rfl, hframes, ?_⟩⟩
    rw [hc]
    rfl

/-! ## Steps and the script -/

theorem text_front (t : Tokenizer Cursor) : (front t).text = t.scan.text := by
  rw [front]
  split
  · rfl
  · exact Cursor.text_skip _ _

/-- A step moves on in the script and does not change it. -/
theorem Move.text {a : Except MatchFailure (Option Token)} (hmove : Move c s a t) :
    t.scan.text = c.text := by
  cases hmove <;> first | rfl | exact Cursor.text_skip _ _

theorem text_advance (h : Ordered t.session) : (advance t).state.scan.text = t.scan.text :=
  (move_advance h).text.trans (text_front t)

/-! ## Runs -/

/-- The run of `n` calls on a new tokenizer. -/
def run (script : Text) (o : Options) (n : Nat) :
    Run FatalError (Tokenizer Cursor) (Option Token) :=
  Tokenizer.calls scanner n (start script o)

theorem state_run_succ (script : Text) (o : Options) (n : Nat) :
    (run script o (n + 1)).state = (advance (run script o n).state).state := by
  rw [run, Tokenizer.calls_succ', Tokenizer.state_next]
  rfl

theorem tokens_run_succ (script : Text) (o : Options) (n : Nat) :
    (run script o (n + 1)).tokens = (run script o n).tokens ++
      (Run.token? (advance (run script o n).state).answer).toList := by
  rw [run, Tokenizer.tokens_calls_succ', Tokenizer.token?_next]
  rfl

/-- The session is in order, and the script is the one that the run began with. -/
def OrderedOver (script : Text) (t : Tokenizer Cursor) : Prop :=
  Ordered t.session ∧ t.scan.text = script

theorem orderedOver_next {script : Text} (h : OrderedOver script t) :
    OrderedOver script (Tokenizer.next scanner t).state := by
  rw [Tokenizer.state_next]
  exact ⟨(move_advance h.1).ordered h.1, (text_advance h.1).trans h.2⟩

theorem orderedOver_run (script : Text) (o : Options) (n : Nat) :
    OrderedOver script (run script o n).state :=
  Tokenizer.calls_invariant (fun _ => orderedOver_next) ⟨ordered_start o, rfl⟩ n

theorem next_failure {script : Text} (h : OrderedOver script t) {e : FatalError}
    (he : (Tokenizer.next scanner t).answer = .error e) :
    (Tokenizer.next scanner t).state.session = t.session ∧
      ((∃ offset, e = .scan script (.noMatch offset)) ∨
        e = .scan script (.violation .noOpenSubshell) ∧ t.session.quotes.enclosing = [] ∧
          (front t).ahead.head? = some ')') := by
  have hmove := move_advance h.1
  have htext : (advance t).state.scan.text = script := (text_advance h.1).trans h.2
  have hstep : scanner.advance t = advance t := rfl
  rw [Tokenizer.answer_next, hstep] at he
  rw [Tokenizer.state_next, hstep]
  cases hcause : (advance t).answer with
  | ok token =>
    rw [hcause] at he
    cases he
  | error cause =>
    rw [hcause] at he
    obtain rfl : FatalError.scan script cause = e := by
      rw [← htext]
      exact Except.error.inj he
    rw [hcause] at hmove
    obtain ⟨hsession, ⟨offset, rfl⟩ | ⟨rfl, hunmatched⟩⟩ := hmove.failure
    · exact ⟨hsession, Or.inl ⟨offset, rfl⟩⟩
    · exact ⟨hsession, Or.inr ⟨rfl, hunmatched⟩⟩

/-- **The contracts of a session** hold throughout every run of calls on a new tokenizer, and the
only one that a script can break is that a closing parenthesis has something to close. -/
theorem session_contracts (script : Text) (o : Options) (n : Nat) :
    let r := run script o n
    let s := r.state.session
    s.modes.all.getLast? = some .initial ∧
    s.quotes.enclosing.length ≤ s.modes.all.count subshell ∧
    s.modes.all.count subshell ≤ s.modes.depth ∧
    (∀ e, .error e ∈ r.answers → (∃ offset, e = .scan script (.noMatch offset)) ∨
      e = .scan script (.violation .noOpenSubshell)) ∧
    (∀ e, (Tokenizer.next scanner r.state).answer = .error e →
      (Tokenizer.next scanner r.state).state.session = s ∧
        (e = .scan script (.violation .noOpenSubshell) →
          s.quotes.enclosing = [] ∧ (front r.state).ahead.head? = some ')')) ∧
    (s.quotes.leaveSubshell.Accepts → s.modes.leave.Accepts) := by
  intro r s
  have hs : Ordered s := (orderedOver_run script o n).1
  refine ⟨hs.rooted, hs.frames_le, hs.count_subshell_le, fun e he => ?_, fun e he => ?_,
    fun haccepts => ?_⟩
  · obtain ⟨k, -, hk⟩ := Tokenizer.exists_of_mem_answers he
    rcases (next_failure (orderedOver_run script o k) hk).2 with hmatch | ⟨hviolation, -⟩
    · exact Or.inl hmatch
    · exact Or.inr hviolation
  · obtain ⟨hsession, hcause⟩ := next_failure (orderedOver_run script o n) he
    refine ⟨hsession, fun hviolation => ?_⟩
    rcases hcause with ⟨offset, hmatch⟩ | ⟨-, hunmatched⟩
    · rw [hviolation] at hmatch
      cases hmatch
    · exact hunmatched
  · have hframe : s.quotes.enclosing ≠ [] := by
      intro hnil
      obtain ⟨u, q, ev, haccepts⟩ := haccepts
      rw [QuoteNesting.leaveSubshell, hnil] at haccepts
      cases haccepts
    obtain ⟨m, below, -, hleave⟩ := ModeStack.exists_leave (hs.saved_ne_nil_of_frame hframe)
    exact ⟨m, _, _, hleave⟩

/-- In `$(<<))` the first parenthesis closes the command substitution and leaves the mode behind
`<<`. The second closes nothing, although a mode of a command substitution is still active. -/
theorem session_contracts_unmatched :
    let script : Text := ['$', '(', '<', '<', ')', ')']
    let t := (run script {} 3).state
    t.session.modes.all = [subshell, .initial] ∧
      (Tokenizer.next scanner t).answer = .error (.scan script (.violation .noOpenSubshell)) ∧
      (Tokenizer.next scanner t).state.session = t.session := by
  have hfail : (Tokenizer.next scanner (run ['$', '(', '<', '<', ')', ')'] {} 3).state).answer =
      .error (.scan ['$', '(', '<', '<', ')', ')'] (.violation .noOpenSubshell)) := by
    decide +kernel
  exact ⟨by decide +kernel, hfail, ((session_contracts _ {} 3).2.2.2.2.1 _ hfail).1⟩

end ShellLexing.MiniShell
