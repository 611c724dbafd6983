import Mathlib.Data.List.TakeDrop
import Mathlib.Data.List.TakeWhile
import ShellLexing.MiniShell
import ShellLexing.Proofs.Mode.Nesting
import ShellLexing.Proofs.Session.Refusal

/-!
# The steps of the miniature shell

What a step of the miniature shell can do is listed here once, rule by rule, as the relation `Move`.
Everything else that is proved of the miniature shell is a case analysis on it, and does not look
into the scanner.

**Order.** The session that a scanner starts with is in order, and stays so (`Ordered`):

* the initial mode is at the bottom of the modes, and
* there are no more frames of command substitutions than command substitutions among the modes, so
  that whoever closes a frame finds a mode to leave;
* bodies of here-documents are read only while one is pending, and nothing is entered out of them.

**Main results.** From a session in order every step is a move (`move_advance`), and a move leads to
a session in order (`Move.ordered`). No move leaves a mode in vain: of the ways in which a step
could fail, only those remain in which no rule matches or a parenthesis closes nothing.
-/

namespace ShellLexing

namespace MiniShell

/-! ## Order -/

/-- The contracts between the components of a session that the miniature shell relies on. -/
structure Ordered (s : Session) : Prop where
  /-- The initial mode is at the bottom. -/
  rooted : s.modes.all.getLast? = some .initial
  frames_le : s.quotes.enclosing.length ≤ s.modes.all.count subshell
  body_not_mem_saved : heredocBody ∉ s.modes.saved
  pending_ne_nil : s.modes.active = heredocBody → s.heredocs.pending ≠ []

theorem ordered_start (o : Options) : Ordered (.start o) where
  rooted := rfl
  frames_le := Nat.zero_le _
  body_not_mem_saved := List.not_mem_nil
  pending_ne_nil h := absurd h (show Mode.initial ≠ heredocBody by decide)

namespace Ordered

variable {s : Session}

theorem saved_ne_nil (h : Ordered s) (hactive : s.modes.active ≠ .initial) :
    s.modes.saved ≠ [] := by
  intro hnil
  have hroot := h.rooted
  rw [ModeStack.all, hnil] at hroot
  exact hactive (Option.some.inj hroot)

/-- The bottom is no command substitution, so there is room for it below all of them. -/
theorem count_subshell_le (h : Ordered s) : s.modes.all.count subshell ≤ s.modes.depth := by
  obtain ⟨above, hall⟩ := List.getLast?_eq_some_iff.1 h.rooted
  have hlen : above.length = s.modes.depth := by
    have := congrArg List.length hall
    rw [List.length_append, ModeStack.all, List.length_cons, List.length_singleton] at this
    exact (Nat.succ.inj this).symm
  rw [hall, List.count_append, ← hlen]
  exact List.count_le_length

/-- Whoever closes a frame finds a mode to leave. -/
theorem saved_ne_nil_of_frame (h : Ordered s) (hframe : s.quotes.enclosing ≠ []) :
    s.modes.saved ≠ [] := by
  have hpos := List.length_pos_iff.2 hframe
  have hle := Nat.le_trans h.frames_le h.count_subshell_le
  exact List.length_pos_iff.1 (Nat.lt_of_lt_of_le hpos hle)

/-- A mode may be entered from outside of bodies, and frames opened for it. -/
theorem enter_with (h : Ordered s) (hactive : s.modes.active ≠ heredocBody) {m : Mode}
    (hm : m = heredocBody → s.heredocs.pending ≠ []) {n : QuoteNesting}
    (hn : n.enclosing.length ≤ (m :: s.modes.all).count subshell) :
    Ordered { s with modes := ⟨m, s.modes.active :: s.modes.saved⟩, quotes := n } where
  rooted := by
    have hroot := h.rooted
    rw [ModeStack.all] at hroot ⊢
    rw [List.getLast?_cons_cons]
    exact hroot
  frames_le := hn
  body_not_mem_saved := by
    intro hmem
    rcases List.mem_cons.1 hmem with hbody | hbody
    · exact hactive hbody.symm
    · exact h.body_not_mem_saved hbody
  pending_ne_nil := hm

theorem enter (h : Ordered s) (hactive : s.modes.active ≠ heredocBody) {m : Mode}
    (hm : m = heredocBody → s.heredocs.pending ≠ []) :
    Ordered { s with modes := ⟨m, s.modes.active :: s.modes.saved⟩ } :=
  h.enter_with hactive hm (Nat.le_trans h.frames_le List.count_le_count_cons)

/-- A mode may be left in favour of the one below, with frames closed for it. -/
theorem leave_with (h : Ordered s) {m : Mode} {below : List Mode}
    (hsaved : s.modes.saved = m :: below) {q : HeredocQueue} {n : QuoteNesting}
    (hn : n.enclosing.length ≤ (m :: below).count subshell) :
    Ordered { s with modes := ⟨m, below⟩, heredocs := q, quotes := n } where
  rooted := by
    have hroot := h.rooted
    rw [ModeStack.all, hsaved, List.getLast?_cons_cons] at hroot
    exact hroot
  frames_le := hn
  body_not_mem_saved hmem := h.body_not_mem_saved (hsaved ▸ List.mem_cons_of_mem m hmem)
  pending_ne_nil hm := by
    -- The mode below is no body, for bodies are never saved.
    have hbody : m = heredocBody := hm
    exact absurd (hsaved ▸ hbody ▸ List.mem_cons_self) h.body_not_mem_saved

theorem leave (h : Ordered s) (hactive : s.modes.active ≠ subshell) {m : Mode}
    {below : List Mode} (hsaved : s.modes.saved = m :: below) {q : HeredocQueue} :
    Ordered { s with modes := ⟨m, below⟩, heredocs := q } := by
  refine h.leave_with hsaved ?_
  have hle := h.frames_le
  rw [ModeStack.all, List.count_cons_of_ne hactive, hsaved] at hle
  exact hle

end Ordered

/-! ## Moves -/

/-- The place where a step begins to read: behind the blanks, but in a body at once. -/
def front (t : Tokenizer Cursor) : Cursor :=
  if t.session.modes.active = heredocBody then t.scan
  else t.scan.skip (t.scan.ahead.takeWhile isBlank).length

/-- The steps from place `c` and session `s`, each with its answer and what it leaves. -/
inductive Move (c : Cursor) (s : Session) :
    Except MatchFailure (Option Token) → Tokenizer Cursor → Prop
  /-- A body is read, and others are pending. -/
  | body {lines rest : List Text} {line : Text} {d : Heredoc} {pending : List Heredoc} :
    s.modes.active = heredocBody → Text.lines c.ahead = lines ++ line :: rest →
    (∀ l ∈ lines, s.heredocs.closedBy l = false) → s.heredocs.closedBy line = true →
    s.heredocs.pending = d :: pending → pending ≠ [] →
    Move c s (.ok (some (.heredocBody lines.flatten)))
      ⟨c.skip (lines.flatten.length + line.length), { s with heredocs := ⟨pending⟩ }⟩
  /-- The last pending body is read, and the mode from before is resumed. -/
  | lastBody {lines rest : List Text} {line : Text} {d : Heredoc} {m : Mode} {below : List Mode} :
    s.modes.active = heredocBody → Text.lines c.ahead = lines ++ line :: rest →
    (∀ l ∈ lines, s.heredocs.closedBy l = false) → s.heredocs.closedBy line = true →
    s.heredocs.pending = [d] → s.modes.saved = m :: below →
    Move c s (.ok (some (.heredocBody lines.flatten)))
      ⟨c.skip (lines.flatten.length + line.length),
        { s with modes := ⟨m, below⟩, heredocs := .empty }⟩
  /-- No line closes the body. -/
  | openBody :
    s.modes.active = heredocBody → (∀ l ∈ Text.lines c.ahead, s.heredocs.closedBy l = false) →
    Move c s (.error (.noMatch (c.skip c.ahead.length).position)) ⟨c.skip c.ahead.length, s⟩
  | endOfInput :
    s.modes.active ≠ heredocBody → c.ahead = [] → Move c s (.ok none) ⟨c, s⟩
  | newline {rest : Text} :
    s.modes.active ≠ heredocBody → c.ahead = '\n' :: rest → s.heredocs.pending = [] →
    Move c s (.ok (some .newline)) ⟨c.skip 1, s⟩
  /-- The bodies of the pending here-documents begin behind a newline. -/
  | newlineToBody {rest : Text} :
    s.modes.active ≠ heredocBody → c.ahead = '\n' :: rest → s.heredocs.pending ≠ [] →
    Move c s (.ok (some .newline))
      ⟨c.skip 1, { s with modes := ⟨heredocBody, s.modes.active :: s.modes.saved⟩ }⟩
  | atSign {rest : Text} :
    s.modes.active ≠ heredocBody → c.ahead = '@' :: rest →
    Move c s (.error (.noMatch c.position)) ⟨c, s⟩
  | arithmeticStart {rest : Text} :
    s.modes.active ≠ heredocBody → c.ahead = '$' :: '(' :: '(' :: rest →
    Move c s (.ok (some .arithmeticStart))
      ⟨c.skip 3, { s with modes := ⟨arithmetic, s.modes.active :: s.modes.saved⟩ }⟩
  | subshellStart {rest : Text} :
    s.modes.active ≠ heredocBody → c.ahead = '$' :: '(' :: rest → rest.head? ≠ some '(' →
    Move c s (.ok (some .subshellStart))
      ⟨c.skip 2, { s with
        modes := ⟨subshell, s.modes.active :: s.modes.saved⟩
        quotes := s.quotes.enterSubshell }⟩
  | arithmeticEnd {rest : Text} {m : Mode} {below : List Mode} :
    s.modes.active = arithmetic → c.ahead = ')' :: ')' :: rest → s.modes.saved = m :: below →
    Move c s (.ok (some .arithmeticEnd)) ⟨c.skip 2, { s with modes := ⟨m, below⟩ }⟩
  /-- A parenthesis closes a command substitution, in whatever mode it stands. -/
  | subshellEnd {rest : Text} {m : Mode} {below : List Mode} {q : Count} {frames : List Count} :
    s.modes.active ≠ heredocBody → c.ahead = ')' :: rest →
    ¬ (rest.head? = some ')' ∧ s.modes.active = arithmetic) →
    s.modes.saved = m :: below → s.quotes.enclosing = q :: frames →
    Move c s (.ok (some .subshellEnd))
      ⟨c.skip 1, { s with modes := ⟨m, below⟩, quotes := ⟨q, frames⟩ }⟩
  /-- A parenthesis closes nothing. -/
  | unmatched {rest : Text} :
    s.modes.active ≠ heredocBody → c.ahead = ')' :: rest →
    ¬ (rest.head? = some ')' ∧ s.modes.active = arithmetic) → s.quotes.enclosing = [] →
    Move c s (.error (.violation .noOpenSubshell)) ⟨c.skip 1, s⟩
  | heredocStart {rest : Text} :
    s.modes.active ≠ heredocBody → c.ahead = '<' :: '<' :: rest →
    Move c s (.ok (some .heredocStart))
      ⟨c.skip 2, { s with modes := ⟨heredocDelimiter, s.modes.active :: s.modes.saved⟩ }⟩
  /-- The word behind `<<` announces a here-document. -/
  | delimiter {m : Mode} {below : List Mode} :
    s.modes.active = heredocDelimiter → s.modes.saved = m :: below →
    c.ahead ≠ [] → c.ahead.head? ≠ some '\n' → readOperator? c s = none →
    Move c s (.ok (some (.heredocDelimiter (c.ahead.takeWhile isWordChar))))
      ⟨c.skip (c.ahead.takeWhile isWordChar).length, { s with
        modes := ⟨m, below⟩
        heredocs := (s.heredocs.push (c.ahead.takeWhile isWordChar) false).state }⟩
  | word :
    s.modes.active ≠ heredocBody → s.modes.active ≠ heredocDelimiter →
    c.ahead ≠ [] → c.ahead.head? ≠ some '\n' → readOperator? c s = none →
    Move c s (.ok (some (classify (c.ahead.takeWhile isWordChar) s).1))
      ⟨c.skip (c.ahead.takeWhile isWordChar).length,
        (classify (c.ahead.takeWhile isWordChar) s).2⟩

/-- The step is a move. -/
def IsMove (c : Cursor) (s : Session) (o : Step (Option Token)) : Prop :=
  Move c s o.answer o.state

/-! ## Every step is a move -/

theorem onModes_leave {s : Session} {m : Mode} {below : List Mode}
    (h : s.modes.saved = m :: below) :
    s.onModes (·.leave) =
      .done m { s with modes := ⟨m, below⟩ } [.modeLeft s.modes.active m below.length] := by
  rw [Session.onModes, ModeStack.leave, h]
  rfl

theorem onHeredocs_pop {s : Session} {line : Text} (h : s.heredocs.closedBy line = true) :
    ∃ d pending, s.heredocs.pending = d :: pending ∧
      s.onHeredocs (·.pop line) =
        .done d { s with heredocs := ⟨pending⟩ } [.heredocClosed d.marker pending.length] := by
  obtain ⟨d, pending, hpending, -, hpop⟩ := HeredocQueue.exists_pop h
  exact ⟨d, pending, hpending, by rw [Session.onHeredocs, hpop]; rfl⟩

theorem onQuotes_leaveSubshell {s : Session} {q : Count} {frames : List Count}
    (h : s.quotes.enclosing = q :: frames) :
    s.onQuotes (·.leaveSubshell) = .done () { s with quotes := ⟨q, frames⟩ } [] := by
  rw [Session.onQuotes, QuoteNesting.leaveSubshell, h]
  rfl

variable {c : Cursor} {s : Session}

theorem isMove_readBody (h : Ordered s) (hactive : s.modes.active = heredocBody) :
    IsMove c s ((readBody c s).map some) := by
  rw [readBody, List.span_eq_takeWhile_dropWhile]
  have hlines := List.takeWhile_append_dropWhile (l := Text.lines c.ahead)
    (p := fun line => !s.heredocs.closedBy line)
  have hopen : ∀ l ∈ (Text.lines c.ahead).takeWhile (fun line => !s.heredocs.closedBy line),
      s.heredocs.closedBy l = false := by
    intro l hl
    simpa using List.mem_takeWhile_imp hl
  have hhead := List.head?_dropWhile_not (fun line => !s.heredocs.closedBy line)
    (Text.lines c.ahead)
  generalize (Text.lines c.ahead).takeWhile (fun line => !s.heredocs.closedBy line) = lines
    at hlines hopen
  cases hdrop : (Text.lines c.ahead).dropWhile (fun line => !s.heredocs.closedBy line) with
  | nil =>
    rw [hdrop, List.append_nil] at hlines
    exact .openBody hactive (hlines ▸ hopen)
  | cons line rest =>
    rw [hdrop] at hlines hhead
    have hline : s.heredocs.closedBy line = true := by simpa using hhead
    obtain ⟨d, pending, hpending, hpop⟩ := onHeredocs_pop hline
    simp only [hpop, Outcome.andThen_done]
    cases pending with
    | cons d' pending =>
      exact .body hactive hlines.symm hopen hline hpending (List.cons_ne_nil d' pending)
    | nil =>
      have hinitial : s.modes.active ≠ .initial := by rw [hactive]; decide
      obtain ⟨m, below, hsaved⟩ := List.exists_cons_of_ne_nil (h.saved_ne_nil hinitial)
      have hleave := onModes_leave (s := { s with heredocs := ⟨[]⟩ }) hsaved
      simp only [hleave]
      exact .lastBody hactive hlines.symm hopen hline hpending hsaved

theorem isMove_readNewline {rest : Text} (hactive : s.modes.active ≠ heredocBody)
    (hc : c.ahead = '\n' :: rest) : IsMove c s ((readNewline c s).map some) := by
  cases hpending : s.heredocs.pending with
  | nil =>
    rw [readNewline, if_pos (by rw [HeredocQueue.isEmpty, hpending]; rfl)]
    exact .newline hactive hc hpending
  | cons d pending =>
    rw [readNewline, if_neg (by rw [HeredocQueue.isEmpty, hpending]; exact Bool.false_ne_true)]
    exact .newlineToBody hactive hc (by rw [hpending]; exact List.cons_ne_nil d pending)

theorem isMove_readOperator (h : Ordered s) (hactive : s.modes.active ≠ heredocBody)
    {o : Step Token} (ho : readOperator? c s = some o) : IsMove c s (o.map some) := by
  unfold readOperator? at ho
  split at ho
  · next rest hc =>
    obtain rfl := Option.some.inj ho
    exact .arithmeticStart hactive hc
  · next rest hrest hc =>
    obtain rfl := Option.some.inj ho
    refine .subshellStart hactive hc fun hhead => ?_
    obtain ⟨tail, rfl⟩ := List.head?_eq_some_iff.1 hhead
    exact hrest tail rfl
  · next rest hc =>
    split at ho
    · next hclose =>
      obtain rfl := Option.some.inj ho
      obtain ⟨tail, rfl⟩ := List.head?_eq_some_iff.1 hclose.1
      have hinitial : s.modes.active ≠ .initial := by rw [hclose.2]; decide
      obtain ⟨m, below, hsaved⟩ := List.exists_cons_of_ne_nil (h.saved_ne_nil hinitial)
      rw [onModes_leave hsaved]
      exact .arithmeticEnd hclose.2 hc hsaved
    · next hclose =>
      obtain rfl := Option.some.inj ho
      cases hframes : s.quotes.enclosing with
      | nil =>
        rw [Session.onQuotes, QuoteNesting.leaveSubshell, hframes]
        exact .unmatched hactive hc hclose hframes
      | cons q frames =>
        obtain ⟨m, below, hsaved⟩ := List.exists_cons_of_ne_nil
          (h.saved_ne_nil_of_frame (by rw [hframes]; exact List.cons_ne_nil q frames))
        have hleave := onModes_leave (s := { s with quotes := ⟨q, frames⟩ }) hsaved
        rw [onQuotes_leaveSubshell hframes, Outcome.andThen_done, hleave]
        exact .subshellEnd hactive hc hclose hsaved hframes
  · next rest hc =>
    obtain rfl := Option.some.inj ho
    exact .heredocStart hactive hc
  · cases ho

theorem isMove_readWord (h : Ordered s) (hactive : s.modes.active ≠ heredocBody)
    (hne : c.ahead ≠ []) (hnewline : c.ahead.head? ≠ some '\n')
    (hop : readOperator? c s = none) : IsMove c s ((readWord c s).map some) := by
  by_cases hdelimiter : s.modes.active = heredocDelimiter
  · have hinitial : s.modes.active ≠ .initial := by rw [hdelimiter]; decide
    obtain ⟨m, below, hsaved⟩ := List.exists_cons_of_ne_nil (h.saved_ne_nil hinitial)
    have hleave := onModes_leave (s := { s with
      heredocs := (s.heredocs.push (c.ahead.takeWhile isWordChar) false).state }) hsaved
    have hpush : s.onHeredocs (·.push (c.ahead.takeWhile isWordChar) false) = .done ()
        { s with heredocs := (s.heredocs.push (c.ahead.takeWhile isWordChar) false).state }
        (s.heredocs.push (c.ahead.takeWhile isWordChar) false).events := rfl
    simp only [readWord, if_pos hdelimiter, hpush, Outcome.andThen_done, hleave]
    exact .delimiter hdelimiter hsaved hne hnewline hop
  · simp only [readWord, if_neg hdelimiter]
    exact .word hactive hdelimiter hne hnewline hop

/-- **Every step is a move**, as long as the session is in order. -/
theorem move_advance {t : Tokenizer Cursor} (h : Ordered t.session) :
    Move (front t) t.session (advance t).answer (advance t).state := by
  show IsMove (front t) t.session (advance t)
  by_cases hactive : t.session.modes.active = heredocBody
  · rw [advance, if_pos hactive, front, if_pos hactive]
    exact isMove_readBody h hactive
  · have hfront : t.scan.skip (t.scan.ahead.takeWhile isBlank).length = front t := by
      rw [front, if_neg hactive]
    simp only [advance, if_neg hactive, hfront]
    generalize front t = c
    split
    · next hc => exact .endOfInput hactive hc
    · next rest hc => exact isMove_readNewline hactive hc
    · next rest hc => exact .atSign hactive hc
    · next hne hnewline hat =>
      cases hop : readOperator? c t.session with
      | some o => exact isMove_readOperator h hactive hop
      | none =>
        refine isMove_readWord h hactive hne (fun hhead => ?_) hop
        obtain ⟨rest, hc⟩ := List.head?_eq_some_iff.1 hhead
        exact hnewline rest hc

/-! ## Moves keep order -/

theorem exists_context_classify (text : Text) (s : Session) :
    ∃ context, (classify text s).2 = { s with context := context } := by
  unfold classify
  split_ifs <;> exact ⟨_, rfl⟩

/-- Whatever a move does, the session stays in order. -/
theorem Move.ordered {a : Except MatchFailure (Option Token)} {t : Tokenizer Cursor}
    (hmove : Move c s a t) (h : Ordered s) : Ordered t.session := by
  cases hmove with
  | body hactive _ _ _ _ hpending =>
    exact ⟨h.rooted, h.frames_le, h.body_not_mem_saved, fun _ => hpending⟩
  | lastBody hactive _ _ _ _ hsaved => exact h.leave (by rw [hactive]; decide) hsaved
  | openBody | endOfInput | newline | atSign | unmatched => exact h
  | newlineToBody hactive _ hpending => exact h.enter hactive fun _ => hpending
  | arithmeticStart hactive | heredocStart hactive =>
    exact h.enter hactive fun hm => absurd hm (by decide)
  | subshellStart hactive =>
    refine h.enter_with hactive (fun hm => absurd hm (by decide)) ?_
    rw [List.count_cons_self]
    exact Nat.succ_le_succ h.frames_le
  | arithmeticEnd hactive _ hsaved | delimiter hactive hsaved =>
    exact h.leave (by rw [hactive]; decide) hsaved
  | @subshellEnd rest m below q frames _ _ _ hsaved hframes =>
    refine h.leave_with hsaved ?_
    show frames.length ≤ (m :: below).count subshell
    -- One frame and one mode go; only the mode may be a command substitution.
    have hle := h.frames_le
    rw [ModeStack.all, hsaved, hframes, List.length_cons, List.count_cons] at hle
    split at hle <;> omega
  | word =>
    obtain ⟨context, hs⟩ := exists_context_classify (c.ahead.takeWhile isWordChar) s
    rw [hs]
    exact ⟨h.rooted, h.frames_le, h.body_not_mem_saved, h.pending_ne_nil⟩

end MiniShell

end ShellLexing
