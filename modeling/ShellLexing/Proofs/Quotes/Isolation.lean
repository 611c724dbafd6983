import ShellLexing.Proofs.Levels
import ShellLexing.Proofs.Session.Refusal
import ShellLexing.Proofs.Tally

/-!
# A command substitution isolates its strings

What happens inside of `$( … )` does not touch the strings around it, however the strings inside are
opened and closed, and in whatever depth command substitutions are nested in it.

**Theorem (`subshell_isolates`).** Let a command substitution be entered, then operations be made in
which the command substitutions are balanced, and then the command substitution be left. All
enterings and leavings succeed, and the nesting in the end is the one from before. At every moment
in between the frames from before are there, untouched, below the open ones. A string can be closed
only at the level at which it was opened: closing fails where all strings of this level are closed
already, also if strings are open around it.

The frames are nested levels (`QuoteNesting.nests`), so the first part is a case of
`Nests.levels_run`. For the last part the history is read backwards to where the level was opened
(`QuoteOperation.atLevel`). The strings that are open at the level are the tally of what is found
there (`getElem?_levels_run`), and nothing else has an influence on them.
-/

namespace ShellLexing

namespace QuoteOperation

def part : QuoteOperation → Option Part
  | enterSubshell => some .opening
  | leaveSubshell => some .closing
  | enterString | leaveString => some .inner

/-- The operations on strings at one level of a history that has the latest operation first. The
level is the `d`-th around the one that the history has reached, and reading stops where it was
opened. -/
def atLevel : Nat → List QuoteOperation → List QuoteOperation
  | _, [] => []
  | 0, enterSubshell :: _ => []
  | d + 1, enterSubshell :: past => atLevel d past
  | d, leaveSubshell :: past => atLevel (d + 1) past
  | 0, op :: past => op :: atLevel 0 past
  | d + 1, _ :: past => atLevel (d + 1) past

/-- All strings are closed that were opened in a history of one level, which has the latest
operation first: on the way back there are never more strings opened than closed. -/
def AllClosed (own : List QuoteOperation) : Prop :=
  ∀ latest, latest <+: own → latest.count enterString ≤ latest.count leaveString

instance (own : List QuoteOperation) : Decidable (AllClosed own) :=
  decidable_of_iff (∀ latest ∈ own.inits, latest.count enterString ≤ latest.count leaveString)
    (by simp [AllClosed, List.mem_inits])

end QuoteOperation

open QuoteOperation

namespace QuoteNesting

/-- The open strings frame by frame, from the innermost frame outwards. -/
def levels (n : QuoteNesting) : List Count := n.innermost :: n.enclosing

variable {n m : QuoteNesting}

theorem levels_injective (h : n.levels = m.levels) : n = m := by
  obtain ⟨innermost, enclosing⟩ := n
  obtain ⟨rfl, rfl⟩ := List.cons.inj h
  rfl

theorem reverse_levels (n : QuoteNesting) : n.levels.reverse = n.frames := rfl

/-! ## Operations and levels -/

theorem leaveSubshell_of_enclosing {c : Count} {rest : List Count} (h : n.enclosing = c :: rest) :
    n.leaveSubshell = .done () ⟨c, rest⟩ [] := by
  rw [leaveSubshell, h]

/-- Closing a string takes one from the innermost frame, if it can. -/
theorem state_leaveString (n : QuoteNesting) :
    n.leaveString.state = ⟨n.innermost.pred?.getD n.innermost, n.enclosing⟩ := by
  rw [leaveString]
  cases n.innermost.pred? <;> rfl

theorem nests : Nests QuoteOperation.apply part levels where
  levels_ne_nil n := List.cons_ne_nil _ _
  opening n op hop := by
    cases op with
    | enterSubshell => exact ⟨⟨.done, rfl⟩, .zero, rfl⟩
    | leaveSubshell | enterString | leaveString => cases hop
  closing n op x rest hop hn hrest := by
    cases op with
    | leaveSubshell =>
      obtain ⟨c, rest, rfl⟩ := List.exists_cons_of_ne_nil hrest
      have henclosing : n.enclosing = c :: rest := (List.cons.inj hn).2
      rw [QuoteOperation.apply, leaveSubshell_of_enclosing henclosing]
      exact ⟨⟨.done, rfl⟩, rfl⟩
    | enterSubshell | enterString | leaveString => cases hop
  inner n op x rest hop hn := by
    obtain ⟨rfl, rfl⟩ := List.cons.inj hn
    cases op with
    | enterString => exact ⟨n.innermost.succ, rfl⟩
    | leaveString =>
      refine ⟨n.innermost.pred?.getD n.innermost, ?_⟩
      rw [QuoteOperation.apply, Outcome.state_map, state_leaveString]
      rfl
    | enterSubshell | leaveSubshell => cases hop

/-- The strings that are open at a level which was opened in the run are those of the level's own
history. -/
theorem getElem?_levels_run (n : QuoteNesting) (ops : List QuoteOperation) {d : Nat}
    (hd : d + closings part ops < openings part ops) :
    (runCalls QuoteOperation.apply n ops).state.levels[d]? =
      some (Count.tally QuoteOperation.enterString .leaveString (atLevel d ops.reverse)) := by
  induction ops using List.reverseRecOn generalizing d with
  | nil => simp at hd
  | append_singleton ops op ih =>
    rw [state_runCalls_concat, List.reverse_append, List.reverse_singleton, List.singleton_append]
    generalize (runCalls QuoteOperation.apply n ops).state = m at ih
    rw [openings_append, closings_append] at hd
    cases op with
    | enterSubshell =>
      cases d with
      | zero => rfl
      | succ d => exact ih (by simp [part] at hd; omega)
    | leaveSubshell =>
      -- The level is one further out, so there is one around the innermost.
      have hlevel := ih (d := d + 1) (by simp [part] at hd; omega)
      have hat : atLevel d (.leaveSubshell :: ops.reverse) = atLevel (d + 1) ops.reverse := by
        cases d <;> rfl
      rw [levels, List.getElem?_cons_succ] at hlevel
      cases henclosing : m.enclosing with
      | nil => simp [henclosing] at hlevel
      | cons c rest =>
        rw [henclosing] at hlevel
        rw [hat, QuoteOperation.apply, leaveSubshell_of_enclosing henclosing]
        exact hlevel
    | enterString =>
      have hlevel := ih (d := d) (by simpa [part] using hd)
      cases d with
      | zero =>
        have hinnermost : m.innermost = _ := Option.some.inj hlevel
        show some m.innermost.succ = _
        rw [hinnermost]
        rfl
      | succ d => exact hlevel
    | leaveString =>
      have hlevel := ih (d := d) (by simpa [part] using hd)
      rw [QuoteOperation.apply, Outcome.state_map, state_leaveString]
      cases d with
      | zero =>
        have hinnermost : m.innermost = _ := Option.some.inj hlevel
        show some (m.innermost.pred?.getD m.innermost) = _
        rw [hinnermost]
        rfl
      | succ d => exact hlevel

theorem innermost_run (n : QuoteNesting) {ops : List QuoteOperation}
    (hops : closings part ops < openings part ops) :
    (runCalls QuoteOperation.apply n ops).state.innermost =
      Count.tally QuoteOperation.enterString .leaveString (atLevel 0 ops.reverse) :=
  Option.some.inj (getElem?_levels_run n ops (d := 0) (by simpa using hops))

theorem leaveString_fails_iff (n : QuoteNesting) :
    (QuoteOperation.leaveString.apply n).answer = .error .noOpenString ↔ n.innermost.toNat = 0 := by
  rw [QuoteOperation.apply, leaveString, ← Count.pred?_eq_none_iff]
  cases n.innermost.pred? with
  | none => exact iff_of_true rfl rfl
  | some c => exact iff_of_false (fun h => by cases h) (fun h => by cases h)

/-! ## Command substitutions -/

theorem nested (op : QuoteOperation) : op.part ≠ none := by
  cases op <;> decide

/-- **A command substitution isolates its strings.** Let `w` be operations in which the command
substitutions are balanced, with any operations on strings. From every nesting `n`, entering a
command substitution, making the operations of `w` and leaving the command substitution leads back
to `n`, no entering or leaving fails, and the frames of `n` lie at every moment in between untouched
below others. To close a string fails in `w` where all strings of its own level are closed, and, as
long as fewer than `2 ^ 32` strings were opened at the level, only there. A command substitution
that has just been entered allows a string. -/
theorem subshell_isolates (n : QuoteNesting) (w : List QuoteOperation) (hw : Balanced part w) :
    (runCalls QuoteOperation.apply n (.enterSubshell :: w ++ [.leaveSubshell])).state = n ∧
    (∀ before op, before ++ [op] <+: .enterSubshell :: w ++ [.leaveSubshell] →
      op = .enterSubshell ∨ op = .leaveSubshell →
        ∃ a, (op.apply (runCalls QuoteOperation.apply n before).state).answer = .ok a) ∧
    (∀ before, before <+: w → ∃ inside, inside ≠ [] ∧
      (runCalls QuoteOperation.apply n (.enterSubshell :: before)).state.frames =
        n.frames ++ inside) ∧
    (∀ before, before ++ [.leaveString] <+: w →
      let own := atLevel 0 (.enterSubshell :: before).reverse
      let t := (runCalls QuoteOperation.apply n (.enterSubshell :: before)).state
      (AllClosed own → (QuoteOperation.leaveString.apply t).answer = .error .noOpenString) ∧
      (own.count .enterString ≤ Count.limit →
        (QuoteOperation.leaveString.apply t).answer = .error .noOpenString → AllClosed own)) ∧
    n.enterSubshell.allowsSubstring = true := by
  have hops : SelfContained part (.enterSubshell :: w ++ [.leaveSubshell]) :=
    hw.selfContained (fun op _ => nested op) rfl rfl
  have hopen : ∀ before, before <+: w →
      closings part (.enterSubshell :: before) < openings part (.enterSubshell :: before) := by
    intro before hbefore
    have hle := hw.closings_le before hbefore
    simp [part]
    omega
  refine ⟨levels_injective (nests.levels_run_eq hops n), fun before op hbefore hop => ?_,
    fun before hbefore => ?_, fun before hbefore => ?_, rfl⟩
  · refine nests.answer_run hops n hbefore ?_
    rcases hop with rfl | rfl <;> decide
  · obtain ⟨above, hlevels, hlength⟩ := nests.levels_run hops n
      (((List.prefix_cons_inj .enterSubshell).2 hbefore).trans (List.prefix_append _ _))
    have hlt := hopen before hbefore
    refine ⟨above.reverse, fun hnil => ?_, ?_⟩
    · rw [List.reverse_eq_nil_iff.1 hnil, List.length_nil] at hlength
      omega
    · rw [← reverse_levels, hlevels, List.reverse_append, reverse_levels]
  · intro own t
    have hlt := hopen before ((List.prefix_append before _).trans hbefore)
    have hcount : t.innermost = Count.tally .enterString .leaveString own := innermost_run n hlt
    rw [leaveString_fails_iff, hcount]
    refine ⟨fun hclosed => ?_, fun hroom hzero latest hlatest => ?_⟩
    · exact Nat.le_zero.1 (Count.toNat_tally_le (by decide) hclosed)
    · exact Count.count_le_of_toNat_tally_le (by decide) hroom (Nat.le_of_eq hzero) hlatest

/-- Around the command substitution a string is open. The one inside leaves two strings open in a
command substitution of its own, and then closes a string once too often. -/
theorem subshell_isolates_open_string :
    let n : QuoteNesting := fresh.enterString
    let w : List QuoteOperation := [.enterString, .enterSubshell, .enterString, .enterString,
      .leaveSubshell, .leaveString, .leaveString]
    let before : List QuoteOperation := w.dropLast
    Balanced part w ∧
      (runCalls QuoteOperation.apply n (.enterSubshell :: w ++ [.leaveSubshell])).state = n ∧
      before ++ [.leaveString] <+: w ∧
      AllClosed (atLevel 0 (.enterSubshell :: before).reverse) ∧
      (QuoteOperation.leaveString.apply
        (runCalls QuoteOperation.apply n (.enterSubshell :: before)).state).answer =
          .error .noOpenString := by
  intro n w before
  have hw : Balanced part w := by decide
  have hbefore : before ++ [.leaveString] <+: w := ⟨[], rfl⟩
  have hclosed : AllClosed (atLevel 0 (.enterSubshell :: before).reverse) := by decide
  obtain ⟨hstate, -, -, hstring, -⟩ := subshell_isolates n w hw
  exact ⟨hw, hstate, hbefore, hclosed, (hstring before hbefore).1 hclosed⟩

end QuoteNesting

end ShellLexing
