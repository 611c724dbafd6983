import ShellLexing.Proofs.Levels
import ShellLexing.Proofs.Mode.Unwind
import ShellLexing.Session.Operation

/-!
# Nested modes

A grammar enters a mode, does its work there and leaves it again, and finds everything as it was.
The work may enter and leave further modes in turn, and switch the mode at hand, as long as that is
one that was entered on the way.

**Theorem (`nested_resumes`).** Operations that enter, switch and leave in this manner never fail.
The modes that were saved before stay saved, at the bottom and in their order, and in the end the
stack is the one from before. A stack from which modes have been entered, none of them the active
one, is also resumed by a single unwinding, which does the same as leaving every one of them.

The modes of a stack, active and saved together, are nested levels (`ModeStack.nests`), so the first
part is a case of `Nests.levels_run`. Unwinding stops at the right place even if the mode that it
looks for is saved further down as well: above the place there are only the modes that were entered.
-/

namespace ShellLexing

/-- All modes of a stack, from the active one to the bottom. -/
def ModeStack.all (s : ModeStack) : List Mode := s.active :: s.saved

/-- To enter a mode opens a level and to leave it closes the level. Unwinding may close several at
once, and is none of the parts. -/
def ModeOperation.part : ModeOperation → Option Part
  | enter _ => some .opening
  | leave => some .closing
  | switch _ => some .inner
  | unwind _ | holds _ => none

namespace ModeStack

variable {s t : ModeStack}

theorem all_injective (h : s.all = t.all) : s = t := by
  obtain ⟨active, saved⟩ := s
  obtain ⟨rfl, rfl⟩ := List.cons.inj h
  rfl

theorem nests : Nests ModeOperation.apply ModeOperation.part all where
  levels_ne_nil s := List.cons_ne_nil _ _
  opening s op hop := by
    cases op with
    | enter m => exact ⟨⟨.done, rfl⟩, m, rfl⟩
    | switch m | leave | unwind m | holds m => cases hop
  closing s op m rest hop hs hrest := by
    cases op with
    | leave =>
      obtain ⟨active, saved⟩ := s
      obtain ⟨rfl, rfl⟩ := List.cons.inj hs
      obtain ⟨below, saved, rfl⟩ := List.exists_cons_of_ne_nil hrest
      exact ⟨⟨.mode below, rfl⟩, rfl⟩
    | enter m | switch m | unwind m | holds m => cases hop
  inner s op m rest hop hs := by
    cases op with
    | switch m =>
      obtain ⟨-, rfl⟩ := List.cons.inj hs
      exact ⟨m, rfl⟩
    | enter m | leave | unwind m | holds m => cases hop

theorem ascent_prefix_of_all {above : List Mode} (h : t.all = above ++ s.all) :
    s.ascent <+: t.ascent := by
  rw [ascent, ascent, List.reverse_prefix]
  cases above with
  | nil => rw [all_injective h]
  | cons m above =>
    have hsaved : t.saved = above ++ s.active :: s.saved := (List.cons.inj h).2
    rw [hsaved]
    exact (List.suffix_cons _ _).trans (List.suffix_append _ _)

/-! ## Entering several modes -/

theorem all_enters (s : ModeStack) (modes : List Mode) :
    (runCalls ModeOperation.apply s (modes.map .enter)).state.all = modes.reverse ++ s.all := by
  induction modes generalizing s with
  | nil => rfl
  | cons m modes ih =>
    rw [List.map_cons, runCalls, List.reverse_cons, List.append_assoc]
    exact ih (s.enter m).state

/-- Modes that have been entered are left together if none of them is the mode from before. -/
theorem unwind_of_all {above : List Mode} (h : t.all = above ++ s.all) (hne : above ≠ [])
    (hnew : s.active ∉ above) :
    (t.unwind s.active).answer = .ok () ∧ (t.unwind s.active).state = s ∧
      (t.leaves above.length).state = s ∧
        ∀ a ∈ (t.leaves above.length).answers, ∃ m, a = .ok m := by
  obtain ⟨m, above, rfl⟩ := List.exists_cons_of_ne_nil hne
  obtain rfl : t = ⟨m, above ++ s.active :: s.saved⟩ := all_injective h
  obtain ⟨hanswers, hstate⟩ := leaves_append m s.active above s.saved
  rw [unwind_of_split (List.ne_of_not_mem_cons hnew) rfl (List.not_mem_of_not_mem_cons hnew)]
  refine ⟨rfl, rfl, hstate, fun a ha => ?_⟩
  rw [List.length_cons, hanswers] at ha
  obtain ⟨m, -, rfl⟩ := List.mem_map.1 ha
  exact ⟨m, rfl⟩

/-- **Nested lexing resumes where it left off.** Let `ops` be made of entering, switching and
leaving, such that never more modes are left than have been entered, in the end as many, and none is
switched but while more are entered than left. No operation fails then, the modes that `s` saved
stay a prefix of the saved ones, and the stack in the end is `s`. And if modes are entered from `s`,
at least one and none of them the active mode of `s`, unwinding to that mode restores `s`, and so
does leaving as often as was entered. -/
theorem nested_resumes (s : ModeStack) :
    (∀ ops, SelfContained ModeOperation.part ops →
      (runCalls ModeOperation.apply s ops).state = s ∧
      (∀ before, before <+: ops →
        s.ascent <+: (runCalls ModeOperation.apply s before).state.ascent) ∧
      ∀ before op, before ++ [op] <+: ops →
        ∃ a, (op.apply (runCalls ModeOperation.apply s before).state).answer = .ok a) ∧
    ∀ modes, modes ≠ [] → s.active ∉ modes →
      let t := (runCalls ModeOperation.apply s (modes.map .enter)).state
      (t.unwind s.active).answer = .ok () ∧ (t.unwind s.active).state = s ∧
      (t.leaves modes.length).state = s ∧
      ∀ a ∈ (t.leaves modes.length).answers, ∃ m, a = .ok m := by
  refine ⟨fun ops hops => ⟨?_, fun before hbefore => ?_, fun before op hbefore => ?_⟩,
    fun modes hne hnew => ?_⟩
  · exact all_injective (nests.levels_run_eq hops s)
  · obtain ⟨above, hall, -⟩ := nests.levels_run hops s hbefore
    exact ascent_prefix_of_all hall
  · by_cases hinner : op.part = some .inner
    · -- Switching never fails.
      cases op with
      | switch m => exact ⟨.done, rfl⟩
      | enter m | leave | unwind m | holds m => cases hinner
    · exact nests.answer_run hops s hbefore hinner
  · intro t
    have hleft := unwind_of_all (all_enters s modes) (by simpa using hne) (by simpa using hnew)
    rwa [List.length_reverse] at hleft

/-- Mode 1 is active, and saved as well. It is entered once more, inside of a mode that is switched,
and later unwound to out of two others; both times the stack from before is resumed. -/
theorem nested_resumes_repeated :
    let s : ModeStack := ⟨⟨1⟩, [⟨2⟩, ⟨1⟩, .initial]⟩
    let ops : List ModeOperation := [.enter ⟨3⟩, .switch ⟨4⟩, .enter ⟨1⟩, .leave, .leave]
    let t := (runCalls ModeOperation.apply s [.enter ⟨2⟩, .enter ⟨3⟩]).state
    SelfContained ModeOperation.part ops ∧ (runCalls ModeOperation.apply s ops).state = s ∧
      s.active ∉ [⟨2⟩, ⟨3⟩] ∧ (t.unwind ⟨1⟩).state = s ∧ (t.leaves 2).state = s := by
  intro s ops t
  have hops : SelfContained ModeOperation.part ops := by
    have hinner : Balanced ModeOperation.part [.switch ⟨4⟩, .enter ⟨1⟩, .leave] := by decide
    exact hinner.selfContained (by decide) rfl rfl
  have hnew : s.active ∉ [⟨2⟩, ⟨3⟩] := by decide
  obtain ⟨-, hunwind, hleaves, -⟩ :=
    (nested_resumes s).2 [⟨2⟩, ⟨3⟩] (List.cons_ne_nil _ _) hnew
  exact ⟨hops, ((nested_resumes s).1 ops hops).1, hnew, hunwind, hleaves⟩

end ModeStack

end ShellLexing
