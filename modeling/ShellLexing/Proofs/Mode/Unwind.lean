import Mathlib.Data.List.Basic
import ShellLexing.Mode.Stack
import ShellLexing.Proofs.Run

/-!
# Unwinding

`ModeStack.unwind` leaves modes until a given one is active again. This file says where it stops,
and that it stops.

Heights are counted from the bottom of the saved modes (`ModeStack.ascent`), so that a mode keeps
its height when modes above it are left. `SavedLastAt` names the greatest height of a mode.

**Theorem (`unwind_stops_at_last`).** Unwinding the active mode is leaving once. Unwinding a mode
that is saved below succeeds: what is saved afterwards are the modes under its greatest height, and
the steps are so many calls of `leave`, none of which fails. Unwinding any other mode does nothing.

The proof splits the saved modes at the topmost occurrence of the target. The modes above it are
left one after the other (`leaveUntil_append`), for none of them is the target.

A loop could as well ask before every step whether the target is still saved. This is
`leaveWhileSaved`. It looks at all saved modes each time and comes to the same
(`leaveWhileSaved_of_mem`): as long as the target has not been resumed, it is still saved.
-/

namespace ShellLexing.ModeStack

/-! ## Heights -/

/-- The saved modes from the bottom upwards, in the order in which they were saved. -/
def ascent (s : ModeStack) : List Mode := s.saved.reverse

/-- The mode is saved at height `i`, and nowhere above. -/
def SavedLastAt (s : ModeStack) (m : Mode) (i : Nat) : Prop :=
  s.ascent[i]? = some m ∧ ∀ j, i < j → s.ascent[j]? ≠ some m

theorem savedLastAt_of_split {s : ModeStack} {m : Mode} {above below : List Mode}
    (hs : s.saved = above ++ m :: below) (habove : m ∉ above) :
    s.SavedLastAt m below.length := by
  have hascent : s.ascent = below.reverse ++ m :: above.reverse := by
    rw [ascent, hs, List.reverse_append, List.reverse_cons, List.append_assoc,
      List.singleton_append]
  have hlen : below.reverse.length = below.length := List.length_reverse
  refine ⟨?_, fun j hj hm => ?_⟩
  · rw [hascent, ← hlen, List.getElem?_append_right (Nat.le_refl _), Nat.sub_self,
      List.getElem?_cons_zero]
  · obtain ⟨k, rfl⟩ := Nat.exists_eq_add_of_lt hj
    rw [hascent, List.getElem?_append_right (by omega), hlen,
      show below.length + k + 1 - below.length = k + 1 by omega, List.getElem?_cons_succ] at hm
    exact habove (List.mem_reverse.1 (List.mem_of_getElem? hm))

theorem take_ascent_of_split {s : ModeStack} {m : Mode} {above below : List Mode}
    (hs : s.saved = above ++ m :: below) : s.ascent.take below.length = below.reverse := by
  rw [ascent, hs, List.reverse_append, List.reverse_cons, List.append_assoc]
  exact List.take_left' List.length_reverse

/-! ## Leaving several modes -/

/-- The run of `n` calls of `leave`. -/
def leaves (s : ModeStack) (n : Nat) : Run Violation ModeStack Mode :=
  runCalls (fun s (_ : Unit) => s.leave) s (List.replicate n ())

/-- Leaving a saved mode is one call more for those above it. -/
theorem leaves_cons (active m : Mode) (rest : List Mode) (n : Nat) :
    leaves ⟨active, m :: rest⟩ (n + 1) =
      ⟨.ok m :: (leaves ⟨m, rest⟩ n).answers, (leaves ⟨m, rest⟩ n).state,
        .modeLeft active m rest.length :: (leaves ⟨m, rest⟩ n).events⟩ := rfl

theorem leaves_append (active m : Mode) (above below : List Mode) :
    (leaves ⟨active, above ++ m :: below⟩ (above.length + 1)).answers =
        (above ++ [m]).map .ok ∧
      (leaves ⟨active, above ++ m :: below⟩ (above.length + 1)).state = ⟨m, below⟩ := by
  induction above generalizing active with
  | nil => exact ⟨rfl, rfl⟩
  | cons a above ih =>
    obtain ⟨hanswers, hstate⟩ := ih a
    rw [List.cons_append, List.length_cons, leaves_cons]
    exact ⟨congrArg (.ok a :: ·) hanswers, hstate⟩

/-! ## The two loops -/

theorem leaveUntil_cons_self (target active : Mode) (rest : List Mode) :
    leaveUntil target active (target :: rest) =
      .done () ⟨target, rest⟩ [.modeLeft active target rest.length] := by
  rw [leaveUntil]
  exact congrArg (Outcome.after _) (if_pos rfl)

theorem leaveUntil_cons_of_ne {target m : Mode} (hm : m ≠ target) (active : Mode)
    (rest : List Mode) :
    leaveUntil target active (m :: rest) =
      (leaveUntil target m rest).after [.modeLeft active m rest.length] := by
  rw [leaveUntil]
  exact congrArg (Outcome.after _) (if_neg hm)

/-- The modes above the target are left one after the other, and the target is resumed. -/
theorem leaveUntil_append {target : Mode} {above : List Mode} (habove : target ∉ above)
    (active : Mode) (below : List Mode) :
    leaveUntil target active (above ++ target :: below) =
      .done () ⟨target, below⟩
        (leaves ⟨active, above ++ target :: below⟩ (above.length + 1)).events := by
  induction above generalizing active with
  | nil => exact leaveUntil_cons_self target active below
  | cons m above ih =>
    have hm : m ≠ target := Ne.symm (List.ne_of_not_mem_cons habove)
    rw [List.cons_append, leaveUntil_cons_of_ne hm, ih (List.not_mem_of_not_mem_cons habove),
      List.length_cons, leaves_cons]
    rfl

/-- Leave `active` and the modes of `saved` as long as `target` is saved, but not further than to
the target itself. All saved modes are looked at before each step. -/
def leaveWhileSaved (target active : Mode) : List Mode → Outcome Violation ModeStack Unit
  | [] => .done () ⟨active, []⟩ []
  | m :: rest =>
    if target ∈ m :: rest then
      (leave ⟨active, m :: rest⟩).andThen fun resumed s =>
        if resumed = target then .done () s [] else leaveWhileSaved target m rest
    else
      .done () ⟨active, m :: rest⟩ []

theorem leaveWhileSaved_of_not_mem {target : Mode} {saved : List Mode} (h : target ∉ saved)
    (active : Mode) : leaveWhileSaved target active saved = .done () ⟨active, saved⟩ [] := by
  cases saved with
  | nil => rfl
  | cons m rest => exact if_neg h

/-- A saved target stays saved until it is resumed, so asking again changes nothing. -/
theorem leaveWhileSaved_of_mem {target : Mode} {saved : List Mode} (h : target ∈ saved)
    (active : Mode) : leaveWhileSaved target active saved = leaveUntil target active saved := by
  induction saved generalizing active with
  | nil => cases h
  | cons m rest ih =>
    by_cases hm : m = target
    · subst hm
      rw [leaveUntil_cons_self, leaveWhileSaved, if_pos h]
      exact congrArg (Outcome.after _) (if_pos rfl)
    · have hrest : target ∈ rest := List.mem_of_ne_of_mem (Ne.symm hm) h
      rw [leaveUntil_cons_of_ne hm, leaveWhileSaved, if_pos h, ← ih hrest]
      exact congrArg (Outcome.after _) (if_neg hm)

/-! ## Unwinding -/

variable {s : ModeStack} {target : Mode}

theorem unwind_active (s : ModeStack) :
    s.unwind s.active = (s.leave.map fun _ => ()).after [.unwinding s.active s.depth] := by
  rw [unwind, if_pos rfl]

theorem unwind_of_not_mem (hactive : target ≠ s.active) (hsaved : target ∉ s.saved) :
    s.unwind target = .done () s [.unwinding target s.depth] := by
  rw [unwind, if_neg (Ne.symm hactive), if_neg hsaved]
  rfl

theorem unwind_of_split {above below : List Mode} (hactive : target ≠ s.active)
    (hs : s.saved = above ++ target :: below) (habove : target ∉ above) :
    s.unwind target = .done () ⟨target, below⟩
      (.unwinding target s.depth :: (s.leaves (above.length + 1)).events) := by
  have hmem : target ∈ s.saved := hs ▸ List.mem_append_right above List.mem_cons_self
  obtain ⟨active, saved⟩ := s
  subst hs
  rw [unwind, if_neg (Ne.symm hactive), if_pos hmem, leaveUntil_append habove]
  rfl

/-- Whatever the target is, unwinding comes to so many calls of `leave`. -/
theorem exists_leaves_of_unwind (s : ModeStack) (target : Mode) :
    ∃ n, (s.unwind target).state = (s.leaves n).state ∧
      (s.unwind target).events = .unwinding target s.depth :: (s.leaves n).events := by
  by_cases hactive : target = s.active
  · subst hactive
    refine ⟨1, ?_, ?_⟩
    · rw [unwind_active]
      rfl
    · rw [unwind_active, leaves, List.replicate_one, runCalls]
      simp [runCalls]
  · by_cases hsaved : target ∈ s.saved
    · obtain ⟨above, below, hs, habove⟩ := List.eq_append_cons_of_mem hsaved
      have hstate := (leaves_append s.active target above below).2
      rw [← hs] at hstate
      rw [unwind_of_split hactive hs habove]
      exact ⟨above.length + 1, hstate.symm, rfl⟩
    · rw [unwind_of_not_mem hactive hsaved]
      exact ⟨0, rfl, rfl⟩

theorem unwind_eq_leaveWhileSaved (hactive : target ≠ s.active) :
    s.unwind target =
      (leaveWhileSaved target s.active s.saved).after [.unwinding target s.depth] := by
  by_cases hsaved : target ∈ s.saved
  · rw [unwind, if_neg (Ne.symm hactive), if_pos hsaved, leaveWhileSaved_of_mem hsaved]
  · rw [unwind_of_not_mem hactive hsaved, leaveWhileSaved_of_not_mem hsaved]
    rfl

theorem active_unwind_eq_iff (hactive : target ≠ s.active) :
    (s.unwind target).state.active = target ↔ target ∈ s.saved := by
  by_cases hsaved : target ∈ s.saved
  · obtain ⟨above, below, hs, habove⟩ := List.eq_append_cons_of_mem hsaved
    rw [unwind_of_split hactive hs habove]
    exact iff_of_true rfl hsaved
  · rw [unwind_of_not_mem hactive hsaved]
    exact iff_of_false (Ne.symm hactive) hsaved

theorem holds_iff_mem (h : s.saved ≠ []) (m : Mode) : s.holds m = true ↔ m ∈ s.saved := by
  have hempty : s.isEmpty = false := List.isEmpty_eq_false_iff.2 h
  rw [holds, hempty, Bool.and_false, Bool.false_or, List.contains_iff_mem]

/-- **Unwinding stops at the last place of the target.** Of the active mode it is leaving once. A
saved mode becomes active again, the modes under its greatest height `i` stay saved, and the steps
are `depth - i` calls of `leave`, all of which succeed. Of any other mode it changes nothing. So a
mode that is not active becomes active exactly if it was saved, and the loop that looks for it anew
before each step comes to the same. -/
theorem unwind_stops_at_last (s : ModeStack) (target : Mode) :
    (target = s.active →
      s.unwind target = (s.leave.map fun _ => ()).after [.unwinding target s.depth]) ∧
    (target ≠ s.active → target ∈ s.saved → ∃ i, s.SavedLastAt target i ∧
      (s.unwind target).answer = .ok () ∧
      (s.unwind target).state.active = target ∧
      (s.unwind target).state.ascent = s.ascent.take i ∧
      (s.leaves (s.depth - i)).state = (s.unwind target).state ∧
      (∀ a ∈ (s.leaves (s.depth - i)).answers, ∃ m, a = .ok m) ∧
      (s.unwind target).events =
        .unwinding target s.depth :: (s.leaves (s.depth - i)).events) ∧
    (target ≠ s.active → target ∉ s.saved →
      s.unwind target = .done () s [.unwinding target s.depth]) ∧
    (target ≠ s.active → ((s.unwind target).state.active = target ↔ target ∈ s.saved)) ∧
    (s.saved ≠ [] → (target ∈ s.saved ↔ s.holds target = true)) ∧
    (target ≠ s.active → s.unwind target =
      (leaveWhileSaved target s.active s.saved).after [.unwinding target s.depth]) := by
  refine ⟨?_, fun hactive hsaved => ?_, unwind_of_not_mem, active_unwind_eq_iff,
    fun hne => (holds_iff_mem hne target).symm, unwind_eq_leaveWhileSaved⟩
  · rintro rfl
    exact unwind_active s
  · obtain ⟨above, below, hs, habove⟩ := List.eq_append_cons_of_mem hsaved
    have hsteps : s.depth - below.length = above.length + 1 := by
      rw [depth, hs, List.length_append, List.length_cons]
      omega
    have hleaves := leaves_append s.active target above below
    rw [← hs] at hleaves
    refine ⟨below.length, savedLastAt_of_split hs habove, ?_⟩
    rw [unwind_of_split hactive hs habove, hsteps, take_ascent_of_split hs]
    refine ⟨rfl, rfl, rfl, hleaves.2, fun a ha => ?_, rfl⟩
    have hanswers : (leaves s (above.length + 1)).answers = (above ++ [target]).map .ok :=
      hleaves.1
    rw [hanswers] at ha
    obtain ⟨m, -, rfl⟩ := List.mem_map.1 ha
    exact ⟨m, rfl⟩

/-- Mode 1 is saved twice, and the active mode 3 once. Two modes are left for the upper mode 1. -/
theorem unwind_stops_at_last_repeated :
    let s : ModeStack := ⟨⟨3⟩, [⟨3⟩, ⟨1⟩, ⟨2⟩, ⟨1⟩, .initial]⟩
    ⟨1⟩ ≠ s.active ∧ ⟨1⟩ ∈ s.saved ∧ s.saved ≠ [] ∧ s.holds ⟨1⟩ = true ∧
      (s.unwind ⟨1⟩).state.saved = [⟨2⟩, ⟨1⟩, .initial] ∧
      ∃ i, s.SavedLastAt ⟨1⟩ i ∧ (s.unwind ⟨1⟩).state.active = ⟨1⟩ ∧
        (s.unwind ⟨1⟩).state.ascent = s.ascent.take i := by
  intro s
  have hactive : ⟨1⟩ ≠ s.active := by decide
  have hsaved : ⟨1⟩ ∈ s.saved := by decide
  obtain ⟨-, hunwind, -, -, hholds, -⟩ := unwind_stops_at_last s ⟨1⟩
  obtain ⟨i, hlast, -, hresumed, hascent, -⟩ := hunwind hactive hsaved
  exact ⟨hactive, hsaved, by decide, (hholds (by decide)).1 hsaved, rfl, i, hlast, hresumed,
    hascent⟩

end ShellLexing.ModeStack
