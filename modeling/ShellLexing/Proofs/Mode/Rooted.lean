import ShellLexing.Proofs.Mode.Nesting
import ShellLexing.Proofs.Session.Refusal

/-!
# The initial mode is the root

The initial mode is the one outside of every construct. A grammar that keeps to this never enters
it, and does not switch to it; nor does it switch away from it while nothing is saved, for then the
initial mode would be lost. `ModeOperation.Proper` says this of a single operation.

**Theorem (`root_of_disciplined`).** Let all operations on a new stack be proper, whether they
succeed or fail. Then the initial mode is at the bottom of the stack and nowhere else (`Rooted`). So
it is active exactly when nothing is saved, it always counts as held, and unwinding to it empties
the stack. The operations that can fail are leaving, and unwinding to the initial mode, both when
nothing is saved.

Entering adds a mode at the other end, and switching changes the mode there. Leaving and unwinding
take modes away at that end but never the last one, so they leave a stack with the same root
(`Rooted.of_suffix`).
-/

namespace ShellLexing

/-- An operation that keeps the initial mode in its place. -/
def ModeOperation.Proper (s : ModeStack) : ModeOperation → Prop
  | enter m => m ≠ .initial
  | switch m => m ≠ .initial ∧ s.saved ≠ []
  | leave | unwind _ | holds _ => True

instance (s : ModeStack) : (op : ModeOperation) → Decidable (op.Proper s)
  | .enter m => inferInstanceAs (Decidable (m ≠ .initial))
  | .switch m => inferInstanceAs (Decidable (m ≠ .initial ∧ s.saved ≠ []))
  | .leave | .unwind _ | .holds _ => isTrue trivial

namespace ModeStack

/-- The initial mode is at the bottom of the stack and nowhere else. -/
def Rooted (s : ModeStack) : Prop := ∃ above, s.all = above ++ [.initial] ∧ .initial ∉ above

variable {s t : ModeStack}

/-! ## Modes that are left -/

theorem all_leave_suffix (s : ModeStack) : s.leave.state.all <:+ s.all := by
  obtain ⟨active, saved⟩ := s
  cases saved with
  | nil => exact List.suffix_refl _
  | cons m rest => exact List.suffix_cons active (m :: rest)

theorem all_leaves_suffix (s : ModeStack) (n : Nat) : (s.leaves n).state.all <:+ s.all := by
  induction n generalizing s with
  | zero => exact List.suffix_refl _
  | succ n ih => exact (ih s.leave.state).trans (all_leave_suffix s)

theorem all_unwind_suffix (s : ModeStack) (target : Mode) :
    (s.unwind target).state.all <:+ s.all := by
  obtain ⟨n, hstate, -⟩ := exists_leaves_of_unwind s target
  rw [hstate]
  exact all_leaves_suffix s n

/-! ## Roots -/

theorem rooted_fresh : fresh.Rooted := ⟨[], rfl, List.not_mem_nil⟩

namespace Rooted

theorem of_suffix (hs : s.Rooted) (h : t.all <:+ s.all) : t.Rooted := by
  obtain ⟨above, hall, habove⟩ := hs
  obtain ⟨left, hleft⟩ := h
  obtain ⟨kept, root, hkept⟩ : ∃ kept root, t.all = kept ++ [root] :=
    ⟨_, _, (List.dropLast_append_getLast (List.cons_ne_nil t.active t.saved)).symm⟩
  rw [hall, hkept, ← List.append_assoc] at hleft
  obtain ⟨rfl, hroot⟩ := List.append_inj' hleft rfl
  obtain rfl : root = .initial := List.singleton_inj.1 hroot
  exact ⟨kept, hkept, fun hmem => habove (List.mem_append_right left hmem)⟩

/-- A stack with saved modes has its root among them. -/
theorem exists_saved (hs : s.Rooted) (hsaved : s.saved ≠ []) :
    ∃ above, s.saved = above ++ [.initial] ∧ .initial ∉ above ∧ .initial ≠ s.active := by
  obtain ⟨above, hall, habove⟩ := hs
  cases above with
  | nil => exact absurd (List.cons.inj hall).2 hsaved
  | cons m above =>
    obtain ⟨rfl, hrest⟩ := List.cons.inj hall
    exact ⟨above, hrest, List.not_mem_of_not_mem_cons habove, List.ne_of_not_mem_cons habove⟩

theorem active_of_saved_eq_nil (hs : s.Rooted) (hsaved : s.saved = []) : s.active = .initial := by
  obtain ⟨above, hall, -⟩ := hs
  rw [all, hsaved] at hall
  cases above with
  | nil => exact (List.cons.inj hall).1
  | cons m above => simp at hall

theorem active_eq_initial_iff (hs : s.Rooted) : s.active = .initial ↔ s.saved = [] := by
  refine ⟨fun hactive => ?_, hs.active_of_saved_eq_nil⟩
  by_contra hsaved
  obtain ⟨-, -, -, hne⟩ := hs.exists_saved hsaved
  exact hne hactive.symm

theorem holds_initial (hs : s.Rooted) : s.holds .initial = true := by
  by_cases hsaved : s.saved = []
  · simp [holds, isEmpty, hsaved]
  · obtain ⟨above, habove, -, -⟩ := hs.exists_saved hsaved
    rw [holds_iff_mem hsaved, habove]
    simp

theorem unwind_initial (hs : s.Rooted) (hsaved : s.saved ≠ []) :
    (s.unwind .initial).answer = .ok () ∧ (s.unwind .initial).state = fresh := by
  obtain ⟨above, habove, hroot, hactive⟩ := hs.exists_saved hsaved
  rw [unwind_of_split hactive habove hroot]
  exact ⟨rfl, rfl⟩

theorem refused_iff (hs : s.Rooted) (op : ModeOperation) :
    op.Refused s ↔ (op = .leave ∨ op = .unwind .initial) ∧ s.depth = 0 := by
  have hdepth : s.depth = 0 ↔ s.saved = [] := List.length_eq_zero_iff
  cases op with
  | enter m | switch m | holds m => simp [ModeOperation.Refused]
  | leave => simp [ModeOperation.Refused, hdepth]
  | unwind target =>
    simp only [ModeOperation.Refused, hdepth, reduceCtorEq, false_or, ModeOperation.unwind.injEq]
    refine and_congr_left fun hsaved => ?_
    rw [hs.active_of_saved_eq_nil hsaved]

/-- Above the root any other mode can be active. -/
theorem of_saved {above : List Mode} (hsaved : s.saved = above ++ [.initial])
    (habove : .initial ∉ above) (hactive : s.active ≠ .initial) : s.Rooted := by
  refine ⟨s.active :: above, congrArg (s.active :: ·) hsaved, ?_⟩
  simp [habove, hactive.symm]

theorem apply (hs : s.Rooted) {op : ModeOperation} (hop : op.Proper s) :
    (op.apply s).state.Rooted := by
  cases op with
  | enter m =>
    obtain ⟨above, hall, habove⟩ := hs
    exact of_saved hall habove hop
  | switch m =>
    -- Something is saved, so the mode that is replaced is not the root.
    obtain ⟨above, hsaved, habove, -⟩ := hs.exists_saved hop.2
    exact of_saved hsaved habove hop.1
  | leave => exact hs.of_suffix (all_leave_suffix s)
  | unwind target => exact hs.of_suffix (all_unwind_suffix s target)
  | holds m => exact hs

end Rooted

/-- **The initial mode is the root.** In every run of proper operations on a new stack, which goes
on behind failures, the initial mode is at the bottom and nowhere else. It is active exactly when
nothing is saved, it is always held, unwinding to it leaves everything, and of all operations only
leaving and unwinding to the initial mode can fail next, exactly when nothing is saved. -/
theorem root_of_disciplined (ops : List ModeOperation)
    (hops : AllowedRun ModeOperation.apply ModeOperation.Proper fresh ops) :
    let s := (runCalls ModeOperation.apply fresh ops).state
    s.Rooted ∧ (s.active = .initial ↔ s.saved = []) ∧ s.holds .initial = true ∧
    (0 < s.depth → (s.unwind .initial).answer = .ok () ∧ (s.unwind .initial).state = fresh) ∧
    ∀ op : ModeOperation, (∃ e, (op.apply s).answer = .error e) ↔
      (op = .leave ∨ op = .unwind .initial) ∧ s.depth = 0 := by
  intro s
  have hstep : ∀ (s : ModeStack) (op : ModeOperation),
      op.Proper s → s.Rooted → (op.apply s).state.Rooted := fun _ _ hop hs => hs.apply hop
  have hs : s.Rooted := runCalls_invariant hstep hops rooted_fresh
  refine ⟨hs, hs.active_eq_initial_iff, hs.holds_initial, fun hdepth => ?_, fun op => ?_⟩
  · exact hs.unwind_initial (List.length_pos_iff.1 hdepth)
  · rw [ModeOperation.fails_iff, hs.refused_iff]

/-- The run begins with two failures. Mode 1 is then saved twice under mode 4, and unwound to. -/
theorem root_of_disciplined_failures :
    let ops : List ModeOperation := [.leave, .unwind .initial, .enter ⟨1⟩, .enter ⟨2⟩, .switch ⟨3⟩,
      .enter ⟨1⟩, .enter ⟨4⟩, .unwind ⟨1⟩, .unwind ⟨5⟩, .unwind ⟨1⟩]
    let s := (runCalls ModeOperation.apply fresh ops).state
    AllowedRun ModeOperation.apply ModeOperation.Proper fresh ops ∧
      s.all = [⟨3⟩, ⟨1⟩, .initial] ∧ s.Rooted ∧ (s.unwind .initial).state = fresh := by
  intro ops s
  have hops : AllowedRun ModeOperation.apply ModeOperation.Proper fresh ops := by decide
  obtain ⟨hroot, -, -, hunwind, -⟩ := root_of_disciplined ops hops
  exact ⟨hops, rfl, hroot, (hunwind (by decide)).2⟩

end ModeStack

end ShellLexing
