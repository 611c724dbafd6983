import ShellLexing.Proofs.Run

/-!
# Independent axes

An object may have several axes, such as the fields of a record, and every operation may concern
one of them alone. `Separates` says so of the calls on an object: a call leaves the values on
all other axes as they are, and what it answers and leaves behind on its own axis depends on
nothing but the value there.

**Each axis on its own** (`Separates.run`). In a run of any operations, the value on an axis and
the answers to the operations of this axis are those of the run of these operations alone.
Operations of other axes may stand between them, and may fail.

**Interleaving** (`Separates.run_of_same_axes`). So the order in which operations of different
axes are made does not matter: it is enough that each axis has the same operations in the same
order.

The proof is an induction on the operations. It compares runs from two objects that have the
same value on the axis, because an operation of another axis changes the one object and is
missing in the other run.
-/

namespace ShellLexing

variable {ε σ α ω ι : Type} {V : ι → Type}

/-- The operations of a run, each with its answer. -/
def history (call : σ → ω → Outcome ε σ α) (s : σ) (ops : List ω) : List (ω × Except ε α) :=
  ops.zip (runCalls call s ops).answers

@[simp] theorem history_nil (call : σ → ω → Outcome ε σ α) (s : σ) : history call s [] = [] := rfl

@[simp] theorem history_cons (call : σ → ω → Outcome ε σ α) (s : σ) (op : ω) (ops : List ω) :
    history call s (op :: ops) =
      (op, (call s op).answer) :: history call (call s op).state ops := rfl

/-- Every call concerns the axis of its operation alone. -/
structure Separates (call : σ → ω → Outcome ε σ α) (axis : ω → ι) (value : (i : ι) → σ → V i) :
    Prop where
  other : ∀ s op i, axis op ≠ i → value i (call s op).state = value i s
  answer : ∀ s t op, value (axis op) s = value (axis op) t → (call s op).answer = (call t op).answer
  own : ∀ s t op, value (axis op) s = value (axis op) t →
    value (axis op) (call s op).state = value (axis op) (call t op).state

namespace Separates

variable [DecidableEq ι] {call : σ → ω → Outcome ε σ α} {axis : ω → ι} {value : (i : ι) → σ → V i}

/-- **Each axis on its own.** From objects with the same value on an axis, a run and the run of the
operations of this axis alone lead to the same value there, by the same answers. -/
theorem run (hcall : Separates call axis value) {i : ι} {s t : σ} (h : value i s = value i t)
    (ops : List ω) :
    value i (runCalls call s ops).state =
        value i (runCalls call t (ops.filter fun op => axis op = i)).state ∧
      ((history call s ops).filter fun entry => axis entry.1 = i) =
        history call t (ops.filter fun op => axis op = i) := by
  induction ops generalizing s t with
  | nil => exact ⟨h, rfl⟩
  | cons op ops ih =>
    by_cases hop : axis op = i
    · subst hop
      obtain ⟨hvalue, hhistory⟩ := ih (hcall.own s t op h)
      have hanswer := hcall.answer s t op h
      simp only [history_cons, List.filter_cons, decide_true, if_true]
      exact ⟨hvalue, by rw [hhistory, hanswer]⟩
    · -- The operation is missing in the other run, and changes nothing on this axis.
      have hkept : value i (call s op).state = value i t := (hcall.other s op i hop).trans h
      simp only [history_cons, List.filter_cons, hop, decide_false, Bool.false_eq_true, if_false]
      exact ih hkept

/-- **Interleaving.** Runs in which every axis has the same operations in the same order lead to the
same values by the same answers. -/
theorem run_of_same_axes (hcall : Separates call axis value) (s : σ) {ops ops' : List ω}
    (hops : ∀ i, (ops.filter fun op => axis op = i) = ops'.filter fun op => axis op = i) (i : ι) :
    value i (runCalls call s ops).state = value i (runCalls call s ops').state ∧
      ((history call s ops).filter fun entry => axis entry.1 = i) =
        (history call s ops').filter fun entry => axis entry.1 = i := by
  obtain ⟨hvalue, hhistory⟩ := hcall.run (i := i) (s := s) rfl ops
  obtain ⟨hvalue', hhistory'⟩ := hcall.run (i := i) (s := s) rfl ops'
  rw [hvalue, hhistory, hvalue', hhistory', hops i]
  exact ⟨rfl, rfl⟩

theorem run_of_idle (hcall : Separates call axis value) {i : ι} (hidle : ∀ op, axis op ≠ i) (s : σ)
    (ops : List ω) : value i (runCalls call s ops).state = value i s := by
  have hnone : (ops.filter fun op => axis op = i) = [] := by
    simp [hidle]
  obtain ⟨hvalue, -⟩ := hcall.run (i := i) (s := s) rfl ops
  rw [hvalue, hnone]
  rfl

end Separates

end ShellLexing
