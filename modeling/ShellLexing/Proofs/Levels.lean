import Mathlib.Data.List.Infix
import ShellLexing.Proofs.Run

/-!
# Nested levels

Saved modes and open command substitutions nest in the same way. The object has levels, of which
the innermost is the one at work. An operation *opens* a level inside of all others, or *closes* the
innermost level, or changes something at the innermost level and is called *inner*. `Nests` says
that the calls on an object are of this kind.

A list of operations is `Balanced` if its closings and openings pair up as brackets do. It is
`SelfContained` if, besides, it has no other operations than these, and inner ones only between a
bracket and its partner.

**What is around stays** (`Nests.levels_run`). In a run of self-contained operations, the levels
from before lie at every moment unchanged below those that are open. A level that is to be closed is
there (`Nests.answer_run`), and in the end the levels are those from before (`Nests.levels_run_eq`).

The proof is an induction on the part of the operations that has been run. The levels above those
from before are as many as the openings that have no closing yet; so a closing never reaches the
levels from before, nor does an inner operation.
-/

namespace ShellLexing

/-- The part that an operation plays in the nesting of an object. -/
inductive Part where
  | opening
  | closing
  | inner
deriving DecidableEq

variable {ε σ α ω β : Type}

/-! ## Brackets -/

section Brackets

variable (part : ω → Option Part)

def openings (ops : List ω) : Nat := ops.countP fun op => part op = some .opening

def closings (ops : List ω) : Nat := ops.countP fun op => part op = some .closing

/-- The closings of a list of operations pair up with the openings. -/
structure Balanced (ops : List ω) : Prop where
  closings_le : ∀ before, before <+: ops → closings part before ≤ openings part before
  closings_eq : closings part ops = openings part ops

instance (ops : List ω) : Decidable (Balanced part ops) :=
  decidable_of_iff ((∀ before ∈ ops.inits, closings part before ≤ openings part before) ∧
      closings part ops = openings part ops)
    ⟨fun h => ⟨fun before hbefore => h.1 before (List.mem_inits before ops |>.2 hbefore), h.2⟩,
      fun h => ⟨fun before hbefore => h.closings_le before (List.mem_inits before ops |>.1 hbefore),
        h.closings_eq⟩⟩

/-- A list of operations closes and changes only levels that it has opened, and closes them all. -/
structure SelfContained (ops : List ω) : Prop extends Balanced part ops where
  nested : ∀ op ∈ ops, part op ≠ none
  inner_lt : ∀ before op, before ++ [op] <+: ops → part op = some .inner →
    closings part before < openings part before

end Brackets

variable {part : ω → Option Part} {ops before : List ω} {op : ω}

@[simp] theorem openings_append (xs ys : List ω) :
    openings part (xs ++ ys) = openings part xs + openings part ys :=
  List.countP_append

@[simp] theorem closings_append (xs ys : List ω) :
    closings part (xs ++ ys) = closings part xs + closings part ys :=
  List.countP_append

@[simp] theorem openings_cons (op : ω) (ops : List ω) :
    openings part (op :: ops) = openings part ops + if part op = some .opening then 1 else 0 := by
  simp [openings, List.countP_cons]

@[simp] theorem closings_cons (op : ω) (ops : List ω) :
    closings part (op :: ops) = closings part ops + if part op = some .closing then 1 else 0 := by
  simp [closings, List.countP_cons]

@[simp] theorem openings_nil : openings part [] = 0 := rfl

@[simp] theorem closings_nil : closings part [] = 0 := rfl

/-- Between a bracket and its partner, all operations on levels may stand that are balanced. -/
theorem Balanced.selfContained {first last : ω} (hops : Balanced part ops)
    (hnested : ∀ op ∈ ops, part op ≠ none) (hfirst : part first = some .opening)
    (hlast : part last = some .closing) : SelfContained part (first :: ops ++ [last]) := by
  -- A prefix that is neither empty nor everything is the opening and a prefix of `ops`.
  have hcount : ∀ before, before <+: ops →
      closings part (first :: before) < openings part (first :: before) := by
    intro before hbefore
    have hle := hops.closings_le before hbefore
    simp [hfirst]
    omega
  have htotal : closings part (first :: ops ++ [last]) =
      openings part (first :: ops ++ [last]) := by
    simp [hfirst, hlast, hops.closings_eq]
  refine ⟨⟨fun before hbefore => ?_, htotal⟩, fun op hop => ?_, fun before op hbefore hinner => ?_⟩
  · rcases List.prefix_concat_iff.1 hbefore with rfl | hbefore
    · exact Nat.le_of_eq htotal
    · rcases List.prefix_cons_iff.1 hbefore with rfl | ⟨tail, rfl, htail⟩
      · exact Nat.le_refl 0
      · exact Nat.le_of_lt (hcount tail htail)
  · simp only [List.cons_append, List.mem_cons, List.mem_append, List.not_mem_nil, or_false] at hop
    rcases hop with rfl | hop | rfl
    · simp [hfirst]
    · exact hnested op hop
    · simp [hlast]
  · rcases List.prefix_concat_iff.1 hbefore with hall | hbefore
    · obtain ⟨-, hop⟩ := List.append_inj' hall rfl
      rw [List.cons.inj hop |>.1, hlast] at hinner
      cases hinner
    · rcases List.prefix_cons_iff.1 ((List.prefix_append before [op]).trans hbefore) with
        rfl | ⟨tail, rfl, htail⟩
      · obtain rfl : op = first := by simpa using hbefore
        rw [hfirst] at hinner
        cases hinner
      · exact hcount tail htail

/-! ## Calls on levels -/

/-- The calls act on the levels of an object, the innermost first, as their parts tell. An opening
always succeeds, and a closing if the level is not the outermost. -/
structure Nests (call : σ → ω → Outcome ε σ α) (part : ω → Option Part) (levels : σ → List β) :
    Prop where
  levels_ne_nil : ∀ s, levels s ≠ []
  opening : ∀ s op, part op = some .opening →
    (∃ a, (call s op).answer = .ok a) ∧ ∃ x, levels (call s op).state = x :: levels s
  closing : ∀ s op x rest, part op = some .closing → levels s = x :: rest → rest ≠ [] →
    (∃ a, (call s op).answer = .ok a) ∧ levels (call s op).state = rest
  inner : ∀ s op x rest, part op = some .inner → levels s = x :: rest →
    ∃ y, levels (call s op).state = y :: rest

namespace Nests

variable {call : σ → ω → Outcome ε σ α} {levels : σ → List β}

/-- **What is around stays.** At every moment of a self-contained run the levels from before lie
below as many others as have been opened and not closed. -/
theorem levels_run (hcall : Nests call part levels) (hops : SelfContained part ops) (s : σ)
    (hbefore : before <+: ops) :
    ∃ above, levels (runCalls call s before).state = above ++ levels s ∧
      above.length + closings part before = openings part before := by
  induction before using List.reverseRecOn with
  | nil => exact ⟨[], rfl, rfl⟩
  | append_singleton before op ih =>
    obtain ⟨above, hlevels, hlength⟩ := ih ((List.prefix_append before [op]).trans hbefore)
    have hop : op ∈ ops := hbefore.subset (by simp)
    rw [state_runCalls_concat]
    rcases hpart : part op with _ | _ | _ | _
    · exact absurd hpart (hops.nested op hop)
    · obtain ⟨-, x, hx⟩ := hcall.opening (runCalls call s before).state op hpart
      refine ⟨x :: above, by rw [hx, hlevels, List.cons_append], ?_⟩
      simp [hpart]
      omega
    · have hle := hops.closings_le _ hbefore
      simp [hpart] at hle
      cases above with
      | nil => simp at hle hlength; omega
      | cons x above =>
        obtain ⟨-, hx⟩ := hcall.closing _ op x (above ++ levels s) hpart hlevels
          (by simp [hcall.levels_ne_nil s])
        refine ⟨above, hx, ?_⟩
        simp [hpart] at hlength ⊢
        omega
    · have hlt := hops.inner_lt before op hbefore hpart
      cases above with
      | nil => simp at hlength; omega
      | cons x above =>
        obtain ⟨y, hy⟩ := hcall.inner _ op x (above ++ levels s) hpart hlevels
        refine ⟨y :: above, hy, ?_⟩
        simpa [hpart] using hlength

/-- In a self-contained run every opening and every closing succeeds. -/
theorem answer_run (hcall : Nests call part levels) (hops : SelfContained part ops) (s : σ)
    (hbefore : before ++ [op] <+: ops) (hop : part op ≠ some .inner) :
    ∃ a, (call (runCalls call s before).state op).answer = .ok a := by
  have hmem : op ∈ ops := hbefore.subset (by simp)
  rcases hpart : part op with _ | _ | _ | _
  · exact absurd hpart (hops.nested op hmem)
  · exact (hcall.opening _ op hpart).1
  · obtain ⟨above, hlevels, hlength⟩ :=
      hcall.levels_run hops s ((List.prefix_append before [op]).trans hbefore)
    have hle := hops.closings_le _ hbefore
    simp [hpart] at hle
    cases above with
    | nil => simp at hle hlength; omega
    | cons x above =>
      exact (hcall.closing _ op x (above ++ levels s) hpart hlevels
        (by simp [hcall.levels_ne_nil s])).1
  · exact absurd hpart hop

theorem levels_run_eq (hcall : Nests call part levels) (hops : SelfContained part ops) (s : σ) :
    levels (runCalls call s ops).state = levels s := by
  obtain ⟨above, hlevels, hlength⟩ := hcall.levels_run hops s (List.prefix_refl ops)
  have hnil : above = [] := List.length_eq_zero_iff.1 (by have := hops.closings_eq; omega)
  rw [hlevels, hnil, List.nil_append]

end Nests

end ShellLexing
