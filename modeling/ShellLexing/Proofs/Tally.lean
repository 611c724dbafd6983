import Mathlib.Data.List.Infix
import Mathlib.Data.Set.Operations
import Mathlib.Order.Bounds.Defs
import ShellLexing.Count

/-!
# Tallies

A count goes up with some operations and down with others, and an operation that would take
something from a count of zero is lost. What the count is after a history depends therefore on the
order of the operations and not only on how many of each there are.

**Closed form** (`toNat_tally_le_iff`, `isGreatest_tally`). The count is the greatest excess of ups
over downs that is met on the way back from the end of the history. In particular it is zero exactly
when, looking back, one never sees more ups than downs, which is to say that everything that was
opened has been closed.

A count of 32 bits can be lower than this, since ups are lost as well once the limit is reached; so
one direction needs a bound.
-/

namespace ShellLexing.Count

variable {ω : Type} [DecidableEq ω] {more less : ω} {past : List ω} {k : Nat}

/-- The count after a history, which has the latest operation first: `more` adds one, `less` takes
one away if there is one, and any other operation does nothing. -/
def tally (more less : ω) : List ω → Count
  | [] => zero
  | op :: past =>
    if op = more then (tally more less past).succ
    else if op = less then (tally more less past).pred?.getD (tally more less past)
    else tally more less past

theorem toNat_succ_le (c : Count) : c.succ.toNat ≤ c.toNat + 1 := Nat.min_le_left ..

theorem toNat_getD_pred? (c : Count) : (c.pred?.getD c).toNat = c.toNat - 1 := by
  obtain ⟨_ | n, h⟩ := c <;> rfl

theorem tally_cons_more (more less : ω) (past : List ω) :
    tally more less (more :: past) = (tally more less past).succ :=
  if_pos rfl

theorem toNat_tally_cons_less (hne : less ≠ more) (past : List ω) :
    (tally more less (less :: past)).toNat = (tally more less past).toNat - 1 := by
  rw [tally, if_neg hne, if_pos rfl, toNat_getD_pred?]

theorem tally_cons_other {op : ω} (hmore : op ≠ more) (hless : op ≠ less) (past : List ω) :
    tally more less (op :: past) = tally more less past := by
  rw [tally, if_neg hmore, if_neg hless]

/-- The count is never greater than the greatest excess of ups over downs on the way back. -/
theorem toNat_tally_le (hne : less ≠ more)
    (h : ∀ latest, latest <+: past → latest.count more ≤ latest.count less + k) :
    (tally more less past).toNat ≤ k := by
  induction past generalizing k with
  | nil => exact Nat.zero_le k
  | cons op past ih =>
    -- What is met on the way back from one operation earlier.
    have hpast : ∀ latest, latest <+: past →
        (op :: latest).count more ≤ (op :: latest).count less + k :=
      fun latest hlatest => h (op :: latest) ((List.prefix_cons_inj op).2 hlatest)
    by_cases hmore : op = more
    · subst hmore
      have hone := hpast [] List.nil_prefix
      simp [Ne.symm hne] at hone
      have hle : (tally op less past).toNat ≤ k - 1 := ih fun latest hlatest => by
        have := hpast latest hlatest
        simp [Ne.symm hne] at this
        omega
      have hsucc := toNat_succ_le (tally op less past)
      rw [tally_cons_more]
      omega
    · by_cases hless : op = less
      · subst hless
        have hle : (tally more op past).toNat ≤ k + 1 := ih fun latest hlatest => by
          have := hpast latest hlatest
          simp [hne] at this
          omega
        rw [toNat_tally_cons_less hne]
        omega
      · rw [tally_cons_other hmore hless]
        refine ih fun latest hlatest => ?_
        simpa [hmore, hless] using hpast latest hlatest

theorem toNat_tally_le_count (hne : less ≠ more) (past : List ω) :
    (tally more less past).toNat ≤ past.count more :=
  toNat_tally_le hne fun _ hlatest =>
    Nat.le_trans (hlatest.sublist.count_le more) (Nat.le_add_left ..)

/-- Within the limit the count is as great as the excess of ups over downs anywhere on the way
back. -/
theorem count_le_of_toNat_tally_le (hne : less ≠ more) (hroom : past.count more ≤ limit)
    (h : (tally more less past).toNat ≤ k) {latest : List ω} (hlatest : latest <+: past) :
    latest.count more ≤ latest.count less + k := by
  induction past generalizing k latest with
  | nil => simp [List.prefix_nil.1 hlatest]
  | cons op past ih =>
    rcases List.prefix_cons_iff.1 hlatest with rfl | ⟨latest, rfl, htail⟩
    · simp
    by_cases hmore : op = more
    · subst hmore
      rw [List.count_cons_self] at hroom
      have hle := toNat_tally_le_count hne past
      have hlt : (tally op less past).toNat < limit := by omega
      rw [tally_cons_more, toNat_succ hlt] at h
      have := ih (k := k - 1) (by omega) (by omega) htail
      simp [Ne.symm hne]
      omega
    · rw [List.count_cons_of_ne hmore] at hroom
      by_cases hless : op = less
      · subst hless
        rw [toNat_tally_cons_less hne] at h
        have := ih (k := k + 1) hroom (by omega) htail
        simp [hmore]
        omega
      · rw [tally_cons_other hmore hless] at h
        simpa [hmore, hless] using ih hroom h htail

/-- The count after a history is the greatest excess of ups over downs on the way back from its
end. -/
theorem toNat_tally_le_iff (hne : less ≠ more) (hroom : past.count more ≤ limit) :
    (tally more less past).toNat ≤ k ↔
      ∀ latest, latest <+: past → latest.count more ≤ latest.count less + k :=
  ⟨fun h _ hlatest => count_le_of_toNat_tally_le hne hroom h hlatest, toNat_tally_le hne⟩

/-! ## Greatest excesses -/

/-- By how much `more` is ahead of `less` in a list of operations; negative if it is behind. -/
def excess (more less : ω) (ops : List ω) : Int := ops.count more - ops.count less

theorem excess_append (more less : ω) (first last : List ω) :
    excess more less (first ++ last) = excess more less first + excess more less last := by
  simp only [excess, List.count_append]
  omega

theorem excess_swap (more less : ω) (ops : List ω) :
    excess less more ops = -excess more less ops := by
  simp only [excess]
  omega

variable {ops : List ω}

theorem toNat_tally_reverse_le_iff (hne : less ≠ more) (hroom : ops.count more ≤ limit) :
    (tally more less ops.reverse).toNat ≤ k ↔
      ∀ last, last <:+ ops → last.count more ≤ last.count less + k := by
  rw [toNat_tally_le_iff hne (by rwa [List.count_reverse])]
  constructor
  · intro h last hlast
    have hle := h last.reverse (List.reverse_prefix.2 hlast)
    rwa [List.count_reverse, List.count_reverse] at hle
  · intro h latest hlatest
    have hle := h latest.reverse (List.reverse_prefix.1 (by rwa [List.reverse_reverse]))
    rwa [List.count_reverse, List.count_reverse] at hle

theorem isGreatest_tally (hne : less ≠ more) (hroom : ops.count more ≤ limit) :
    IsGreatest (excess more less '' {last | last <:+ ops}) (tally more less ops.reverse).toNat := by
  have hbound := (toNat_tally_reverse_le_iff hne hroom).1 (Nat.le_refl _)
  constructor
  · cases htally : (tally more less ops.reverse).toNat with
    | zero => exact ⟨[], List.nil_suffix, by simp [excess]⟩
    | succ k =>
      -- One less is no bound, so some end of the list exceeds it, and then it is met there.
      have hmet : ¬ ∀ last, last <:+ ops → last.count more ≤ last.count less + k := by
        rw [← toNat_tally_reverse_le_iff hne hroom, htally]
        omega
      obtain ⟨last, hlast, hlt⟩ : ∃ last, last <:+ ops ∧
          last.count less + k < last.count more := by simpa using hmet
      have hle := hbound last hlast
      exact ⟨last, hlast, by rw [excess]; omega⟩
  · rintro _ ⟨last, hlast, rfl⟩
    have hle := hbound last hlast
    rw [excess]
    omega

/-- What the ends of a list say about an excess, the beginnings say about the opposite one: an end
and the beginning in front of it differ by the excess of the whole list. -/
theorem isGreatest_excess_beginnings {n : Int}
    (h : IsGreatest (excess more less '' {last | last <:+ ops}) n) :
    IsGreatest (excess less more '' {first | first <+: ops}) (n + excess less more ops) := by
  obtain ⟨⟨last, ⟨first, hops⟩, hlast⟩, hbound⟩ := h
  constructor
  · refine ⟨first, ⟨last, hops⟩, ?_⟩
    rw [← hops, excess_append, excess_swap more less last, hlast]
    omega
  · rintro _ ⟨first, ⟨last, rfl⟩, rfl⟩
    have hle := hbound ⟨last, ⟨first, rfl⟩, rfl⟩
    rw [excess_append, excess_swap more less last]
    omega

end ShellLexing.Count
