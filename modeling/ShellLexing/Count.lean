/-!
# Counts of open constructs

How many parentheses or quotes are open is counted in 32 bits. A count that has reached the limit
stays there, and nothing can be taken from a count of zero.
-/

namespace ShellLexing

def Count.limit : Nat := 0xFFFFFFFF

/-- A number of open constructs that fits into 32 bits. -/
structure Count where
  toNat : Nat
  toNat_le : toNat ≤ Count.limit
deriving DecidableEq

namespace Count

def zero : Count := ⟨0, Nat.zero_le _⟩

instance : Inhabited Count := ⟨zero⟩

/-- One more, as far as the limit. -/
def succ (c : Count) : Count := ⟨min (c.toNat + 1) limit, Nat.min_le_right ..⟩

/-- One less, unless nothing is open. -/
def pred? (c : Count) : Option Count :=
  match c with
  | ⟨0, _⟩ => none
  | ⟨n + 1, h⟩ => some ⟨n, by omega⟩

@[simp] theorem toNat_zero : zero.toNat = 0 := rfl

@[ext] theorem ext {a b : Count} (h : a.toNat = b.toNat) : a = b := by
  cases a; cases b; simp_all

theorem toNat_succ {c : Count} (h : c.toNat < limit) : c.succ.toNat = c.toNat + 1 :=
  Nat.min_eq_left h

theorem pred?_eq_none_iff {c : Count} : c.pred? = none ↔ c.toNat = 0 := by
  obtain ⟨_ | n, h⟩ := c <;> simp [pred?]

theorem pred?_eq_some_iff {c d : Count} : c.pred? = some d ↔ c.toNat = d.toNat + 1 := by
  obtain ⟨_ | n, h⟩ := c
  · simp [pred?]
  · simp only [pred?, Option.some.injEq, Nat.add_right_cancel_iff]
    exact ⟨fun e => e ▸ rfl, fun e => Count.ext e⟩

end Count

end ShellLexing
