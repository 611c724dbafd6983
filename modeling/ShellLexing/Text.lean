/-!
# Text

A piece of shell script is the list of its characters, so that every scan is a recursion on the
list. Positions are counted in bytes of the UTF-8 encoding: `Text.size` measures a text, and
`Text.splitAt?` cuts one at a byte offset, refusing an offset that lies inside a character or
behind the end. `size_eq_utf8ByteSize` says that the measure is the size of the encoded string.

The cut is the inverse of appending: `splitAt?_append` says that `a ++ b` is cut at `a.size`
into `a` and `b`, and `append_of_splitAt?` that a cut never loses or adds a character.
-/

namespace ShellLexing

/-- A piece of script, character by character. -/
abbrev Text := List Char

namespace Text

/-! ## Size and cuts -/

/-- The number of bytes in the UTF-8 encoding of a text. -/
def size : Text → Nat
  | [] => 0
  | c :: t => c.utf8Size + size t

/-- The two pieces of a text around the byte offset `n`, if a character starts or the text ends
there. -/
def splitAt? : Text → Nat → Option (Text × Text)
  | t, 0 => some ([], t)
  | [], _ + 1 => none
  | c :: t, n + 1 =>
    if c.utf8Size ≤ n + 1 then
      (splitAt? t (n + 1 - c.utf8Size)).map fun (before, after) => (c :: before, after)
    else
      none

@[simp] theorem size_nil : size [] = 0 := rfl

@[simp] theorem size_cons (c : Char) (t : Text) : size (c :: t) = c.utf8Size + size t := rfl

@[simp] theorem size_append (a b : Text) : size (a ++ b) = size a + size b := by
  induction a with
  | nil => simp
  | cons c a ih => simp [ih, Nat.add_assoc]

@[simp] theorem size_reverse (t : Text) : size t.reverse = size t := by
  induction t with
  | nil => rfl
  | cons c t ih => simp [ih, Nat.add_comm]

theorem size_pos {t : Text} (h : t ≠ []) : 0 < size t := by
  cases t with
  | nil => exact absurd rfl h
  | cons c t =>
    have := c.utf8Size_pos
    simp only [size_cons]
    omega

/-- The size of a text is the size of the string with the same characters. -/
theorem size_eq_utf8ByteSize (t : Text) : size t = (String.ofList t).utf8ByteSize := by
  induction t with
  | nil => simp [String.ofList_nil]
  | cons c t ih =>
    rw [show c :: t = [c] ++ t from rfl, String.ofList_append, String.utf8ByteSize_append,
      ← String.singleton_eq_ofList, String.utf8ByteSize_singleton, ← ih, size_append]
    simp

@[simp] theorem splitAt?_zero (t : Text) : splitAt? t 0 = some ([], t) := by
  cases t <;> rfl

theorem splitAt?_append (a b : Text) : splitAt? (a ++ b) (size a) = some (a, b) := by
  induction a with
  | nil => simp
  | cons c a ih =>
    obtain ⟨k, hk⟩ : ∃ k, c.utf8Size = k + 1 := ⟨c.utf8Size - 1, by have := c.utf8Size_pos; omega⟩
    have hs : size (c :: a) = (k + size a) + 1 := by simp only [size_cons, hk]; omega
    rw [hs, List.cons_append, splitAt?, if_pos (by omega), hk,
      show k + size a + 1 - (k + 1) = size a by omega, ih]
    rfl

theorem append_of_splitAt? {t before after : Text} {n : Nat}
    (h : splitAt? t n = some (before, after)) : before ++ after = t ∧ size before = n := by
  induction t generalizing n before after with
  | nil => cases n <;> simp_all [splitAt?]
  | cons c t ih =>
    cases n with
    | zero => simp_all [splitAt?]
    | succ n =>
      rw [splitAt?] at h
      split at h
      · obtain ⟨⟨b, a⟩, hba, heq⟩ := Option.map_eq_some_iff.1 h
        obtain ⟨rfl, rfl⟩ := Prod.mk.inj heq
        obtain ⟨rfl, hsize⟩ := ih hba
        exact ⟨rfl, by simp only [size_cons, hsize]; omega⟩
      · simp at h

/-! ## Newlines and lines -/

/-- A text without its final newline, if it ends in one. -/
def dropNewline (t : Text) : Text :=
  if t.getLast? = some '\n' then t.dropLast else t

/-- A text without any of its final newlines. -/
def dropNewlines (t : Text) : Text :=
  (t.reverse.dropWhile (· = '\n')).reverse

/-- The lines of a text, each with the newline that ends it; the last may end without one. -/
def lines : Text → List Text
  | [] => []
  | c :: t =>
    if c = '\n' then
      [c] :: lines t
    else
      match lines t with
      | [] => [[c]]
      | l :: ls => (c :: l) :: ls

theorem flatten_lines (t : Text) : (lines t).flatten = t := by
  induction t with
  | nil => rfl
  | cons c t ih =>
    rw [lines]
    split
    · simp [ih]
    · cases h : lines t with
      | nil => simp_all
      | cons l ls => simp_all

end Text

end ShellLexing
