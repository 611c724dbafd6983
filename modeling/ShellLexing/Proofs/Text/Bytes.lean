import Mathlib.Data.List.Basic
import ShellLexing.Delimiter.ByteScan

/-!
# The bytes of a text

What can be seen of a text by looking at single bytes of its encoding? An ASCII character is one
byte, and this byte occurs in the encoding of no other character (`toUInt8_mem_utf8EncodeChar_iff`),
since all bytes of a longer encoding are greater. So a look at the byte where a character begins or
ends shows whether it is a given ASCII character (`Shows`), although it may not show which other one
it is.

The bytes that are looked at stand next to a split of the text: `exists_byte_behind` and
`exists_byte_before` find them and say what they show.
-/

namespace ShellLexing.Text

/-! ## Encodings -/

theorem bytes_append (s t : Text) : bytes (s ++ t) = s.bytes ++ t.bytes := List.flatMap_append

theorem bytes_cons (c : Char) (t : Text) :
    bytes (c :: t) = String.utf8EncodeChar c ++ t.bytes := rfl

@[simp] theorem length_bytes (t : Text) : t.bytes.length = t.size := by
  induction t with
  | nil => rfl
  | cons c t ih => rw [bytes_cons, List.length_append, ih, String.length_utf8EncodeChar, size_cons]

/-! ## ASCII characters -/

theorem val_toNat_lt {a : Char} (ha : a.utf8Size = 1) : a.val.toNat < 0x80 :=
  Nat.lt_succ_of_le (UInt32.le_iff_toNat_le.1 (Char.utf8Size_eq_one_iff.1 ha))

theorem toNat_toUInt8 {a : Char} (ha : a.utf8Size = 1) : a.toUInt8.toNat = a.val.toNat := by
  rw [← Char.toUInt8_val, UInt32.toNat_toUInt8]
  exact Nat.mod_eq_of_lt (Nat.lt_trans (val_toNat_lt ha) (by decide))

theorem toUInt8_lt {a : Char} (ha : a.utf8Size = 1) : a.toUInt8 < 0x80 := by
  rw [UInt8.lt_iff_toNat_lt, toNat_toUInt8 ha]
  exact val_toNat_lt ha

theorem toUInt8_injective {a c : Char} (ha : a.utf8Size = 1) (hc : c.utf8Size = 1)
    (h : a.toUInt8 = c.toUInt8) : a = c := by
  have hval := congrArg UInt8.toNat h
  rw [toNat_toUInt8 ha, toNat_toUInt8 hc] at hval
  exact Char.ext (UInt32.toNat_inj.1 hval)

theorem le_of_mem_utf8EncodeChar {c : Char} {b : UInt8} (hc : c.utf8Size ≠ 1)
    (hb : b ∈ String.utf8EncodeChar c) : 0x80 ≤ b := by
  have hor : ∀ x k : UInt8, 0x80 ≤ k → 0x80 ≤ x ||| k := fun x k hk =>
    UInt8.le_trans hk UInt8.right_le_or
  obtain h | h | h | h := Char.utf8Size_eq c
  · exact absurd h hc
  · rw [String.utf8EncodeChar_eq_cons_cons h] at hb
    simp only [List.mem_cons, List.not_mem_nil, or_false] at hb
    rcases hb with rfl | rfl
    all_goals exact hor _ _ (by decide)
  · rw [String.utf8EncodeChar_eq_cons_cons_cons h] at hb
    simp only [List.mem_cons, List.not_mem_nil, or_false] at hb
    rcases hb with rfl | rfl | rfl
    all_goals exact hor _ _ (by decide)
  · rw [String.utf8EncodeChar_eq_cons_cons_cons_cons h] at hb
    simp only [List.mem_cons, List.not_mem_nil, or_false] at hb
    rcases hb with rfl | rfl | rfl | rfl
    all_goals exact hor _ _ (by decide)

theorem utf8EncodeChar_of_ascii {a : Char} (ha : a.utf8Size = 1) :
    String.utf8EncodeChar a = [a.toUInt8] :=
  String.utf8EncodeChar_eq_singleton ha

/-- The byte of an ASCII character is in the encoding of this character only. -/
theorem toUInt8_mem_utf8EncodeChar_iff {a c : Char} (ha : a.utf8Size = 1) :
    a.toUInt8 ∈ String.utf8EncodeChar c ↔ c = a := by
  constructor
  · intro h
    by_cases hc : c.utf8Size = 1
    · rw [utf8EncodeChar_of_ascii hc, List.mem_singleton] at h
      exact (toUInt8_injective ha hc h).symm
    · exact absurd (toUInt8_lt ha) (UInt8.not_lt.2 (le_of_mem_utf8EncodeChar hc h))
  · rintro rfl
    rw [utf8EncodeChar_of_ascii ha]
    exact List.mem_singleton_self _

/-! ## Looking at a byte -/

/-- The byte is that of an ASCII character exactly if the character is the given one. -/
def Shows (b : UInt8) (c? : Option Char) : Prop :=
  ∀ a : Char, a.utf8Size = 1 → (b = a.toUInt8 ↔ c? = some a)

/-- Of a character, any byte shows it that is its only byte if it is ASCII. -/
theorem shows_of_mem {b : UInt8} {c : Char} (hb : b ∈ String.utf8EncodeChar c) :
    Shows b (some c) := by
  intro a ha
  rw [Option.some.injEq]
  constructor
  · rintro rfl
    exact (toUInt8_mem_utf8EncodeChar_iff ha).1 hb
  · rintro rfl
    rw [utf8EncodeChar_of_ascii ha] at hb
    exact List.mem_singleton.1 hb

theorem exists_byte_behind (front : Text) {t : Text} (h : t ≠ []) :
    ∃ b, (bytes (front ++ t))[front.size]? = some b ∧ Shows b t.head? := by
  obtain ⟨c, r, rfl⟩ := List.exists_cons_of_ne_nil h
  obtain ⟨b, rest, hc⟩ := List.exists_cons_of_ne_nil (String.utf8EncodeChar_ne_nil (c := c))
  refine ⟨b, ?_, shows_of_mem (hc ▸ List.mem_cons_self)⟩
  rw [bytes_append, ← length_bytes front, List.getElem?_append_right (Nat.le_refl _), Nat.sub_self,
    bytes_cons, hc]
  rfl

/-- The byte behind an ASCII character is the first one of what follows. -/
theorem exists_byte_after (front : Text) {a : Char} (ha : a.utf8Size = 1) {t : Text} (h : t ≠ []) :
    ∃ b, (bytes (front ++ a :: t))[front.size + 1]? = some b ∧ Shows b t.head? := by
  have hsize : size (front ++ [a]) = front.size + 1 := by
    rw [size_append, size_cons, ha, size_nil]
  have hbyte := exists_byte_behind (front ++ [a]) h
  rwa [hsize, ← List.append_cons] at hbyte

/-- Before the end part of a text stands the last byte of what is in front of it. -/
theorem exists_byte_before {t : Text} (h : t ≠ []) (rest : Text) :
    ∃ b, (bytes (t ++ rest))[t.size - 1]? = some b ∧ Shows b t.getLast? := by
  rcases List.eq_nil_or_concat t with rfl | ⟨s, c, rfl⟩
  · exact absurd rfl h
  · rw [List.concat_eq_append, List.getLast?_concat]
    rcases List.eq_nil_or_concat (String.utf8EncodeChar c) with hnil | ⟨init, b, hc⟩
    · exact absurd hnil String.utf8EncodeChar_ne_nil
    · rw [List.concat_eq_append] at hc
      have hsize : size (s ++ [c]) - 1 = (bytes s ++ init).length := by
        have hlen := String.length_utf8EncodeChar c
        rw [hc, List.length_append, List.length_singleton] at hlen
        rw [size_append, size_cons, size_nil, List.length_append, length_bytes]
        omega
      have hbytes : bytes (s ++ [c] ++ rest) = bytes s ++ init ++ b :: rest.bytes := by
        rw [bytes_append, bytes_append, bytes_cons, hc]
        simp [bytes]
      refine ⟨b, ?_, shows_of_mem (hc ▸ List.mem_append_right init (List.mem_singleton_self b))⟩
      rw [hsize, hbytes, List.getElem?_append_right (Nat.le_refl _), Nat.sub_self]
      rfl

end ShellLexing.Text
