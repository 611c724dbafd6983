import ShellLexing.Text

/-!
# Byte spans

A `ByteSpan` names a stretch of a text by two byte offsets. Nothing forces `start ≤ stop`: a span
that was computed from overlapping decoration may be empty or inverted, and such a span covers
nothing. `ByteSpan.cut?` is the only way from a span back to characters. It gives the three pieces
of the text around the span, and refuses a span that covers nothing, that reaches behind the end,
or that begins or ends inside a character.
-/

namespace ShellLexing

/-- The bytes from `start` up to, but not including, `stop`. -/
structure ByteSpan where
  /-- The offset of the first byte of the span. -/
  start : Nat
  /-- The offset of the first byte behind the span. -/
  stop : Nat
deriving DecidableEq

/-- A text taken apart at a span. -/
structure Cut where
  before : Text
  inside : Text
  after : Text
deriving DecidableEq

namespace Cut

/-- The text that was taken apart. -/
def whole (c : Cut) : Text := c.before ++ c.inside ++ c.after

end Cut

namespace ByteSpan

/-- A span is usable in a text when it covers at least one byte and ends within the text. -/
def Usable (s : ByteSpan) (t : Text) : Prop := s.start < s.stop ∧ s.stop ≤ t.size

instance (s : ByteSpan) (t : Text) : Decidable (s.Usable t) :=
  inferInstanceAs (Decidable (_ ∧ _))

/-- The pieces of `t` around a usable span whose ends both fall between characters. -/
def cut? (s : ByteSpan) (t : Text) : Option Cut :=
  if s.Usable t then
    match t.splitAt? s.stop with
    | some (upto, after) =>
      (upto.splitAt? s.start).map fun (before, inside) => ⟨before, inside, after⟩
    | none => none
  else
    none

/-- A cut loses and adds nothing, and its pieces have the sizes that the span tells. -/
theorem whole_of_cut? {s : ByteSpan} {t : Text} {c : Cut} (h : s.cut? t = some c) :
    c.whole = t ∧ c.before.size = s.start ∧ c.before.size + c.inside.size = s.stop := by
  unfold cut? at h
  split at h
  · split at h
    · next upto after hstop =>
      obtain ⟨⟨before, inside⟩, hstart, rfl⟩ := Option.map_eq_some_iff.1 h
      obtain ⟨rfl, hs⟩ := Text.append_of_splitAt? hstop
      obtain ⟨rfl, hb⟩ := Text.append_of_splitAt? hstart
      exact ⟨rfl, hb, by rw [← hs, Text.size_append]⟩
    · simp at h
  · simp at h

theorem cut?_eq_none_of_le {s : ByteSpan} (h : s.stop ≤ s.start) (t : Text) : s.cut? t = none := by
  rw [cut?, if_neg]
  exact fun hu => Nat.not_lt.2 h hu.1

theorem inside_ne_nil_of_cut? {s : ByteSpan} {t : Text} {c : Cut} (h : s.cut? t = some c) :
    c.inside ≠ [] := by
  intro hnil
  obtain ⟨-, hstart, hstop⟩ := whole_of_cut? h
  rw [hnil, Text.size_nil, Nat.add_zero, hstart] at hstop
  rw [cut?_eq_none_of_le (Nat.le_of_eq hstop.symm)] at h
  cases h

/-- The span between two pieces cuts them apart again, provided that it covers something. -/
theorem cut?_append (before inside after : Text) (h : inside ≠ []) :
    cut? ⟨before.size, before.size + inside.size⟩ (before ++ inside ++ after) =
      some ⟨before, inside, after⟩ := by
  have hpos : 0 < inside.size := Text.size_pos h
  have hu : Usable ⟨before.size, before.size + inside.size⟩ (before ++ inside ++ after) := by
    simp only [Usable, Text.size_append]
    omega
  have hstop : Text.splitAt? (before ++ inside ++ after) (before.size + inside.size) =
      some (before ++ inside, after) := by
    rw [← Text.size_append]
    exact Text.splitAt?_append _ _
  simp only [cut?, if_pos hu, hstop, Text.splitAt?_append, Option.map_some]

end ByteSpan

end ShellLexing
