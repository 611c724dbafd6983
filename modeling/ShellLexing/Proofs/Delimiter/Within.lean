import ShellLexing.Proofs.Delimiter.ByteScan
import ShellLexing.Proofs.Delimiter.Rename

/-!
# The span of a word lies within it

The offsets of a span are computed from sizes, and the two ends are computed apart from one another.
This file says that they are nevertheless good offsets into the word, also where the span covers
nothing.

**Theorem (`span_safe`).** For every word:

* The scan of the bytes that computes the span has a result (`scan?_bytes`).
* Both ends lie in the word, and between two of its characters (`within_span`). The beginning can
  lie behind the end, but by one byte at most.
* So a usable span always cuts the word, and `marker` and `rename` give the pieces that are cut.
  What they give in place of a cut is for words whose span is not usable, and for no others.

Each end stands next to something that was passed or kept as a whole. What is passed in front is
tabs and a dollar sign, so it does not end in a newline and is not dropped behind; this is why the
two ends cannot go past each other (`size_le_size_trimEnd`).
-/

namespace ShellLexing

open Text (newlines)

/-- The offset falls between two characters of a text, or at one of its ends. -/
def Text.Boundary (t : Text) (n : Nat) : Prop :=
  ∃ before after, t = before ++ after ∧ before.size = n

/-- The ends of a span lie in a text and between characters, and not more than one byte the wrong
way round. -/
structure ByteSpan.Within (s : ByteSpan) (t : Text) : Prop where
  start_le : s.start ≤ t.size
  stop_le : s.stop ≤ t.size
  start_boundary : t.Boundary s.start
  stop_boundary : t.Boundary s.stop
  start_le_stop : s.start ≤ s.stop + 1

theorem Text.Boundary.le {t : Text} {n : Nat} (h : t.Boundary n) : n ≤ t.size := by
  obtain ⟨before, after, rfl, rfl⟩ := h
  rw [Text.size_append]
  exact Nat.le_add_right _ _

theorem Text.boundary_zero (t : Text) : t.Boundary 0 := ⟨[], t, rfl, rfl⟩

theorem Text.boundary_size (t : Text) : t.Boundary t.size := ⟨t, [], (List.append_nil t).symm, rfl⟩

theorem ByteSpan.Within.of_boundaries {s : ByteSpan} {t : Text} (hstart : t.Boundary s.start)
    (hstop : t.Boundary s.stop) (h : s.start ≤ s.stop + 1) : s.Within t :=
  ⟨hstart.le, hstop.le, hstart, hstop, h⟩

namespace Delimiter

variable {tabs : Bool} {raw : Text}

theorem within_of_framed (h : Framed tabs raw) : (bareSpan raw tabs).Within raw := by
  obtain ⟨q, r, kept, hr, hkept⟩ := h.exists_quote
  obtain ⟨front, hfront, -⟩ := exists_append_remainder tabs raw
  obtain ⟨k, hk⟩ := exists_trimEnd_append raw
  have hopen : raw = front ++ [q.char] ++ r := by
    rw [← List.append_cons, ← hr]
    exact hfront
  have hclose : raw = kept ++ q.char :: newlines k := by
    rw [List.append_cons, ← hkept]
    exact hk
  have hstart : Text.size (front ++ [q.char]) = skipped tabs raw + 1 := by
    rw [Text.size_append, size_of_append_remainder hfront, Text.size_cons, q.utf8Size_char,
      Text.size_nil]
  have hstop : (trimEnd raw).size = kept.size + 1 := by
    rw [hkept, Text.size_append, Text.size_cons, q.utf8Size_char, Text.size_nil]
  have hle : Text.size (front ++ [q.char]) ≤ (trimEnd raw).size := by
    have hlast : (front ++ [q.char]).getLast? ≠ some '\n' := by
      rw [List.getLast?_concat]
      exact fun h => Quote.char_ne (by decide) (Option.some.inj h)
    have hkeep := size_le_size_trimEnd hlast r
    rwa [← hopen] at hkeep
  rw [bareSpan_of_framed h, hstop, Nat.add_sub_cancel]
  exact .of_boundaries ⟨_, r, hopen, hstart⟩ ⟨kept, _, hclose, rfl⟩ (by rwa [hstart, hstop] at hle)

theorem within_of_not_framed (h : ¬ Framed tabs raw) : (bareSpan raw tabs).Within raw := by
  obtain ⟨front, hfront, hskipped⟩ := exists_skipped_append_remainder tabs raw
  obtain ⟨k, hk⟩ := exists_trimEnd_append raw
  have hstart := size_of_append_remainder hfront
  have hlast : front.getLast? ≠ some '\n' := by
    intro hlast
    rcases hskipped _ (List.mem_of_getLast? hlast) with htab | hdollar
    · exact absurd htab (by decide)
    · exact absurd hdollar (by decide)
  have hle := size_le_size_trimEnd hlast (remainder tabs raw)
  rw [← hfront, hstart] at hle
  rw [bareSpan_of_not_framed h]
  exact .of_boundaries ⟨front, _, hfront, hstart⟩ ⟨trimEnd raw, _, hk, rfl⟩ (Nat.le_succ_of_le hle)

/-- **Both ends are good offsets.** The ends of the span lie in the word and between its characters,
and the beginning is at most one byte behind the end. -/
theorem within_span (raw : Text) (tabs : Bool) : (span raw tabs).Within raw := by
  by_cases hesc : Escaped raw
  · obtain ⟨w, hw, rfl⟩ := hesc
    rw [span_escaped hw]
    refine .of_boundaries ⟨['\\'], w, rfl, rfl⟩ (Text.boundary_size _) ?_
    exact Nat.le_add_left _ _
  · rcases raw with _ | ⟨c, _ | ⟨d, r⟩⟩
    · exact .of_boundaries (Text.boundary_zero _) (Text.boundary_zero _) (Nat.zero_le _)
    · exact .of_boundaries (Text.boundary_zero _) (Text.boundary_size [c]) (Nat.zero_le _)
    · rw [span_eq_bareSpan (by simp) hesc]
      by_cases hframed : Framed tabs (c :: d :: r)
      · exact within_of_framed hframed
      · exact within_of_not_framed hframed

/-- Of a lone quote the beginning is one byte behind the end. -/
example : span ['\'', '\n'] false = ⟨1, 0⟩ := by decide

/-- **The span is safe.** Its computation from the bytes of the word asks for no byte that does not
exist and takes nothing from an offset that is not there. The ends of the span lie in the word and
between its characters. So a usable span cuts the word, and `marker` and `rename` answer with the
pieces. -/
theorem span_safe (raw : Text) (tabs : Bool) :
    scan? raw.bytes tabs = some (span raw tabs) ∧
    (span raw tabs).Within raw ∧
    ((span raw.dropNewline tabs).Usable raw.dropNewline →
      ∃ c, (span raw.dropNewline tabs).cut? raw.dropNewline = some c ∧ marker raw tabs = c.inside) ∧
    ((span raw true).Usable raw →
      ∃ c, (span raw true).cut? raw = some c ∧
        ∀ name, rename raw name = c.before ++ name ++ c.after) := by
  refine ⟨scan?_bytes raw tabs, within_span raw tabs, fun husable => ?_, fun husable => ?_⟩
  · obtain ⟨c, hcut⟩ := exists_cut?_iff.2 husable.1
    exact ⟨c, hcut, marker_of_cut? rfl hcut⟩
  · obtain ⟨c, hcut⟩ := exists_cut?_iff.2 husable.1
    exact ⟨c, hcut, rename_of_cut? hcut⟩

/-- A word of three characters that are more than one byte long, with decoration of all kinds. -/
theorem span_safe_decorated :
    let raw : Text := ['\t', '$', '"', 'é', '€', '😀', '"', '\n']
    scan? raw.bytes true = some ⟨3, 12⟩ ∧
      (span raw.dropNewline true).Usable raw.dropNewline ∧ (span raw true).Usable raw ∧
      (∃ c, (span raw.dropNewline true).cut? raw.dropNewline = some c ∧
        marker raw true = c.inside) ∧
      ∃ c, (span raw true).cut? raw = some c ∧
        ∀ name, rename raw name = c.before ++ name ++ c.after := by
  intro raw
  obtain ⟨hscan, -, hmarker, hrename⟩ := span_safe raw true
  have hspan : span raw true = ⟨3, 12⟩ := by decide
  have hmarked : (span raw.dropNewline true).Usable raw.dropNewline := by decide
  have hrenamed : (span raw true).Usable raw := by decide
  exact ⟨hspan ▸ hscan, hmarked, hrenamed, hmarker hmarked, hrename hrenamed⟩

end Delimiter

end ShellLexing
