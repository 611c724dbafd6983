import ShellLexing.Proofs.Delimiter.Front

/-!
# The two ends of a marker

`startOffset` and `stopOffset` give the ends of a marker one at a time. The first can be asked to
skip tabs, the second cannot. So it has to be said when the two of them belong together.

**Main result** (`offsets_eq`). The two of them are the ends of the span that skips tabs, with one
exception. Where a word begins with a tab, and the scan that skips tabs finds the marker in quotes
(`QuoteInFront`), the closing quote belongs to the marker for the scan that does not. This is
because that scan meets a tab, where it would have to meet the opening quote.
-/

namespace ShellLexing.Delimiter

/-- A quote stands directly in front of the span that skips tabs. -/
def QuoteInFront (raw : Text) : Prop :=
  ((raw.splitAt? (span raw true).start).bind (·.1.getLast?)).any isQuote = true

instance (raw : Text) : Decidable (QuoteInFront raw) := inferInstanceAs (Decidable (_ = _))

theorem quoteInFront_iff_of_append {raw before after : Text} (hraw : raw = before ++ after)
    (hsize : before.size = (span raw true).start) :
    QuoteInFront raw ↔ before.getLast?.any isQuote = true := by
  have hsplit : raw.splitAt? (span raw true).start = some (before, after) := by
    rw [← hsize]
    conv_lhs => rw [hraw]
    exact Text.splitAt?_append before after
  rw [QuoteInFront, hsplit]
  rfl

/-! ## Words without a tab in front -/

theorem span_eq_of_head?_ne {raw : Text} (h : raw.head? ≠ some '\t') :
    span raw true = span raw false := by
  have hbare : bareSpan raw true = bareSpan raw false := by
    unfold bareSpan
    rw [if_pos rfl, skipTabs_of_head?_ne h]
    rfl
  unfold span
  split
  · rfl
  · rfl
  · rfl
  · exact hbare

/-! ## Words with a tab in front -/

variable {t : Text}

theorem remainder_false_tab (t : Text) : remainder false ('\t' :: t) = '\t' :: t :=
  if_neg fun h => absurd h.1 (by simp [untabbed])

theorem bareSpan_false_tab (t : Text) :
    bareSpan ('\t' :: t) false = ⟨0, (trimEnd ('\t' :: t)).size⟩ := by
  have hframed : ¬ Framed false ('\t' :: t) :=
    not_framed_of_head? (by rw [remainder_false_tab, List.head?_cons]) rfl
  rw [bareSpan_of_not_framed hframed, skipped, remainder_false_tab, Nat.sub_self]

theorem span_tab_eq_bareSpan (ht : t ≠ []) (tabs : Bool) :
    span ('\t' :: t) tabs = bareSpan ('\t' :: t) tabs := by
  have hlen := List.length_pos_iff.2 ht
  refine span_eq_bareSpan ?_ (not_escaped_of_head?_ne (by simp)) tabs
  rw [List.length_cons]
  omega

/-- The scan that skips tabs finds quotes around the marker exactly where a quote stands in front of
its span. -/
theorem quoteInFront_tab_iff (ht : t ≠ []) :
    QuoteInFront ('\t' :: t) ↔ Framed true ('\t' :: t) := by
  obtain ⟨front, hfront, hlast⟩ := exists_append_remainder true ('\t' :: t)
  have hsize := size_of_append_remainder hfront
  by_cases hframed : Framed true ('\t' :: t)
  · refine iff_of_true ?_ hframed
    obtain ⟨q, r, -, hrem, -⟩ := hframed.exists_quote
    have hquoted : '\t' :: t = front ++ [q.char] ++ r := by
      rw [List.append_assoc, List.singleton_append, ← hrem]
      exact hfront
    rw [quoteInFront_iff_of_append hquoted, List.getLast?_concat]
    · exact q.isQuote_char
    · rw [span_tab_eq_bareSpan ht, bareSpan_of_framed hframed, Text.size_append, hsize,
        Text.size_cons, Text.size_nil, q.utf8Size_char]
  · refine iff_of_false ?_ hframed
    rw [quoteInFront_iff_of_append hfront, hlast]
    · exact Bool.noConfusion
    · rw [span_tab_eq_bareSpan ht, bareSpan_of_not_framed hframed, hsize]

/-! ## The two ends together -/

theorem stopOffset_tab (t : Text) :
    stopOffset ('\t' :: t) =
      (span ('\t' :: t) true).stop + if QuoteInFront ('\t' :: t) then 1 else 0 := by
  by_cases ht : t = []
  · subst ht
    rfl
  · have hpos : 0 < (trimEnd ('\t' :: t)).size := Text.size_pos (List.cons_ne_nil _ _)
    rw [stopOffset, span_tab_eq_bareSpan ht, span_tab_eq_bareSpan ht, bareSpan_false_tab]
    by_cases hframed : Framed true ('\t' :: t)
    · rw [bareSpan_of_framed hframed, if_pos ((quoteInFront_tab_iff ht).2 hframed)]
      exact (Nat.sub_add_cancel hpos).symm
    · rw [bareSpan_of_not_framed hframed, if_neg fun h => hframed ((quoteInFront_tab_iff ht).1 h)]
      rfl

theorem startOffset_tab (t : Text) : startOffset ('\t' :: t) false = 0 := by
  by_cases ht : t = []
  · subst ht
    rfl
  · rw [startOffset, span_tab_eq_bareSpan ht, bareSpan_false_tab]

/-- **The two ends of a marker.** The beginning is that of the span that skips tabs, if it is asked
to skip them. The end is that of the same span, or it is greater by one: this is the case exactly
where the word begins with a tab and a quote stands in front of that span. If the beginning is not
asked to skip tabs, it is the same, except that a tab in front of the word is the beginning then. -/
theorem offsets_eq (raw : Text) :
    startOffset raw true = (span raw true).start ∧
    stopOffset raw =
      (span raw true).stop + (if raw.head? = some '\t' ∧ QuoteInFront raw then 1 else 0) ∧
    (raw.head? ≠ some '\t' → startOffset raw true = startOffset raw false) ∧
    (raw.head? = some '\t' → startOffset raw false = 0) := by
  by_cases hhead : raw.head? = some '\t'
  · obtain ⟨t, rfl⟩ := List.head?_eq_some_iff.1 hhead
    refine ⟨rfl, ?_, fun hne => absurd hhead hne, fun _ => startOffset_tab t⟩
    simp only [hhead, true_and]
    exact stopOffset_tab t
  · have hspan := span_eq_of_head?_ne hhead
    refine ⟨rfl, ?_, fun _ => congrArg ByteSpan.start hspan, fun htab => absurd htab hhead⟩
    rw [if_neg fun h => hhead h.1, hspan]
    rfl

/-- In `\t'é'` the marker begins behind the quote, and the closing quote is taken for a part of it.
Where no tab stands in front, the beginning is the same. -/
theorem offsets_eq_tab_quoted :
    startOffset ['\t', '\'', 'é', '\'', '\n'] true = 2 ∧
      startOffset ['\t', '\'', 'é', '\'', '\n'] false = 0 ∧
      (span ['\t', '\'', 'é', '\'', '\n'] true).stop = 4 ∧
      stopOffset ['\t', '\'', 'é', '\'', '\n'] = 5 ∧
      startOffset ['$', '"', 'A', '"'] true = startOffset ['$', '"', 'A', '"'] false ∧
      startOffset ['$', '"', 'A', '"'] true = 2 := by
  obtain ⟨hstart, hstop, -, hplain⟩ := offsets_eq ['\t', '\'', 'é', '\'', '\n']
  obtain ⟨hstart', -, hsame, -⟩ := offsets_eq ['$', '"', 'A', '"']
  refine ⟨hstart.trans (by decide), hplain rfl, by decide, hstop.trans ?_, hsame (by decide),
    hstart'.trans (by decide)⟩
  rw [if_pos (by decide)]
  decide

end ShellLexing.Delimiter
