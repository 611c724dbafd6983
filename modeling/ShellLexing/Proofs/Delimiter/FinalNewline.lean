import Mathlib.Data.List.TakeWhile
import ShellLexing.Proofs.Delimiter.Front

/-!
# A newline behind a delimiter word

The marker is read off a word without its final newline, but the span may be asked for with the
newline still there. This file says when that makes a difference.

The newlines behind a word are skipped, so a newline more or less does not move the end of the span
(`trimEnd_concat_newline`). But it can move the beginning: it is one character more, and it takes
the place of the last character.

* A dollar sign goes only if two characters follow, and a single quote is looked for at the very end
  of the word. So the dollar sign can be kept with the newline and go without it, or the other way
  round (`Wavers`).
* Of a word of tabs the last tab is kept, or the newline behind it.

Besides there are the empty word, a lone quote, and the words behind a backslash, where a newline
belongs to the marker.

**Main result** (`span_concat_newline_ne_iff`). These are all cases.
-/

namespace ShellLexing.Delimiter

/-! ## A dollar sign that wavers -/

/-- The word is a dollar sign and a double quote, or a dollar sign in front of something else and
with a single quote at the end. A newline behind the word decides whether the dollar sign goes. -/
def Wavers (word : Text) : Prop :=
  word = ['$', '"'] ∨
    word.head? = some '$' ∧ 3 ≤ word.size ∧ word[1]? ≠ some '"' ∧ word.getLast? = some '\''

/-- Behind a newline no single quote is the last character. -/
theorem introduces_concat_newline {word : Text} :
    Introduces (word ++ ['\n']) ↔ word.head? = some '$' ∧ word[1]? = some '"' := by
  by_cases hhead : word.head? = some '$'
  · obtain ⟨t, rfl⟩ := List.head?_eq_some_iff.1 hhead
    cases t with
    | nil => exact iff_of_false (by decide) (by decide)
    | cons c t =>
      rw [List.cons_append, List.cons_append, introduces_dollar_cons]
      simp
  · refine iff_of_false (fun h => ?_) (fun h => hhead h.1)
    cases word with
    | nil => exact absurd h.1 (by decide)
    | cons c t => exact hhead h.1

theorem eq_dollar_double_iff {word : Text} :
    word = ['$', '"'] ↔ (word.head? = some '$' ∧ word[1]? = some '"') ∧ ¬ Introduces word := by
  constructor
  · intro h
    subst h
    decide
  · intro h
    obtain ⟨⟨hhead, hnext⟩, hkept⟩ := h
    obtain ⟨t, rfl⟩ := List.head?_eq_some_iff.1 hhead
    cases t with
    | nil => simp at hnext
    | cons c t =>
      obtain rfl : c = '"' := by simpa using hnext
      rw [introduces_dollar_cons, not_and, imp_not_comm] at hkept
      rw [not_not.1 (hkept (Or.inl rfl))]

theorem wavers_iff {word : Text} :
    Wavers word ↔ ¬ (Introduces (word ++ ['\n']) ↔ Introduces word) := by
  have hnext : Introduces word ∧ word[1]? ≠ some '"' ↔
      word.head? = some '$' ∧ 3 ≤ word.size ∧ word[1]? ≠ some '"' ∧ word.getLast? = some '\'' := by
    unfold Introduces
    tauto
  have hhead : Introduces word → word.head? = some '$' := And.left
  rw [Wavers, ← hnext, eq_dollar_double_iff, introduces_concat_newline]
  tauto

/-! ## The newline and the scan from the front -/

variable {tabs : Bool} {raw : Text}

theorem untabbed_of_not_tabs (h : ¬ (tabs = true ∧ ∀ c ∈ raw, c = '\t')) :
    untabbed tabs raw = if tabs then raw.dropWhile (· = '\t') else raw := by
  cases tabs with
  | false => rfl
  | true =>
    rcases List.eq_nil_or_concat raw with rfl | ⟨t, c, rfl⟩
    · rfl
    · rw [List.concat_eq_append] at h ⊢
      rw [untabbed_concat, if_pos rfl, if_pos rfl, List.dropWhile_append]
      split
      · next hnil =>
        -- Only tabs stand in front of the last character, so it is no tab itself.
        rw [List.isEmpty_iff] at hnil
        have ht : ∀ d ∈ t, d = '\t' := by simpa using List.dropWhile_eq_nil_iff.1 hnil
        have hc : c ≠ '\t' := by
          intro hc
          refine h ⟨rfl, fun d hd => ?_⟩
          rcases List.mem_append.1 hd with hd | hd
          · exact ht d hd
          · rw [List.mem_singleton.1 hd, hc]
        rw [hnil, List.dropWhile_cons_of_neg (by simpa using hc)]
        rfl
      · rfl

/-! ## The span of longer words -/

theorem bareSpan_concat_newline_eq (hne : raw ≠ [])
    (h : remainder tabs (raw ++ ['\n']) = remainder tabs raw ++ ['\n']) :
    bareSpan (raw ++ ['\n']) tabs = bareSpan raw tabs := by
  have hhead : (remainder tabs (raw ++ ['\n'])).head? = (remainder tabs raw).head? := by
    rw [h, List.head?_append_of_ne_nil _ (remainder_ne_nil hne tabs)]
  have hskipped : skipped tabs (raw ++ ['\n']) = skipped tabs raw := by
    rw [skipped, skipped, h, Text.size_append, Text.size_append, Nat.add_sub_add_right]
  have hframed : Framed tabs (raw ++ ['\n']) ↔ Framed tabs raw := by
    rw [Framed, Framed, hhead, trimEnd_concat_newline hne]
  by_cases hf : Framed tabs raw
  · rw [bareSpan_of_framed hf, bareSpan_of_framed (hframed.2 hf), hskipped,
      trimEnd_concat_newline hne]
  · rw [bareSpan_of_not_framed hf, bareSpan_of_not_framed fun h' => hf (hframed.1 h'), hskipped,
      trimEnd_concat_newline hne]

/-- Of two words with the same number of bytes in tabs, the span begins later in the one whose
dollar sign goes. -/
theorem start_lt_of_introduces {kept gone : Text}
    (hsize : kept.size - (untabbed tabs kept).size = gone.size - (untabbed tabs gone).size)
    (hhead : (untabbed tabs kept).head? = some '$') (hkept : ¬ Introduces (untabbed tabs kept))
    (hgone : Introduces (untabbed tabs gone)) :
    (bareSpan kept tabs).start < (bareSpan gone tabs).start := by
  have hremainder : remainder tabs kept = untabbed tabs kept := if_neg hkept
  have hstart : (bareSpan kept tabs).start = skipped tabs kept :=
    start_eq_skipped (by rw [hremainder, hhead]) (by decide)
  calc (bareSpan kept tabs).start
    _ = gone.size - (untabbed tabs gone).size := by
      rw [hstart, skipped_eq, if_neg hkept, hsize, Nat.add_zero]
    _ < skipped tabs gone := by
      rw [skipped_eq, if_pos hgone]
      exact Nat.lt_succ_self _
    _ ≤ (bareSpan gone tabs).start := skipped_le_start tabs gone

theorem start_concat_newline_of_tabs (hne : raw ≠ []) (h : ∀ c ∈ raw, c = '\t') :
    (bareSpan (raw ++ ['\n']) true).start ≠ (bareSpan raw true).start := by
  have hdrop : ∀ t : Text, (∀ c ∈ t, c = '\t') → t.dropWhile (· = '\t') = [] := by
    intro t ht
    exact List.dropWhile_eq_nil_iff.2 fun c hc => decide_eq_true (ht c hc)
  -- The last tab is kept, or the newline where there is one behind it.
  have hnewline : remainder true (raw ++ ['\n']) = ['\n'] := by
    rw [remainder, untabbed_concat, if_pos rfl, hdrop raw h]
    rfl
  have htab : remainder true raw = ['\t'] := by
    rcases List.eq_nil_or_concat raw with rfl | ⟨t, c, rfl⟩
    · exact absurd rfl hne
    · rw [List.concat_eq_append] at h ⊢
      obtain rfl : c = '\t' := h c (by simp)
      rw [remainder, untabbed_concat, if_pos rfl,
        hdrop t fun d hd => h d (List.mem_append_left _ hd)]
      rfl
  have hpos : 0 < raw.size := Text.size_pos hne
  rw [start_eq_skipped (by rw [hnewline]; rfl) (by decide),
    start_eq_skipped (by rw [htab]; rfl) (by decide), skipped, skipped, hnewline, htab,
    Text.size_append]
  have hsize : Text.size ['\t'] = 1 ∧ Text.size ['\n'] = 1 := ⟨rfl, rfl⟩
  omega

theorem remainder_concat_newline (hne : raw ≠ [])
    (hlong : untabbed tabs (raw ++ ['\n']) = untabbed tabs raw ++ ['\n'])
    (hsteady : ¬ Wavers (untabbed tabs raw)) :
    remainder tabs (raw ++ ['\n']) = remainder tabs raw ++ ['\n'] := by
  have huntabbed : untabbed tabs raw ≠ [] := by
    intro hnil
    have hremainder := remainder_ne_nil hne tabs
    rw [remainder, hnil] at hremainder
    exact hremainder rfl
  rw [wavers_iff, not_not, ← hlong] at hsteady
  rw [remainder, remainder]
  by_cases hdollar : Introduces (untabbed tabs raw)
  · rw [if_pos hdollar, if_pos (hsteady.2 hdollar), hlong, List.tail_append_of_ne_nil huntabbed]
  · rw [if_neg hdollar, if_neg fun h => hdollar (hsteady.1 h), hlong]

theorem start_concat_newline_of_wavers
    (hlong : untabbed tabs (raw ++ ['\n']) = untabbed tabs raw ++ ['\n'])
    (hwavers : Wavers (untabbed tabs raw)) :
    (bareSpan (raw ++ ['\n']) tabs).start ≠ (bareSpan raw tabs).start := by
  have hsize : (raw ++ ['\n']).size - (untabbed tabs (raw ++ ['\n'])).size =
      raw.size - (untabbed tabs raw).size := by
    rw [hlong, Text.size_append, Text.size_append, Nat.add_sub_add_right]
  rw [wavers_iff, ← hlong] at hwavers
  by_cases hdollar : Introduces (untabbed tabs raw)
  · have hkept : ¬ Introduces (untabbed tabs (raw ++ ['\n'])) :=
      fun h => hwavers (iff_of_true h hdollar)
    have hhead : (untabbed tabs (raw ++ ['\n'])).head? = some '$' := by
      rw [hlong, List.head?_append, hdollar.1, Option.some_or]
    exact Nat.ne_of_lt (start_lt_of_introduces hsize hhead hkept hdollar)
  · have hgone : Introduces (untabbed tabs (raw ++ ['\n'])) :=
      by_contra fun h => hwavers (iff_of_false h hdollar)
    have hhead : (untabbed tabs raw).head? = some '$' :=
      (introduces_concat_newline.1 (hlong ▸ hgone)).1
    exact Nat.ne_of_gt (start_lt_of_introduces hsize.symm hhead hdollar hgone)

/-- Apart from words of tabs, the span moves exactly where the dollar sign wavers. -/
theorem bareSpan_concat_newline_ne_iff (hne : raw ≠ [])
    (h : ¬ (tabs = true ∧ ∀ c ∈ raw, c = '\t')) :
    bareSpan (raw ++ ['\n']) tabs ≠ bareSpan raw tabs ↔
      Wavers (if tabs then raw.dropWhile (· = '\t') else raw) := by
  have hlong : untabbed tabs (raw ++ ['\n']) = untabbed tabs raw ++ ['\n'] := by
    rw [untabbed_concat, untabbed_of_not_tabs h]
  rw [← untabbed_of_not_tabs h]
  constructor
  · intro hspan
    by_contra hsteady
    exact hspan (bareSpan_concat_newline_eq hne (remainder_concat_newline hne hlong hsteady))
  · intro hwavers hspan
    exact start_concat_newline_of_wavers hlong hwavers (congrArg ByteSpan.start hspan)

/-! ## The span of any word -/

theorem span_concat_newline_of_backslash (h : raw.head? = some '\\') (tabs : Bool) :
    span (raw ++ ['\n']) tabs ≠ span raw tabs := by
  obtain ⟨t, rfl⟩ := List.head?_eq_some_iff.1 h
  rw [List.cons_append, span_escaped (by simp)]
  cases t with
  | nil => simp [span]
  | cons c t =>
    rw [span_escaped (List.cons_ne_nil c t)]
    simpa using Nat.ne_of_gt '\n'.utf8Size_pos

/-- The words whose span is another one with a newline behind them. -/
def NewlineMatters (tabs : Bool) (raw : Text) : Prop :=
  raw = [] ∨ raw.head? = some '\\' ∨ (∃ q : Quote, raw = [q.char]) ∨
    (tabs = true ∧ ∀ c ∈ raw, c = '\t') ∨
    Wavers (if tabs then raw.dropWhile (· = '\t') else raw)

/-- **A newline behind a word.** The span of a word moves with a newline behind it exactly where the
word is empty, begins with a backslash, is a lone quote, is nothing but tabs that are skipped, or
has a dollar sign that wavers behind the tabs. -/
theorem span_concat_newline_ne_iff (raw : Text) (tabs : Bool) :
    span (raw ++ ['\n']) tabs ≠ span raw tabs ↔ NewlineMatters tabs raw := by
  by_cases hne : raw = []
  · subst hne
    exact iff_of_true (by cases tabs <;> decide) (Or.inl rfl)
  by_cases hesc : raw.head? = some '\\'
  · exact iff_of_true (span_concat_newline_of_backslash hesc tabs) (Or.inr (Or.inl hesc))
  by_cases hquote : ∃ q : Quote, raw = [q.char]
  · refine iff_of_true ?_ (Or.inr (Or.inr (Or.inl hquote)))
    obtain ⟨q, rfl⟩ := hquote
    cases q <;> cases tabs <;> decide
  have hlong : span (raw ++ ['\n']) tabs = bareSpan (raw ++ ['\n']) tabs := by
    have hhead : (raw ++ ['\n']).head? ≠ some '\\' := by
      rwa [List.head?_append_of_ne_nil _ hne]
    refine span_eq_bareSpan ?_ (not_escaped_of_head?_ne hhead) tabs
    have hlen := List.length_pos_iff.2 hne
    rw [List.length_append, List.length_singleton]
    omega
  rw [hlong, span_eq_bareSpan_of_not_quote hne hesc hquote]
  by_cases htabs : tabs = true ∧ ∀ c ∈ raw, c = '\t'
  · refine iff_of_true ?_ (Or.inr (Or.inr (Or.inr (Or.inl htabs))))
    obtain ⟨rfl, hall⟩ := htabs
    exact fun hspan =>
      start_concat_newline_of_tabs hne hall (congrArg ByteSpan.start hspan)
  · rw [bareSpan_concat_newline_ne_iff hne htabs, NewlineMatters, or_iff_right hne,
      or_iff_right hesc, or_iff_right hquote, or_iff_right htabs]

/-- With a newline behind it, the dollar sign in front of single quotes stays. In front of double
quotes it goes all the same. -/
example :
    span ['$', '\'', 'A', '\'', '\n'] false = ⟨0, 4⟩ ∧ span ['$', '\'', 'A', '\''] false = ⟨2, 3⟩ ∧
      span ['$', '"', 'A', '"', '\n'] false = span ['$', '"', 'A', '"'] false := by
  decide

end ShellLexing.Delimiter
