import ShellLexing.Proofs.Delimiter.Decoration

/-!
# The front of a delimiter word

The scan of a word skips tabs and a dollar sign in front, one character after the other. This file
says without the scan what it leaves. The tabs in front go, but never the last character
(`untabbed`), and then a dollar sign that introduces quotes (`Introduces`). What is left is the
remainder of the word, and the scan leaves the same (`skipDollar_skipTabs`).

The span then depends on two things. One is the number of bytes that are skipped. The other is
whether the same quote stands in front of the remainder and at the end of what is kept behind
(`Framed`); if so, the span is smaller by one byte on both sides (`bareSpan_of_framed`).
-/

namespace ShellLexing.Delimiter

/-! ## What is left of a word -/

/-- A word without the tabs in front of it, but always with its last character. -/
def untabbed (tabs : Bool) (raw : Text) : Text :=
  if tabs then raw.dropLast.dropWhile (· = '\t') ++ raw.getLast?.toList else raw

/-- The word begins with a dollar sign, it has three bytes at least, and a double quote comes second
or a single quote comes last. -/
def Introduces (word : Text) : Prop :=
  word.head? = some '$' ∧ 3 ≤ word.size ∧ (word[1]? = some '"' ∨ word.getLast? = some '\'')

instance (word : Text) : Decidable (Introduces word) := inferInstanceAs (Decidable (_ ∧ _))

/-- A word without the tabs in front of it and without a dollar sign that introduces quotes. -/
def remainder (tabs : Bool) (raw : Text) : Text :=
  if Introduces (untabbed tabs raw) then (untabbed tabs raw).tail else untabbed tabs raw

/-! ## The scan leaves the remainder -/

theorem skipTabs_singleton (c : Char) : skipTabs [c] = [c] := by
  unfold skipTabs
  split
  · next h => simp at h
  · rfl

theorem skipTabs_concat (t : Text) (c : Char) :
    skipTabs (t ++ [c]) = t.dropWhile (· = '\t') ++ [c] := by
  induction t with
  | nil => exact skipTabs_singleton c
  | cons d t ih =>
    by_cases hd : d = '\t'
    · subst hd
      rw [List.dropWhile_cons_of_pos (by simp), ← ih]
      exact skipTabs_tabs_append 1 (by simp)
    · rw [List.dropWhile_cons_of_neg (by simpa using hd)]
      exact skipTabs_of_head?_ne (by simpa using hd)

theorem untabbed_concat (tabs : Bool) (t : Text) (c : Char) :
    untabbed tabs (t ++ [c]) = (if tabs then t.dropWhile (· = '\t') else t) ++ [c] := by
  cases tabs <;> simp [untabbed]

theorem skipTabs_eq_untabbed (tabs : Bool) (raw : Text) :
    (if tabs then skipTabs raw else raw) = untabbed tabs raw := by
  unfold untabbed
  cases tabs with
  | false => rfl
  | true =>
    rcases List.eq_nil_or_concat raw with rfl | ⟨t, c, rfl⟩
    · rfl
    · simp [skipTabs_concat]

theorem untabbed_ne_nil {raw : Text} (h : raw ≠ []) (tabs : Bool) : untabbed tabs raw ≠ [] := by
  rw [← skipTabs_eq_untabbed]
  cases tabs with
  | false => exact h
  | true => exact skipTabs_ne_nil h

theorem introduces_dollar_cons {c : Char} {t : Text} :
    Introduces ('$' :: c :: t) ↔ t ≠ [] ∧ (c = '"' ∨ t.getLast? = some '\'') := by
  by_cases ht : t = []
  · -- A quote behind the dollar sign would be one byte, and two bytes are too few.
    subst ht
    refine iff_of_false (fun h => ?_) (fun h => h.1 rfl)
    obtain ⟨-, hsize, hquote⟩ := h
    have hc : c = '"' ∨ c = '\'' := by simpa using hquote
    rcases hc with rfl | rfl
    · exact absurd hsize (by decide)
    · exact absurd hsize (by decide)
  · have hsize : 3 ≤ Text.size ('$' :: c :: t) := by
      have hpos := Text.size_pos ht
      have hc := c.utf8Size_pos
      have hdollar : '$'.utf8Size = 1 := rfl
      simp only [Text.size_cons]
      omega
    have hlast : ('$' :: c :: t).getLast? = t.getLast? :=
      List.getLast?_append_of_ne_nil ['$', c] ht
    rw [Introduces, hlast, and_iff_right (List.head?_cons ..), and_iff_right hsize,
      and_iff_right ht]
    simp

theorem skipDollar_eq (word : Text) :
    skipDollar word = if Introduces word then word.tail else word := by
  by_cases hhead : word.head? = some '$'
  · obtain ⟨t, rfl⟩ := List.head?_eq_some_iff.1 hhead
    cases t with
    | nil => rfl
    | cons c t =>
      cases t with
      | nil => rw [if_neg fun h => (introduces_dollar_cons.1 h).1 rfl]; rfl
      | cons d t =>
        rw [skipDollar]
        by_cases hquote : c = '"' ∨ (d :: t).getLast? = some '\''
        · rw [if_pos hquote, if_pos (introduces_dollar_cons.2 ⟨List.cons_ne_nil d t, hquote⟩)]
          rfl
        · rw [if_neg hquote, if_neg fun h => hquote (introduces_dollar_cons.1 h).2]
  · rw [skipDollar_of_head?_ne hhead, if_neg fun h => hhead h.1]

theorem skipDollar_skipTabs (tabs : Bool) (raw : Text) :
    skipDollar (if tabs then skipTabs raw else raw) = remainder tabs raw := by
  rw [skipTabs_eq_untabbed, skipDollar_eq]
  rfl

theorem exists_opened_remainder (tabs : Bool) (raw : Text) :
    ∃ n dollar, Opened tabs raw n dollar (remainder tabs raw) := by
  obtain ⟨n, dollar, rest, h⟩ := exists_opened tabs raw
  rw [← skipDollar_skipTabs, h.skip]
  exact ⟨n, dollar, h⟩

theorem exists_skipped_append_remainder (tabs : Bool) (raw : Text) :
    ∃ front, raw = front ++ remainder tabs raw ∧ ∀ c ∈ front, c = '\t' ∨ c = '$' := by
  obtain ⟨n, dollar, h⟩ := exists_opened_remainder tabs raw
  refine ⟨Text.tabs n ++ if dollar then ['$'] else [], h.whole, fun c hc => ?_⟩
  rcases List.mem_append.1 hc with hc | hc
  · exact Or.inl (List.eq_of_mem_replicate hc)
  · cases dollar with
    | true => exact Or.inr (List.mem_singleton.1 hc)
    | false => cases hc

/-- No quote is skipped in front of a word. -/
theorem exists_append_remainder (tabs : Bool) (raw : Text) :
    ∃ front, raw = front ++ remainder tabs raw ∧ front.getLast?.any isQuote = false := by
  obtain ⟨front, hfront, hskipped⟩ := exists_skipped_append_remainder tabs raw
  refine ⟨front, hfront, ?_⟩
  cases hlast : front.getLast? with
  | none => rfl
  | some c =>
    rcases hskipped c (List.mem_of_getLast? hlast) with rfl | rfl
    · rfl
    · rfl

theorem remainder_singleton (tabs : Bool) (c : Char) : remainder tabs [c] = [c] := by
  have hskip : (if tabs then skipTabs [c] else [c]) = [c] := by
    rw [skipTabs_singleton]
    exact ite_self _
  rw [← skipDollar_skipTabs, hskip]
  unfold skipDollar
  split
  · next h => simp at h
  · rfl

theorem remainder_ne_nil {raw : Text} (h : raw ≠ []) (tabs : Bool) : remainder tabs raw ≠ [] := by
  intro hnil
  rw [← skipDollar_skipTabs, skipTabs_eq_untabbed] at hnil
  exact untabbed_ne_nil h tabs (eq_newlines_of_skipDollar (k := 0) hnil)

/-! ## The span -/

/-- The number of bytes that are skipped in front of a word. -/
def skipped (tabs : Bool) (raw : Text) : Nat := raw.size - (remainder tabs raw).size

/-- The same quote stands in front of the remainder of a word and in front of its last newlines. -/
def Framed (tabs : Bool) (raw : Text) : Prop :=
  (remainder tabs raw).head?.any isQuote = true ∧
    (trimEnd raw).getLast? = (remainder tabs raw).head?

instance (tabs : Bool) (raw : Text) : Decidable (Framed tabs raw) :=
  inferInstanceAs (Decidable (_ ∧ _))

variable {tabs : Bool} {raw : Text}

theorem Framed.exists_quote (h : Framed tabs raw) :
    ∃ (q : Quote) (r kept : Text), remainder tabs raw = q.char :: r ∧
      trimEnd raw = kept ++ [q.char] := by
  obtain ⟨q, r, hr⟩ := exists_quote_cons h.1
  obtain ⟨kept, hkept⟩ := List.getLast?_eq_some_iff.1 (h.2.trans (congrArg List.head? hr))
  exact ⟨q, r, kept, hr, hkept⟩

theorem size_of_append_remainder {front : Text} (h : raw = front ++ remainder tabs raw) :
    front.size = skipped tabs raw := by
  have hsize := congrArg Text.size h
  rw [Text.size_append] at hsize
  rw [skipped]
  omega

/-- A remainder that does not begin with a quote has none to lose. -/
theorem not_framed_of_head? {c : Char} (hhead : (remainder tabs raw).head? = some c)
    (hc : isQuote c = false) : ¬ Framed tabs raw := by
  intro h
  rw [Framed, hhead, Option.any_some, hc] at h
  exact Bool.noConfusion h.1

theorem exists_append_untabbed (tabs : Bool) (raw : Text) :
    ∃ front, raw = front ++ untabbed tabs raw := by
  rw [← skipTabs_eq_untabbed]
  cases tabs with
  | false => exact ⟨[], rfl⟩
  | true =>
    obtain ⟨n, hn⟩ := exists_tabs_skipTabs raw
    exact ⟨Text.tabs n, hn⟩

theorem size_untabbed_le (tabs : Bool) (raw : Text) : (untabbed tabs raw).size ≤ raw.size := by
  obtain ⟨front, hfront⟩ := exists_append_untabbed tabs raw
  conv_rhs => rw [hfront]
  rw [Text.size_append]
  exact Nat.le_add_left _ _

/-- Tabs are skipped, and a dollar sign that introduces quotes is one byte more. -/
theorem skipped_eq (tabs : Bool) (raw : Text) :
    skipped tabs raw = raw.size - (untabbed tabs raw).size +
      if Introduces (untabbed tabs raw) then 1 else 0 := by
  have hle := size_untabbed_le tabs raw
  rw [skipped, remainder]
  by_cases h : Introduces (untabbed tabs raw)
  · rw [if_pos h, if_pos h]
    obtain ⟨t, ht⟩ := List.head?_eq_some_iff.1 h.1
    have hdollar : '$'.utf8Size = 1 := rfl
    rw [ht, Text.size_cons, hdollar] at hle
    rw [ht, List.tail_cons, Text.size_cons, hdollar]
    omega
  · rw [if_neg h, if_neg h]
    rfl

theorem bareSpan_of_framed (h : Framed tabs raw) :
    bareSpan raw tabs = ⟨skipped tabs raw + 1, (trimEnd raw).size - 1⟩ := by
  unfold bareSpan
  simp only [skipDollar_skipTabs]
  rw [if_pos (by simpa [Framed] using h)]
  rfl

theorem bareSpan_of_not_framed (h : ¬ Framed tabs raw) :
    bareSpan raw tabs = ⟨skipped tabs raw, (trimEnd raw).size⟩ := by
  unfold bareSpan
  simp only [skipDollar_skipTabs]
  rw [if_neg (by simpa [Framed] using h)]
  rfl

theorem skipped_le_start (tabs : Bool) (raw : Text) :
    skipped tabs raw ≤ (bareSpan raw tabs).start := by
  by_cases h : Framed tabs raw
  · rw [bareSpan_of_framed h]
    exact Nat.le_succ _
  · exact Nat.le_of_eq (congrArg ByteSpan.start (bareSpan_of_not_framed h)).symm

theorem start_eq_skipped {c : Char} (hhead : (remainder tabs raw).head? = some c)
    (hc : isQuote c = false) : (bareSpan raw tabs).start = skipped tabs raw :=
  congrArg ByteSpan.start (bareSpan_of_not_framed (not_framed_of_head? hhead hc))

/-- Unless it is a quote, a word of one character is no exception. -/
theorem span_eq_bareSpan_of_not_quote (hne : raw ≠ []) (hesc : raw.head? ≠ some '\\')
    (hquote : ¬ ∃ q : Quote, raw = [q.char]) (tabs : Bool) : span raw tabs = bareSpan raw tabs := by
  rcases raw with _ | ⟨c, _ | ⟨d, r⟩⟩
  · exact absurd rfl hne
  · have hc : isQuote c = false := by
      refine Bool.eq_false_iff.2 fun h => ?_
      obtain ⟨q, rfl⟩ := isQuote_iff.1 h
      exact hquote ⟨q, rfl⟩
    have hframed : ¬ Framed tabs [c] :=
      not_framed_of_head? (by rw [remainder_singleton, List.head?_cons]) hc
    rw [bareSpan_of_not_framed hframed, skipped, remainder_singleton, Nat.sub_self]
    rfl
  · exact span_eq_bareSpan (by simp) (not_escaped_of_head?_ne hesc) tabs

end ShellLexing.Delimiter
