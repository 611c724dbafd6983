import ShellLexing.Proofs.Delimiter.Style

/-!
# Decoration

What stands around the marker of a word is its decoration: in front tabs, a dollar sign and a
quote, and behind the same quote and newlines, each of them present or not (`Decoration`). Or
the word is escaped, and its decoration is the backslash.

**The cut of any word** (`cut_or_stop_le`). The span of a word covers nothing, or it cuts the
word into a decoration and what is inside (`Trimmed`). Quotes stand on both sides or on none,
and a dollar sign is in the decoration only where quotes justify it. So a span that covers
anything ends between characters on both sides (`exists_cut?_iff`).

**Theorem (`marker_removes_decoration`).** A word is its marker with decoration around it, and
the marker is empty only if the word is.

The proof follows the scan from the front. It skips tabs and a dollar sign (`Opened`) and leaves
a body and newlines, and the body is in quotes, or without quotes, or has nothing between its
quotes. Words of one character and words that end in nothing but newlines are apart, because the
scan from the front keeps the last character of a word and the scan from behind keeps the first.
-/

namespace ShellLexing.Delimiter

open Text (newlines)

/-! ## Decorations -/

/-- What may stand around the marker of a word that is not escaped. -/
structure Decoration where
  tabs : Nat := 0
  dollar : Bool := false
  quote : Option Quote := none
  newlines : Nat := 0

namespace Decoration

/-- The quote on either side of the marker. -/
def quotation (d : Decoration) : Text :=
  match d.quote with
  | none => []
  | some q => [q.char]

/-- What a decoration puts in front of the marker. -/
def opening (d : Decoration) : Text :=
  Text.tabs d.tabs ++ (if d.dollar then ['$'] else []) ++ d.quotation

/-- What a decoration puts behind the marker. -/
def closing (d : Decoration) : Text := d.quotation ++ Text.newlines d.newlines

/-- The word may have the decoration around `w`: tabs have to be skipped, and a dollar sign has to
stand in front of a double quote or in a word that ends in a single quote. -/
structure Fits (d : Decoration) (skipsTabs : Bool) (word w : Text) : Prop where
  tabs : d.tabs = 0 ∨ skipsTabs = true
  dollar : d.dollar = true → (d.quotation ++ w).head? = some '"' ∨ word.getLast? = some '\''

theorem fits_none (skipsTabs : Bool) (word w : Text) : Fits {} skipsTabs word w :=
  ⟨Or.inl rfl, Bool.noConfusion⟩

end Decoration

/-- The pieces into which the span of a word cuts it. -/
inductive Trimmed (tabs : Bool) (word : Text) : Cut → Prop
  | escaped (w : Text) : Trimmed tabs word ⟨['\\'], w, []⟩
  | decorated (d : Decoration) (w : Text) :
    d.Fits tabs word w → Trimmed tabs word ⟨d.opening, w, d.closing⟩

/-! ## Spans that cover nothing -/

theorem stop_span_tabs_newlines {n k : Nat} (hn : n ≠ 0) (hk : k ≠ 0) :
    (span (Text.tabs n ++ newlines k) true).stop ≤
      (span (Text.tabs n ++ newlines k) true).start := by
  obtain ⟨n, rfl⟩ := Nat.exists_eq_succ_of_ne_zero hn
  obtain ⟨k, rfl⟩ := Nat.exists_eq_succ_of_ne_zero hk
  have hhead : (newlines (k + 1)).head? = some '\n' := rfl
  have hword : skipDollar (skipTabs (Text.tabs (n + 1) ++ newlines (k + 1))) =
      newlines (k + 1) := by
    rw [skipTabs_tabs_append (n + 1) (t := newlines (k + 1)) (List.cons_ne_nil _ _)]
    rfl
  have hkept : trimEnd (Text.tabs (n + 1) ++ newlines (k + 1)) = Text.tabs (n + 1) := by
    refine trimEnd_append_newlines (t := Text.tabs (n + 1)) (List.cons_ne_nil _ _) ?_ _
    rw [Text.tabs_succ', List.getLast?_concat]
    decide
  have hesc : ¬ Escaped (Text.tabs (n + 1) ++ newlines (k + 1)) :=
    not_escaped_of_head?_ne (by simp [Text.tabs_succ])
  have hlen : 2 ≤ (Text.tabs (n + 1) ++ newlines (k + 1)).length := by
    rw [List.length_append, List.length_replicate, List.length_replicate]
    omega
  rw [span_eq_bareSpan hlen hesc]
  simp [bareSpan, hword, hkept, hhead, isQuote]

theorem cut?_span_tabs_newlines {n k : Nat} (hn : n ≠ 0) (hk : k ≠ 0) :
    (span (Text.tabs n ++ newlines k) true).cut? (Text.tabs n ++ newlines k) = none :=
  ByteSpan.cut?_eq_none_of_le (stop_span_tabs_newlines hn hk) _

/-! ## Spans of single characters and of newlines -/

theorem cut?_span_singleton (c : Char) (tabs : Bool) :
    (span [c] tabs).cut? [c] = some ⟨[], [c], []⟩ := by
  have hspan : span [c] tabs = ⟨Text.size [], Text.size [] + Text.size [c]⟩ := by
    simp [span]
  rw [hspan]
  exact ByteSpan.cut?_append [] [c] [] (List.cons_ne_nil _ _)

theorem cut?_span_newlines (k : Nat) (tabs : Bool) :
    (span (newlines (k + 2)) tabs).cut? (newlines (k + 2)) =
      some ⟨[], ['\n'], newlines (k + 1)⟩ := by
  have hskip : (if tabs then skipTabs (newlines (k + 2)) else newlines (k + 2)) =
      newlines (k + 2) := ite_self _
  have hkept : trimEnd (newlines (k + 2)) = ['\n'] :=
    congrArg (List.cons '\n') (Text.dropNewlines_append_newlines (t := []) (by simp) (k + 1))
  have hspan : span (newlines (k + 2)) tabs = ⟨0, 1⟩ := by
    rw [span_eq_bareSpan (by simp) (not_escaped_of_head?_ne (by simp [List.replicate_succ]))]
    unfold bareSpan
    rw [hskip, hkept]
    simp [skipDollar, List.replicate_succ, isQuote]
    rfl
  rw [hspan]
  exact ByteSpan.cut?_append [] ['\n'] (newlines (k + 1)) (List.cons_ne_nil _ _)

/-! ## The scan from the front -/

/-- The scan from the front of a word skips `n` tabs and, if `dollar` is set, a dollar sign. -/
structure Opened (tabs : Bool) (word : Text) (n : Nat) (dollar : Bool) (rest : Text) : Prop where
  skip : skipDollar (if tabs then skipTabs word else word) = rest
  whole : word = Text.tabs n ++ (if dollar then ['$'] else []) ++ rest
  tabs : n = 0 ∨ tabs = true
  dollar : dollar = true → rest.head? = some '"' ∨ word.getLast? = some '\''

theorem exists_opened (tabs : Bool) (word : Text) :
    ∃ n dollar rest, Opened tabs word n dollar rest := by
  have htabs : ∃ n, (n = 0 ∨ tabs = true) ∧
      word = Text.tabs n ++ if tabs then skipTabs word else word := by
    cases tabs with
    | false => exact ⟨0, Or.inl rfl, rfl⟩
    | true =>
      obtain ⟨n, hn⟩ := exists_tabs_skipTabs word
      exact ⟨n, Or.inr rfl, hn⟩
  obtain ⟨n, hn, hword⟩ := htabs
  generalize ht : (if tabs then skipTabs word else word) = t at hword
  rcases skipDollar_cases t with hskip | ⟨hskip, hquote⟩
  · exact ⟨n, false, t, by rw [ht, hskip], by simpa using hword, hn, Bool.noConfusion⟩
  · refine ⟨n, true, skipDollar t, by rw [ht], by simpa [← hskip] using hword, hn, fun _ => ?_⟩
    rcases hquote with hhead | hlast
    · exact Or.inl hhead
    · have hne : t ≠ [] := by
        intro hnil
        rw [hnil] at hlast
        cases hlast
      exact Or.inr (by rw [hword, List.getLast?_append_of_ne_nil _ hne, hlast])

variable {tabs dollar : Bool} {word body : Text} {n k : Nat}

/-- A dollar sign is not skipped in front of newlines alone, and a scan always leaves something. -/
theorem Opened.eq_tabs_newlines (h : Opened tabs word n dollar (newlines k)) (hne : word ≠ []) :
    word = Text.tabs n ++ newlines k ∧ k ≠ 0 := by
  constructor
  · cases dollar with
    | false => simpa using h.whole
    | true =>
      rcases h.dollar rfl with hhead | hlast
      · exact absurd (List.eq_of_mem_replicate (List.mem_of_head? hhead)) (by decide)
      · have hmem := List.mem_of_getLast? hlast
        rw [h.whole] at hmem
        simp at hmem
  · intro hk
    subst hk
    have hnil := eq_newlines_of_skipDollar h.skip
    cases tabs with
    | false => exact hne hnil
    | true => exact skipTabs_ne_nil hne hnil

theorem Opened.strips (h : Opened tabs word n dollar (body ++ newlines k)) (hbody : body ≠ [])
    (hlast : body.getLast? ≠ some '\n') :
    Strips tabs (Text.tabs n ++ if dollar then ['$'] else []) body k := by
  refine ⟨?_, hbody, hlast⟩
  rw [← h.whole]
  exact h.skip

theorem Opened.fits (h : Opened tabs word n dollar (body ++ newlines k)) (hbody : body ≠ [])
    (quote : Option Quote) (w : Text)
    (hw : (Decoration.quotation ⟨n, dollar, quote, k⟩ ++ w).head? = body.head?) :
    Decoration.Fits ⟨n, dollar, quote, k⟩ tabs word w := by
  refine ⟨h.tabs, fun hdollar => ?_⟩
  have hquote := h.dollar hdollar
  rw [List.head?_append_of_ne_nil _ hbody] at hquote
  rwa [hw]

/-! ## The cut of any word -/

theorem Opened.cut_or_stop_le_of_newlines (h : Opened tabs word n dollar (newlines k))
    (hlen : 2 ≤ word.length) :
    (∃ c, (span word tabs).cut? word = some c ∧ Trimmed tabs word c) ∨
      (span word tabs).stop ≤ (span word tabs).start := by
  have hne : word ≠ [] := List.ne_nil_of_length_pos (Nat.lt_of_succ_lt hlen)
  obtain ⟨hword, hk⟩ := h.eq_tabs_newlines hne
  subst hword
  by_cases hn : n = 0
  · subst hn
    simp only [List.length_append, List.length_replicate] at hlen
    obtain ⟨m, rfl⟩ : ∃ m, k = m + 2 := ⟨k - 2, by omega⟩
    exact Or.inl ⟨_, cut?_span_newlines m tabs,
      Trimmed.decorated { newlines := m + 1 } ['\n'] ⟨Or.inl rfl, Bool.noConfusion⟩⟩
  · obtain rfl := h.tabs.resolve_left hn
    exact Or.inr (stop_span_tabs_newlines hn hk)

theorem Opened.cut_or_stop_le_of_body (h : Opened tabs word n dollar (body ++ newlines k))
    (hbody : body ≠ []) (hlast : body.getLast? ≠ some '\n') (hlen : 2 ≤ word.length)
    (hesc : ¬ Escaped word) :
    (∃ c, (span word tabs).cut? word = some c ∧ Trimmed tabs word c) ∨
      (span word tabs).stop ≤ (span word tabs).start := by
  have hstrips := h.strips hbody hlast
  have hhollow : Quoted body → body.length ≤ 2 →
      (span word tabs).stop ≤ (span word tabs).start := by
    intro hq hshort
    rw [h.whole] at hlen hesc ⊢
    exact stop_span_of_hollow hstrips hq hshort hlen hesc
  by_cases hq : Quoted body
  · obtain ⟨q, rfl | ⟨w, rfl⟩⟩ := quoted_iff.1 hq
    · exact Or.inr (hhollow hq (by simp))
    · by_cases hw : w = []
      · exact Or.inr (hhollow hq (by simp [hw]))
      · have hfits := h.fits hbody (some q) w rfl
        refine Or.inl ⟨_, ?_, Trimmed.decorated _ _ hfits⟩
        rw [h.whole] at hesc ⊢
        exact cut?_span_of_quoted hw hstrips hesc
  · have hfits := h.fits hbody none body rfl
    refine Or.inl ⟨_, ?_, Trimmed.decorated _ _ hfits⟩
    rw [h.whole] at hesc ⊢
    have hcut := cut?_span_of_bare hstrips hq hesc
    simpa [Decoration.opening, Decoration.closing, Decoration.quotation] using hcut

/-- **The cut of any word.** The span of a word covers nothing, or it cuts decoration off. -/
theorem cut_or_stop_le (word : Text) (tabs : Bool) :
    (∃ c, (span word tabs).cut? word = some c ∧ Trimmed tabs word c) ∨
      (span word tabs).stop ≤ (span word tabs).start := by
  by_cases hesc : Escaped word
  · obtain ⟨w, hw, rfl⟩ := hesc
    exact Or.inl ⟨_, cut?_span_escaped hw tabs, Trimmed.escaped w⟩
  by_cases hlen : 2 ≤ word.length
  · obtain ⟨n, dollar, rest, hopened⟩ := exists_opened tabs word
    obtain ⟨body, k, rfl, hlast⟩ := Text.exists_append_newlines rest
    by_cases hbody : body = []
    · subst hbody
      exact hopened.cut_or_stop_le_of_newlines hlen
    · exact hopened.cut_or_stop_le_of_body hbody hlast hlen hesc
  · rcases word with _ | ⟨c, _ | ⟨d, r⟩⟩
    · exact Or.inr (Nat.le_refl 0)
    · exact Or.inl ⟨_, cut?_span_singleton c tabs,
        Trimmed.decorated {} [c] (Decoration.fits_none tabs [c] [c])⟩
    · exact absurd hlen (by simp)

/-- A span that covers anything ends between characters on both sides. -/
theorem exists_cut?_iff {word : Text} {tabs : Bool} :
    (∃ c, (span word tabs).cut? word = some c) ↔
      (span word tabs).start < (span word tabs).stop := by
  constructor
  · intro h
    by_contra hle
    obtain ⟨c, hc⟩ := h
    rw [ByteSpan.cut?_eq_none_of_le (Nat.not_lt.1 hle)] at hc
    cases hc
  · intro h
    rcases cut_or_stop_le word tabs with ⟨c, hc, -⟩ | hle
    · exact ⟨c, hc⟩
    · exact absurd h (Nat.not_lt.2 hle)

/-! ## The marker of any word -/

/-- **Only decoration goes.** A word is its marker with a piece in front and a piece behind: a
backslash and at most one newline, or a decoration that fits the word without its final newline. The
marker is empty only if the word is. -/
theorem marker_removes_decoration (raw : Text) (tabs : Bool) :
    (∃ before after, raw = before ++ marker raw tabs ++ after ∧
      (before = ['\\'] ∧ (after = [] ∨ after = ['\n']) ∨
        ∃ d : Decoration, before = d.opening ∧ after = d.closing ∧
          d.Fits tabs raw.dropNewline (marker raw tabs))) ∧
    (marker raw tabs = [] ↔ raw = []) := by
  obtain ⟨n, hn, hraw⟩ := Text.exists_dropNewline_append raw
  rcases cut_or_stop_le raw.dropNewline tabs with ⟨c, hcut, htrimmed⟩ | hle
  · have hmarker : marker raw tabs = c.inside := marker_of_cut? rfl hcut
    have hwhole : c.before ++ c.inside ++ c.after = raw.dropNewline :=
      (ByteSpan.whole_of_cut? hcut).1
    have hne := ByteSpan.inside_ne_nil_of_cut? hcut
    rw [hmarker]
    refine ⟨⟨c.before, c.after ++ newlines n, ?_, ?_⟩, ?_⟩
    · rw [← List.append_assoc, hwhole, ← hraw]
    · cases htrimmed with
      | escaped w =>
        left
        rcases Nat.le_one_iff_eq_zero_or_eq_one.1 hn with rfl | rfl
        · exact ⟨rfl, Or.inl rfl⟩
        · exact ⟨rfl, Or.inr rfl⟩
      | decorated d w hfits =>
        right
        refine ⟨{ d with newlines := d.newlines + n }, rfl, ?_, hfits.tabs, hfits.dollar⟩
        rw [Decoration.closing, List.append_assoc, List.replicate_append_replicate]
        rfl
    · refine iff_of_false hne fun hnil => hne ?_
      subst hnil
      exact (List.append_eq_nil_iff.1 (List.append_eq_nil_iff.1 hwhole).1).2
  · have hmarker : marker raw tabs = raw :=
      marker_of_cut?_eq_none rfl (ByteSpan.cut?_eq_none_of_le hle _)
    rw [hmarker]
    exact ⟨⟨[], [], by simp, Or.inr ⟨{}, rfl, rfl, Decoration.fits_none ..⟩⟩, Iff.rfl⟩

/-- A quote without a partner is no decoration, and a word with nothing between its quotes stays. -/
example :
    marker ['\t', '\'', 'a', '"', '\n', '\n'] true = ['\'', 'a', '"'] ∧
      marker ['$', '"', '"', '\n'] false = ['$', '"', '"', '\n'] := by
  decide

end ShellLexing.Delimiter
