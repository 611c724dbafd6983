import ShellLexing.Proofs.Delimiter.Front

/-!
# Words that are their own marker

The marker of a word is what is left without the decoration. This file says which words have none.
Here a word does not end in a newline.

The scan from the front leaves the remainder of the word. If the same quote stands at both ends of
the remainder, the marker is what stands between them (`marker_of_remainder_quoted`). But if nothing
stands between them, the word is taken as it stands (`marker_of_remainder_hollow`). In all other
cases the remainder is the marker (`marker_of_remainder_bare`), and then the word is its own marker
if the remainder is the whole of it.

**Main result** (`marker_eq_self_iff`). These words are described without the scan (`OwnMarker`). In
particular, the marker of a marker is the marker, unless it looks like decoration itself.
-/

namespace ShellLexing.Delimiter

open Text (newlines)

/-- The word has one byte at most; or it begins with no backslash, and without the tabs and the
dollar sign in front of quotes it is one or two equal quotes, or it is still the whole word and the
same quote does not stand at both ends. -/
def OwnMarker (tabs : Bool) (word : Text) : Prop :=
  word.size ≤ 1 ∨
    word.head? ≠ some '\\' ∧
      ((∃ q : Quote, remainder tabs word = [q.char] ∨ remainder tabs word = [q.char, q.char]) ∨
        remainder tabs word = word ∧ ¬ Quoted (remainder tabs word))

/-! ## The marker and the remainder -/

variable {tabs : Bool} {word : Text}

/-- No newlines are skipped behind a word that ends in none. -/
theorem exists_strips_remainder (tabs : Bool) (hne : word ≠ [])
    (hlast : word.getLast? ≠ some '\n') :
    ∃ lead, word = lead ++ (remainder tabs word ++ newlines 0) ∧
      Strips tabs lead (remainder tabs word) 0 := by
  obtain ⟨n, dollar, hopened⟩ := exists_opened_remainder tabs word
  have hrem := remainder_ne_nil hne tabs
  have hend : remainder tabs word ++ newlines 0 = remainder tabs word := List.append_nil _
  have hremLast : (remainder tabs word).getLast? ≠ some '\n' := by
    intro h
    refine hlast ?_
    rw [hopened.whole, List.getLast?_append_of_ne_nil _ hrem, h]
  refine ⟨Text.tabs n ++ if dollar then ['$'] else [], ?_, ?_⟩
  · rw [hend]
    exact hopened.whole
  · rw [← hend] at hopened
    exact hopened.strips hrem hremLast

theorem marker_of_remainder_bare (hne : word ≠ []) (hesc : ¬ Escaped word)
    (hlast : word.getLast? ≠ some '\n') (hq : ¬ Quoted (remainder tabs word)) :
    marker word tabs = remainder tabs word := by
  obtain ⟨lead, hword, hstrips⟩ := exists_strips_remainder tabs hne hlast
  have hcut := cut?_span_of_bare hstrips hq (hword ▸ hesc)
  rw [← hword] at hcut
  exact marker_of_cut? (Text.dropNewline_eq_self hlast) hcut

theorem marker_of_remainder_quoted {q : Quote} {w : Text} (hesc : ¬ Escaped word)
    (hlast : word.getLast? ≠ some '\n') (hw : w ≠ [])
    (hrem : remainder tabs word = q.char :: (w ++ [q.char])) : marker word tabs = w := by
  have hne : word ≠ [] := by
    intro hnil
    subst hnil
    cases tabs <;> cases hrem
  obtain ⟨lead, hword, hstrips⟩ := exists_strips_remainder tabs hne hlast
  rw [hrem] at hword hstrips
  have hcut := cut?_span_of_quoted hw hstrips (hword ▸ hesc)
  rw [← hword] at hcut
  exact marker_of_cut? (Text.dropNewline_eq_self hlast) hcut

theorem marker_singleton (c : Char) (tabs : Bool) (hc : [c].getLast? ≠ some '\n') :
    marker [c] tabs = [c] :=
  marker_of_cut? (Text.dropNewline_eq_self hc) (cut?_span_singleton c tabs)

theorem marker_of_remainder_hollow (hne : word ≠ []) (hesc : ¬ Escaped word)
    (hlast : word.getLast? ≠ some '\n') (hq : Quoted (remainder tabs word))
    (hshort : (remainder tabs word).length ≤ 2) : marker word tabs = word := by
  rcases word with _ | ⟨c, _ | ⟨d, r⟩⟩
  · exact absurd rfl hne
  · exact marker_singleton c tabs hlast
  · obtain ⟨lead, hword, hstrips⟩ := exists_strips_remainder tabs hne hlast
    have hlen : 2 ≤ (c :: d :: r).length := by simp
    have hcut := cut?_span_of_hollow hstrips hq hshort (hword ▸ hlen) (hword ▸ hesc)
    rw [← hword] at hcut
    exact marker_of_cut?_eq_none (Text.dropNewline_eq_self hlast) hcut

theorem marker_of_size_le_one (hsize : word.size ≤ 1) (hlast : word.getLast? ≠ some '\n') :
    marker word tabs = word := by
  rcases word with _ | ⟨c, _ | ⟨d, r⟩⟩
  · rfl
  · exact marker_singleton c tabs hlast
  · have hc := c.utf8Size_pos
    have hd := d.utf8Size_pos
    simp only [Text.size_cons] at hsize
    omega

theorem length_remainder_le (tabs : Bool) (word : Text) :
    (remainder tabs word).length ≤ word.length := by
  obtain ⟨front, hfront, -⟩ := exists_append_remainder tabs word
  conv_rhs => rw [hfront]
  rw [List.length_append]
  exact Nat.le_add_left _ _

/-! ## The marker of a word that is not escaped -/

theorem quoted_and_length_le_iff {body : Text} :
    Quoted body ∧ body.length ≤ 2 ↔ ∃ q : Quote, body = [q.char] ∨ body = [q.char, q.char] := by
  constructor
  · intro h
    obtain ⟨hq, hshort⟩ := h
    obtain ⟨q, rfl | ⟨w, rfl⟩⟩ := quoted_iff.1 hq
    · exact ⟨q, Or.inl rfl⟩
    · simp only [List.length_cons, List.length_append, List.length_nil] at hshort
      obtain rfl : w = [] := List.length_eq_zero_iff.1 (by omega)
      exact ⟨q, Or.inr rfl⟩
  · intro h
    obtain ⟨q, rfl | rfl⟩ := h
    · exact ⟨quoted_iff.2 ⟨q, Or.inl rfl⟩, Nat.le_succ 1⟩
    · exact ⟨quoted_between q [], Nat.le_refl 2⟩

/-- Where nothing but quotes, a dollar sign and tabs can go, the remainder decides. -/
theorem marker_eq_self_iff_of_not_escaped (hne : word ≠ []) (hesc : ¬ Escaped word)
    (hlast : word.getLast? ≠ some '\n') :
    marker word tabs = word ↔
      Quoted (remainder tabs word) ∧ (remainder tabs word).length ≤ 2 ∨
        remainder tabs word = word ∧ ¬ Quoted (remainder tabs word) := by
  by_cases hq : Quoted (remainder tabs word)
  · by_cases hshort : (remainder tabs word).length ≤ 2
    · exact iff_of_true (marker_of_remainder_hollow hne hesc hlast hq hshort)
        (Or.inl ⟨hq, hshort⟩)
    · -- The quotes go, so the marker is shorter than the word.
      refine iff_of_false (fun hmarker => ?_) (by simp [hq, hshort])
      obtain ⟨q, hone | ⟨w, hrem⟩⟩ := quoted_iff.1 hq
      · exact hshort (by simp [hone])
      · have hw : w ≠ [] := by
          intro hnil
          exact hshort (by simp [hrem, hnil])
        have hle := length_remainder_le tabs word
        rw [marker_of_remainder_quoted hesc hlast hw hrem] at hmarker
        simp only [hrem, hmarker, List.length_cons, List.length_append, List.length_nil] at hle
        omega
  · rw [marker_of_remainder_bare hne hesc hlast hq]
    simp [hq]

theorem marker_ne_of_escaped (hesc : Escaped word) (hlast : word.getLast? ≠ some '\n') :
    marker word tabs ≠ word := by
  obtain ⟨w, hw, rfl⟩ := hesc
  rw [marker_of_cut? (Text.dropNewline_eq_self hlast) (cut?_span_escaped hw tabs)]
  exact fun h => absurd (congrArg List.length h) (by simp)

/-! ## Words that are their own marker -/

theorem marker_eq_self_iff_ownMarker (hlast : word.getLast? ≠ some '\n') :
    marker word tabs = word ↔ OwnMarker tabs word := by
  by_cases hsize : word.size ≤ 1
  · exact iff_of_true (marker_of_size_le_one hsize hlast) (Or.inl hsize)
  have hne : word ≠ [] := by
    intro hnil
    subst hnil
    exact hsize (Nat.zero_le 1)
  by_cases hhead : word.head? = some '\\'
  · have hesc : Escaped word := by
      obtain ⟨w, rfl⟩ := List.head?_eq_some_iff.1 hhead
      refine ⟨w, fun hnil => hsize ?_, rfl⟩
      rw [hnil]
      exact Nat.le_refl 1
    refine iff_of_false (marker_ne_of_escaped hesc hlast) (fun hown => ?_)
    exact hown.elim hsize fun h => h.1 hhead
  · rw [marker_eq_self_iff_of_not_escaped hne (not_escaped_of_head?_ne hhead) hlast,
      quoted_and_length_le_iff, OwnMarker, or_iff_right hsize, and_iff_right hhead]

theorem ownMarker_of_head? (hmark : word.head?.any isMark = false)
    (htab : tabs = true → word.head? ≠ some '\t') : OwnMarker tabs word := by
  have hskip : (if tabs then skipTabs word else word) = word := by
    cases tabs with
    | false => rfl
    | true => exact skipTabs_of_head?_ne (htab rfl)
  have hremainder : remainder tabs word = word := by
    rw [← skipDollar_skipTabs, hskip]
    exact skipDollar_of_head?_ne (head?_ne_of_isMark hmark rfl)
  refine Or.inr ⟨head?_ne_of_isMark hmark rfl, Or.inr ⟨hremainder, ?_⟩⟩
  rw [hremainder]
  exact not_quoted_of_isMark hmark

/-- **Words that are their own marker.** A word that does not end in a newline is its own marker
exactly where `OwnMarker` holds of it. The marker of a marker is the marker, if it begins neither
with a mark nor with a tab that would be skipped, and does not end in a newline. -/
theorem marker_eq_self_iff (tabs : Bool) :
    (∀ word : Text, word.getLast? ≠ some '\n' →
      (marker word tabs = word ↔ OwnMarker tabs word)) ∧
    ∀ raw : Text, (marker raw tabs).head?.any isMark = false →
      (tabs = true → (marker raw tabs).head? ≠ some '\t') →
      (marker raw tabs).getLast? ≠ some '\n' →
        marker (marker raw tabs) tabs = marker raw tabs := by
  refine ⟨fun word hlast => marker_eq_self_iff_ownMarker hlast, fun raw hmark htab hlast => ?_⟩
  exact (marker_eq_self_iff_ownMarker hlast).2 (ownMarker_of_head? hmark htab)

/-- Two quotes with nothing between them keep their tabs and their dollar sign, and what was read
from between other quotes is its own marker. -/
theorem marker_eq_self_iff_empty_quotes :
    OwnMarker true ['\t', '$', '"', '"'] ∧
      marker ['\t', '$', '"', '"'] true = ['\t', '$', '"', '"'] ∧
      marker (marker ['\t', '$', '\'', 'é', '\''] true) true =
        marker ['\t', '$', '\'', 'é', '\''] true := by
  have hown : OwnMarker true ['\t', '$', '"', '"'] :=
    Or.inr ⟨by decide, Or.inl ⟨.double, Or.inr (by decide)⟩⟩
  exact ⟨hown, ((marker_eq_self_iff true).1 _ (by decide)).2 hown,
    (marker_eq_self_iff true).2 _ (by decide) (by decide) (by decide)⟩

end ShellLexing.Delimiter
