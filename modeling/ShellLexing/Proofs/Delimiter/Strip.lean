import ShellLexing.Delimiter
import ShellLexing.Proofs.Text.Runs

/-!
# Stripping a delimiter word

The span of a word is computed from sizes: of the word, of what is left when tabs and a dollar
sign are skipped in front, and of what is left when newlines are skipped behind. This file reads
the span back as a cut of the word into pieces.

**The split** (`Strips`). The word is `lead ++ body ++ newlines k`: the scan skips `lead` and the
newlines, and keeps `body`, which does not end in a newline.

**The cut.** What becomes of the body depends on the quotes at its ends.

* `cut?_span_of_bare`: a body without the same quote at both ends is the marker.
* `cut?_span_of_quoted`: of a body `w` in quotes the marker is `w`.
* `cut?_span_of_hollow`: one or two quotes leave nothing between them, and there is no cut.
* `cut?_span_escaped`: behind a backslash everything is the marker.
-/

namespace ShellLexing.Delimiter

open Text (newlines)

/-! ## Quotes -/

/-- The two quotes. -/
inductive Quote where
  | single
  | double
deriving DecidableEq

def Quote.char : Quote → Char
  | single => '\''
  | double => '"'

theorem Quote.isQuote_char (q : Quote) : isQuote q.char = true := by
  cases q <;> rfl

theorem Quote.utf8Size_char (q : Quote) : q.char.utf8Size = 1 := by
  cases q <;> rfl

theorem isQuote_iff {c : Char} : isQuote c = true ↔ ∃ q : Quote, q.char = c := by
  constructor
  · intro h
    simp only [isQuote, Bool.or_eq_true, decide_eq_true_eq] at h
    rcases h with rfl | rfl
    · exact ⟨.single, rfl⟩
    · exact ⟨.double, rfl⟩
  · intro h
    obtain ⟨q, rfl⟩ := h
    exact q.isQuote_char

theorem Quote.char_ne {q : Quote} {c : Char} (hc : isQuote c = false) : q.char ≠ c := by
  intro hq
  rw [← hq, q.isQuote_char] at hc
  exact Bool.noConfusion hc

/-! ## Skipping in front -/

theorem skipTabs_of_head?_ne {t : Text} (h : t.head? ≠ some '\t') : skipTabs t = t := by
  unfold skipTabs
  split
  · simp at h
  · rfl

theorem skipTabs_tabs_append (n : Nat) {t : Text} (h : t ≠ []) :
    skipTabs (Text.tabs n ++ t) = skipTabs t := by
  induction n with
  | zero => rfl
  | succ n ih =>
    obtain ⟨c, r, hcr⟩ := List.exists_cons_of_ne_nil (List.append_ne_nil_of_right_ne_nil _ h)
    rw [Text.tabs_succ, List.cons_append, hcr, skipTabs, ← hcr]
    exact ih

theorem exists_tabs_skipTabs (t : Text) : ∃ n, t = Text.tabs n ++ skipTabs t := by
  fun_induction skipTabs t with
  | case1 c t ih =>
    obtain ⟨n, hn⟩ := ih
    exact ⟨n + 1, by rw [Text.tabs_succ, List.cons_append, ← hn]⟩
  | case2 t _ => exact ⟨0, rfl⟩

theorem skipTabs_ne_nil {t : Text} (h : t ≠ []) : skipTabs t ≠ [] := by
  fun_induction skipTabs t with
  | case1 c t ih => exact ih (List.cons_ne_nil c t)
  | case2 t _ => exact h

/-- The tabs in front of a word are skipped, if there are any and they are to be skipped. -/
theorem skipTabs_of_tabs_append {tabs : Bool} {n : Nat} {t : Text} (htabs : n = 0 ∨ tabs = true)
    (h : t ≠ []) (hhead : t.head? ≠ some '\t') :
    (if tabs then skipTabs (Text.tabs n ++ t) else Text.tabs n ++ t) = t := by
  have hskip : skipTabs (Text.tabs n ++ t) = t :=
    (skipTabs_tabs_append n h).trans (skipTabs_of_head?_ne hhead)
  rcases htabs with rfl | rfl
  · rw [hskip]
    exact ite_self t
  · exact hskip

theorem skipDollar_of_head?_ne {t : Text} (h : t.head? ≠ some '$') : skipDollar t = t := by
  unfold skipDollar
  split
  · simp at h
  · rfl

/-- A dollar sign goes in front of a double quote. -/
theorem skipDollar_double {t : Text} (h : t ≠ []) : skipDollar ('$' :: '"' :: t) = '"' :: t := by
  obtain ⟨d, r, rfl⟩ := List.exists_cons_of_ne_nil h
  rw [skipDollar, if_pos (Or.inl rfl)]

/-- A dollar sign goes if the word ends in a single quote. -/
theorem skipDollar_of_getLast? {c : Char} {t : Text} (h : t.getLast? = some '\'') :
    skipDollar ('$' :: c :: t) = c :: t := by
  cases t with
  | nil => simp at h
  | cons d r => rw [skipDollar, if_pos (Or.inr h)]

/-- A dollar sign stays in front of anything but a double quote, unless the word ends in a single
quote. -/
theorem skipDollar_eq_self {c : Char} {t : Text} (hc : c ≠ '"') (h : t.getLast? ≠ some '\'') :
    skipDollar ('$' :: c :: t) = '$' :: c :: t := by
  cases t with
  | nil => rfl
  | cons d r =>
    rw [skipDollar, if_neg]
    intro hquote
    rcases hquote with h' | h'
    · exact hc h'
    · exact h h'

/-- What goes with the dollar sign: a double quote stands behind it, or a single quote ends the
word. -/
theorem skipDollar_cases (t : Text) :
    skipDollar t = t ∨
      t = '$' :: skipDollar t ∧ ((skipDollar t).head? = some '"' ∨ t.getLast? = some '\'') := by
  unfold skipDollar
  split
  · next c d t =>
    split
    · next h =>
      refine Or.inr ⟨rfl, ?_⟩
      rcases h with rfl | hlast
      · exact Or.inl rfl
      · exact Or.inr hlast
    · exact Or.inl rfl
  · exact Or.inl rfl

theorem exists_lead_skipDollar (t : Text) : ∃ lead, t = lead ++ skipDollar t := by
  rcases skipDollar_cases t with h | ⟨h, -⟩
  · exact ⟨[], h.symm⟩
  · exact ⟨['$'], h⟩

/-- Where the whole tail behind the tabs and the dollar sign is newlines, so is the word. -/
theorem eq_newlines_of_skipDollar {w : Text} {k : Nat} (h : skipDollar w = newlines k) :
    w = newlines k := by
  rcases skipDollar_cases w with hw | ⟨hw, hquote⟩
  · rw [← hw, h]
  · -- A dollar sign that goes leaves a quote, and a quote is no newline.
    rw [h] at hw hquote
    rcases hquote with hhead | hlast
    · exact absurd (List.eq_of_mem_replicate (List.mem_of_head? hhead)) (by decide)
    · rw [hw] at hlast
      have hmem := List.mem_of_getLast? hlast
      simp at hmem

/-! ## Skipping behind -/

theorem trimEnd_append_newlines {t : Text} (hne : t ≠ []) (hlast : t.getLast? ≠ some '\n')
    (k : Nat) : trimEnd (t ++ newlines k) = t := by
  obtain ⟨c, r, rfl⟩ := List.exists_cons_of_ne_nil hne
  have hr : r.getLast? ≠ some '\n' := by
    intro h
    have hrne : r ≠ [] := by
      intro hnil
      rw [hnil] at h
      simp at h
    exact hlast ((List.getLast?_cons_of_ne_nil hrne).trans h)
  rw [List.cons_append, trimEnd, Text.dropNewlines_append_newlines hr]

theorem trimEnd_concat_newline {t : Text} (h : t ≠ []) : trimEnd (t ++ ['\n']) = trimEnd t := by
  obtain ⟨c, r, rfl⟩ := List.exists_cons_of_ne_nil h
  simp [trimEnd, Text.dropNewlines]

theorem trimEnd_ne_nil {t : Text} (h : t ≠ []) : trimEnd t ≠ [] := by
  obtain ⟨c, r, rfl⟩ := List.exists_cons_of_ne_nil h
  exact List.cons_ne_nil _ _

theorem exists_trimEnd_append (t : Text) : ∃ k, t = trimEnd t ++ newlines k := by
  cases t with
  | nil => exact ⟨0, rfl⟩
  | cons c r =>
    obtain ⟨body, k, rfl, hlast⟩ := Text.exists_append_newlines r
    exact ⟨k, by rw [trimEnd, Text.dropNewlines_append_newlines hlast, List.cons_append]⟩

/-- A front part that does not end in a newline is kept. -/
theorem size_le_size_trimEnd {front : Text} (h : front.getLast? ≠ some '\n') (rest : Text) :
    front.size ≤ (trimEnd (front ++ rest)).size := by
  by_cases hfront : front = []
  · rw [hfront]
    exact Nat.zero_le _
  obtain ⟨body, k, rfl, hbody⟩ := Text.exists_append_newlines rest
  have hlast : (front ++ body).getLast? ≠ some '\n' := by
    by_cases hnil : body = []
    · rwa [hnil, List.append_nil]
    · rwa [List.getLast?_append_of_ne_nil front hnil]
  rw [← List.append_assoc,
    trimEnd_append_newlines (List.append_ne_nil_of_left_ne_nil hfront body) hlast, Text.size_append]
  exact Nat.le_add_right _ _

/-! ## The split of a word -/

/-- The scan of `lead ++ body ++ newlines k` skips `lead` in front and the newlines behind. -/
structure Strips (tabs : Bool) (lead body : Text) (k : Nat) : Prop where
  skip : skipDollar (if tabs then skipTabs (lead ++ (body ++ newlines k))
    else lead ++ (body ++ newlines k)) = body ++ newlines k
  body_ne : body ≠ []
  last : body.getLast? ≠ some '\n'

/-- The same quote stands at both ends of a body. A lone quote is both ends at once. -/
def Quoted (body : Text) : Prop := body.head?.any isQuote = true ∧ body.getLast? = body.head?

instance (body : Text) : Decidable (Quoted body) := inferInstanceAs (Decidable (_ ∧ _))

theorem quoted_between (q : Quote) (w : Text) : Quoted (q.char :: (w ++ [q.char])) := by
  refine ⟨q.isQuote_char, ?_⟩
  rw [← List.cons_append, List.getLast?_concat]
  rfl

theorem exists_quote_cons {body : Text} (h : body.head?.any isQuote = true) :
    ∃ (q : Quote) (r : Text), body = q.char :: r := by
  obtain ⟨c, hhead, hc⟩ := (Option.any_eq_true _ _).1 h
  obtain ⟨q, rfl⟩ := isQuote_iff.1 hc
  obtain ⟨r, hr⟩ := List.head?_eq_some_iff.1 hhead
  exact ⟨q, r, hr⟩

theorem quoted_iff {body : Text} :
    Quoted body ↔ ∃ q : Quote, body = [q.char] ∨ ∃ w, body = q.char :: (w ++ [q.char]) := by
  constructor
  · intro h
    obtain ⟨hq, hlast⟩ := h
    obtain ⟨q, r, rfl⟩ := exists_quote_cons hq
    refine ⟨q, ?_⟩
    rcases List.eq_nil_or_concat r with rfl | ⟨w, c, rfl⟩
    · exact Or.inl rfl
    · rw [List.concat_eq_append] at hlast ⊢
      rw [← List.cons_append, List.getLast?_concat, List.cons_append, List.head?_cons,
        Option.some.injEq] at hlast
      exact Or.inr ⟨w, by rw [hlast]⟩
  · intro h
    obtain ⟨q, hbody⟩ := h
    rcases hbody with rfl | ⟨w, rfl⟩
    · exact ⟨q.isQuote_char, rfl⟩
    · exact quoted_between q w

/-- The span of a word, in the sizes of its pieces. -/
theorem bareSpan_eq {tabs : Bool} {lead body : Text} {k : Nat} (h : Strips tabs lead body k) :
    bareSpan (lead ++ (body ++ newlines k)) tabs =
      if Quoted body then ⟨lead.size + 1, lead.size + body.size - 1⟩
      else ⟨lead.size, lead.size + body.size⟩ := by
  obtain ⟨c, r, rfl⟩ := List.exists_cons_of_ne_nil h.body_ne
  have hlast : (lead ++ c :: r).getLast? = (c :: r).getLast? :=
    List.getLast?_append_of_ne_nil lead h.body_ne
  have hkept : trimEnd (lead ++ (c :: r ++ newlines k)) = lead ++ c :: r := by
    rw [← List.append_assoc]
    exact trimEnd_append_newlines (List.append_ne_nil_of_right_ne_nil _ h.body_ne)
      (hlast ▸ h.last) k
  have hlead : Text.size (lead ++ (c :: r ++ newlines k)) - Text.size (c :: r ++ newlines k) =
      lead.size := by
    rw [Text.size_append, Nat.add_sub_cancel]
  have hhead : (c :: r ++ newlines k).head? = (c :: r).head? := rfl
  have hcond : ((c :: r).head?.any isQuote && (c :: r).getLast? = (c :: r).head?) = true ↔
      Quoted (c :: r) := by
    rw [Bool.and_eq_true, decide_eq_true_eq, Quoted]
  unfold bareSpan
  simp only [h.skip, hkept, hlead, hhead, hlast]
  rw [Text.size_append]
  by_cases hq : Quoted (c :: r)
  · rw [if_pos (hcond.2 hq), if_pos hq]
  · rw [if_neg (fun hc => hq (hcond.1 hc)), if_neg hq]

/-! ## Escaped words -/

/-- A word that is a backslash with something behind it. -/
def Escaped (raw : Text) : Prop := ∃ w, w ≠ [] ∧ raw = '\\' :: w

theorem span_escaped {w : Text} (h : w ≠ []) (tabs : Bool) :
    span ('\\' :: w) tabs = ⟨1, Text.size ('\\' :: w)⟩ := by
  obtain ⟨c, r, rfl⟩ := List.exists_cons_of_ne_nil h
  rfl

theorem span_eq_bareSpan {raw : Text} (hlen : 2 ≤ raw.length) (h : ¬ Escaped raw) (tabs : Bool) :
    span raw tabs = bareSpan raw tabs := by
  unfold span
  split
  · simp at hlen
  · simp at hlen
  · next w hne =>
    refine absurd ⟨w, ?_, rfl⟩ h
    intro hw
    subst hw
    exact hne rfl
  · rfl

/-! ## Cuts -/

theorem cut?_span_escaped {w : Text} (h : w ≠ []) (tabs : Bool) :
    (span ('\\' :: w) tabs).cut? ('\\' :: w) = some ⟨['\\'], w, []⟩ := by
  rw [span_escaped h]
  have hcut := ByteSpan.cut?_append ['\\'] w [] h
  rw [List.append_nil] at hcut
  exact hcut

variable {tabs : Bool} {lead body : Text} {k : Nat}

theorem cut?_span_of_bare (h : Strips tabs lead body k) (hq : ¬ Quoted body)
    (hesc : ¬ Escaped (lead ++ (body ++ newlines k))) :
    (span (lead ++ (body ++ newlines k)) tabs).cut? (lead ++ (body ++ newlines k)) =
      some ⟨lead, body, newlines k⟩ := by
  have hspan : span (lead ++ (body ++ newlines k)) tabs = ⟨lead.size, lead.size + body.size⟩ := by
    by_cases hlen : 2 ≤ (lead ++ (body ++ newlines k)).length
    · rw [span_eq_bareSpan hlen hesc, bareSpan_eq h, if_neg hq]
    · -- A word of one character is all body.
      have hbody := List.length_pos_iff.2 h.body_ne
      simp only [List.length_append, List.length_replicate] at hlen
      obtain rfl : lead = [] := List.length_eq_zero_iff.1 (by omega)
      obtain rfl : k = 0 := by omega
      obtain ⟨c, rfl⟩ := List.length_eq_one_iff.1 (show body.length = 1 by omega)
      simp [span]
  rw [hspan, ← List.append_assoc]
  exact ByteSpan.cut?_append lead body (newlines k) h.body_ne

theorem cut?_span_of_quoted {q : Quote} {w : Text} (hw : w ≠ [])
    (h : Strips tabs lead (q.char :: (w ++ [q.char])) k)
    (hesc : ¬ Escaped (lead ++ (q.char :: (w ++ [q.char]) ++ newlines k))) :
    (span (lead ++ (q.char :: (w ++ [q.char]) ++ newlines k)) tabs).cut?
        (lead ++ (q.char :: (w ++ [q.char]) ++ newlines k)) =
      some ⟨lead ++ [q.char], w, q.char :: newlines k⟩ := by
  have hlen : 2 ≤ (lead ++ (q.char :: (w ++ [q.char]) ++ newlines k)).length := by
    simp only [List.length_append, List.length_cons]
    omega
  have hspan : span (lead ++ (q.char :: (w ++ [q.char]) ++ newlines k)) tabs =
      ⟨Text.size (lead ++ [q.char]), Text.size (lead ++ [q.char]) + w.size⟩ := by
    rw [span_eq_bareSpan hlen hesc, bareSpan_eq h, if_pos (quoted_between q w)]
    simp only [Text.size_append, Text.size_cons, Text.size_nil, q.utf8Size_char]
    congr 1
    omega
  have hword : lead ++ (q.char :: (w ++ [q.char]) ++ newlines k) =
      lead ++ [q.char] ++ w ++ q.char :: newlines k := by
    simp
  rw [hspan, hword]
  exact ByteSpan.cut?_append (lead ++ [q.char]) w (q.char :: newlines k) hw

/-- The span of one or two quotes covers nothing. -/
theorem stop_span_of_hollow (h : Strips tabs lead body k) (hq : Quoted body)
    (hbody : body.length ≤ 2) (hlen : 2 ≤ (lead ++ (body ++ newlines k)).length)
    (hesc : ¬ Escaped (lead ++ (body ++ newlines k))) :
    (span (lead ++ (body ++ newlines k)) tabs).stop ≤
      (span (lead ++ (body ++ newlines k)) tabs).start := by
  have hsize : body.size ≤ 2 := by
    obtain ⟨q, rfl | ⟨w, rfl⟩⟩ := quoted_iff.1 hq
    · simp [q.utf8Size_char]
    · simp only [List.length_cons, List.length_append, List.length_nil] at hbody
      obtain rfl : w = [] := List.length_eq_zero_iff.1 (by omega)
      simp [q.utf8Size_char]
  rw [span_eq_bareSpan hlen hesc, bareSpan_eq h, if_pos hq]
  simp only
  omega

theorem cut?_span_of_hollow (h : Strips tabs lead body k) (hq : Quoted body)
    (hbody : body.length ≤ 2) (hlen : 2 ≤ (lead ++ (body ++ newlines k)).length)
    (hesc : ¬ Escaped (lead ++ (body ++ newlines k))) :
    (span (lead ++ (body ++ newlines k)) tabs).cut? (lead ++ (body ++ newlines k)) = none :=
  ByteSpan.cut?_eq_none_of_le (stop_span_of_hollow h hq hbody hlen hesc) _

end ShellLexing.Delimiter
