import Mathlib.Data.List.Induction
import ShellLexing.Proofs.Delimiter.Front
import ShellLexing.Proofs.Text.Bytes

/-!
# The scan of the bytes is safe

`Delimiter.scan?` moves offsets over the bytes of a word, and has no result if it asks for a byte
that does not exist or takes more from an offset than there is.

**Theorem (`scan?_bytes`).** For every word the scan of its bytes has a result, and it is the span
of the word.

Each part of the scan is tied to the part of `Delimiter.span` that does the same on characters. An
offset is the size of what has been passed, so the bytes that are looked at stand where a character
begins or ends, and show what this character is as far as ASCII goes (`Text.Shows`). In a longer
character nothing is passed.
-/

namespace ShellLexing.Delimiter

open Text (newlines)

/-! ## From the front -/

theorem passTabs?_bytes (front : Text) {t : Text} (ht : t ≠ []) :
    passTabs? (Text.bytes (front ++ t)) (Text.size (front ++ t) - 1) front.size =
      some (Text.size (front ++ t) - (skipTabs t).size) := by
  have htab : '\t'.utf8Size = 1 := rfl
  fun_induction skipTabs t generalizing front with
  | case1 c t ih =>
    -- The tab is passed and belongs to the front part from now on.
    have hfront : Text.size (front ++ ['\t']) = front.size + 1 := Text.size_append front ['\t']
    have hlt : front.size < Text.size (front ++ '\t' :: c :: t) - 1 := by
      have hpos := c.utf8Size_pos
      simp only [Text.size_append, Text.size_cons, htab]
      omega
    obtain ⟨b, hb, hshows⟩ := Text.exists_byte_behind front ht
    have htabbed : b = '\t'.toUInt8 := (hshows '\t' rfl).2 rfl
    have hrest := ih (front ++ ['\t']) (List.cons_ne_nil c t)
    rw [hfront, ← List.append_cons] at hrest
    rw [passTabs?, if_pos hlt, hb, Option.bind_eq_bind, Option.bind_some, if_pos htabbed, hrest]
  | case2 t hlong =>
    rw [Text.size_append, Nat.add_sub_cancel, ← Text.size_append, passTabs?]
    split
    · next hlt =>
      obtain ⟨b, hb, hshows⟩ := Text.exists_byte_behind front ht
      have hhead : t.head? ≠ some '\t' := by
        intro hhead
        obtain ⟨r, rfl⟩ := List.head?_eq_some_iff.1 hhead
        cases r with
        | nil => simp [htab] at hlt
        | cons c r => exact hlong c r rfl
      rw [hb, Option.bind_eq_bind, Option.bind_some,
        if_neg (fun h => hhead ((hshows '\t' rfl).1 h))]
      rfl
    · rfl

theorem dollar?_bytes (front : Text) {word : Text} (hword : word ≠ []) :
    dollar? (Text.bytes (front ++ word)) front.size (Text.size (front ++ word) - 1) =
      some (decide (Introduces word)) := by
  obtain ⟨first, hfirst, hfirstShows⟩ := Text.exists_byte_behind front hword
  have hdollar : first = '$'.toUInt8 ∧ front.size + 2 < (Text.bytes (front ++ word)).length ↔
      word.head? = some '$' ∧ 3 ≤ word.size := by
    rw [hfirstShows '$' rfl, Text.length_bytes, Text.size_append]
    exact and_congr_right fun _ => by omega
  rw [dollar?, hfirst, Option.bind_eq_bind, Option.bind_some]
  by_cases h : word.head? = some '$' ∧ 3 ≤ word.size
  · rw [if_pos (hdollar.2 h)]
    obtain ⟨r, rfl⟩ := List.head?_eq_some_iff.1 h.1
    have hr : r ≠ [] := by
      rintro rfl
      exact absurd h.2 (by decide)
    obtain ⟨second, hsecond, hsecondShows⟩ := Text.exists_byte_after front (a := '$') rfl hr
    obtain ⟨last, hlast, hlastShows⟩ :=
      Text.exists_byte_before (List.append_ne_nil_of_right_ne_nil front hword) []
    rw [List.append_nil] at hlast
    rw [List.getLast?_append_of_ne_nil front hword] at hlastShows
    have hquote : Introduces ('$' :: r) ↔ second = '"'.toUInt8 ∨ last = '\''.toUInt8 := by
      rw [hsecondShows '"' rfl, hlastShows '\'' rfl, Introduces, and_iff_right h.1,
        and_iff_right h.2, List.getElem?_cons_succ, List.head?_eq_getElem?]
    rw [hsecond, hlast]
    simp only [Option.bind_some]
    by_cases hdouble : second = '"'.toUInt8
    · rw [if_pos hdouble, decide_eq_true (hquote.2 (Or.inl hdouble))]
      rfl
    · rw [if_neg hdouble]
      refine congrArg some (decide_eq_decide.2 ?_)
      rw [hquote, or_iff_right hdouble]
  · rw [if_neg fun hbytes => h (hdollar.1 hbytes), decide_eq_false fun hi => h ⟨hi.1, hi.2.1⟩]
    rfl

theorem behindTabs?_bytes {raw : Text} (hne : raw ≠ []) (tabs : Bool) :
    behindTabs? raw.bytes (raw.size - 1) tabs = some (raw.size - (untabbed tabs raw).size) := by
  rw [← skipTabs_eq_untabbed]
  cases tabs with
  | false => exact congrArg some (Nat.sub_self _).symm
  | true => exact passTabs?_bytes [] hne

/-- The offset in front moves past what the scan of the characters skips. -/
theorem front?_bytes {raw : Text} (hne : raw ≠ []) (tabs : Bool) :
    ∃ count, front? raw.bytes (raw.size - 1) tabs = some (skipped tabs raw, count) ∧ 0 < count := by
  obtain ⟨front, hfront⟩ := exists_append_untabbed tabs raw
  have hsize : raw.size = front.size + (untabbed tabs raw).size := by
    rw [← Text.size_append, ← hfront]
  have hstart : raw.size - (untabbed tabs raw).size = front.size := by omega
  have hdollar := dollar?_bytes front (untabbed_ne_nil hne tabs)
  rw [← hfront] at hdollar
  simp only [front?, behindTabs?_bytes hne, hstart, hdollar, Option.bind_eq_bind, Option.bind_some,
    Text.length_bytes, skipped_eq]
  by_cases h : Introduces (untabbed tabs raw)
  · have hthree := h.2.1
    refine ⟨raw.size - 1, ?_, by omega⟩
    rw [decide_eq_true h, if_pos rfl, if_pos h, minus?, if_pos (by omega)]
    rfl
  · refine ⟨raw.size, ?_, Text.size_pos hne⟩
    rw [decide_eq_false h, if_neg Bool.false_ne_true, if_neg h]
    rfl

/-! ## From behind -/

/-- The offset behind moves down past what the scan of the characters drops. -/
theorem passNewlines?_bytes {t : Text} (ht : t ≠ []) (rest : Text) :
    passNewlines? (Text.bytes (t ++ rest)) (t.size - 1) = some ((trimEnd t).size - 1) := by
  induction t using List.reverseRecOn generalizing rest with
  | nil => exact absurd rfl ht
  | append_singleton s c ih =>
    obtain ⟨b, hb, hshows⟩ := Text.exists_byte_before ht rest
    rw [List.getLast?_concat] at hshows
    by_cases hc : c = '\n'
    · subst hc
      have hsize : Text.size (s ++ ['\n']) = Text.size s + 1 := Text.size_append s ['\n']
      by_cases hs : s = []
      · subst hs
        rfl
      · -- The newline is passed, and from now on belongs to what is behind.
        have hpos := Text.size_pos hs
        have hstop : Text.size (s ++ ['\n']) - 1 = Text.size s - 1 + 1 := by omega
        have hrest := ih hs ('\n' :: rest)
        rw [hstop] at hb ⊢
        rw [passNewlines?, hb, Option.bind_eq_bind, Option.bind_some, if_pos ((hshows '\n' rfl).2 rfl),
          trimEnd_concat_newline hs, List.append_assoc]
        exact hrest
    · have hkept : trimEnd (s ++ [c]) = s ++ [c] := by
        simpa using trimEnd_append_newlines ht (by simpa using hc) 0
      rw [hkept]
      cases hstop : Text.size (s ++ [c]) - 1 with
      | zero => rfl
      | succ stop =>
        have hbyte : b ≠ '\n'.toUInt8 := fun h => hc (Option.some.inj ((hshows '\n' rfl).1 h))
        rw [hstop] at hb
        rw [passNewlines?, hb, Option.bind_eq_bind, Option.bind_some, if_neg hbyte]
        rfl

/-! ## The span -/

theorem quote_shows {b : UInt8} {c? : Option Char} (h : Text.Shows b c?) :
    b = '\''.toUInt8 ∨ b = '"'.toUInt8 ↔ c?.any isQuote = true := by
  rw [h '\'' rfl, h '"' rfl]
  cases c? <;> simp [isQuote]

theorem quoted?_bytes {raw : Text} (hne : raw ≠ []) (tabs : Bool) :
    quoted? raw.bytes (skipped tabs raw) ((trimEnd raw).size - 1) =
      some (decide (Framed tabs raw)) := by
  obtain ⟨front, hfront, -⟩ := exists_append_remainder tabs raw
  obtain ⟨k, hk⟩ := exists_trimEnd_append raw
  obtain ⟨first, hfirst, hfirstShows⟩ := Text.exists_byte_behind front (remainder_ne_nil hne tabs)
  obtain ⟨last, hlast, hlastShows⟩ := Text.exists_byte_before (trimEnd_ne_nil hne) (newlines k)
  rw [← hfront, size_of_append_remainder hfront] at hfirst
  rw [← hk] at hlast
  rw [quoted?, hfirst, hlast]
  simp only [Option.bind_eq_bind, Option.bind_some]
  by_cases hquote : (remainder tabs raw).head?.any isQuote = true
  · rw [if_pos ((quote_shows hfirstShows).2 hquote)]
    refine congrArg some (decide_eq_decide.2 ?_)
    rw [Framed, and_iff_right hquote]
    obtain ⟨q, r, hr⟩ := exists_quote_cons hquote
    have hhead : (remainder tabs raw).head? = some q.char := congrArg List.head? hr
    rw [(hfirstShows q.char q.utf8Size_char).2 hhead, hlastShows q.char q.utf8Size_char, hhead]
  · rw [if_neg fun h => hquote ((quote_shows hfirstShows).1 h),
      decide_eq_false fun h => hquote h.1]
    rfl

theorem unquote?_bytes {raw : Text} (hne : raw ≠ []) (tabs : Bool) :
    unquote? raw.bytes (skipped tabs raw) ((trimEnd raw).size - 1) = some (bareSpan raw tabs) := by
  have hpos := Text.size_pos (trimEnd_ne_nil hne)
  rw [unquote?, quoted?_bytes hne, Option.bind_eq_bind, Option.bind_some]
  by_cases h : Framed tabs raw
  · rw [decide_eq_true h, if_pos rfl, bareSpan_of_framed h, minus?]
    by_cases hlone : 1 ≤ (trimEnd raw).size - 1
    · rw [if_pos hlone]
      exact congrArg (fun stop => some (⟨skipped tabs raw + 1, stop⟩ : ByteSpan))
        (Nat.sub_add_cancel hlone)
    · rw [if_neg hlone, Nat.lt_one_iff.1 (Nat.not_le.1 hlone)]
      rfl
  · rw [decide_eq_false h, if_neg Bool.false_ne_true, bareSpan_of_not_framed h,
      Nat.sub_add_cancel hpos]
    rfl

theorem scanBare?_bytes {raw : Text} (hne : raw ≠ []) (tabs : Bool) :
    scanBare? raw.bytes tabs = some (bareSpan raw tabs) := by
  have hpos := Text.size_pos hne
  obtain ⟨count, hfront, hcount⟩ := front?_bytes hne tabs
  have hstop := passNewlines?_bytes hne []
  rw [List.append_nil] at hstop
  have hlast : minus? raw.bytes.length 1 = some (raw.size - 1) := by
    rw [Text.length_bytes]
    exact if_pos hpos
  simp only [scanBare?, hlast, hfront, hstop, Option.bind_eq_bind, Option.bind_some]
  rw [if_pos hcount]
  exact unquote?_bytes hne tabs

theorem span_of_size_eq_one {raw : Text} (h : raw.size = 1) (tabs : Bool) :
    span raw tabs = ⟨0, 1⟩ := by
  rcases raw with _ | ⟨c, _ | ⟨d, r⟩⟩
  · cases h
  · exact congrArg (ByteSpan.mk 0) h
  · have hc := c.utf8Size_pos
    have hd := d.utf8Size_pos
    simp only [Text.size_cons] at h
    omega

/-- **The scan of the bytes is safe.** It has a result for every word, and this is the span of the
word. -/
theorem scan?_bytes (raw : Text) (tabs : Bool) : scan? raw.bytes tabs = some (span raw tabs) := by
  unfold scan?
  rw [Text.length_bytes]
  split
  · next hsize =>
    have hnil : raw = [] := by
      by_contra hne
      exact absurd hsize (Nat.ne_of_gt (Text.size_pos hne))
    rw [hnil]
    rfl
  · next hsize => rw [span_of_size_eq_one hsize]
  · next hzero hone =>
    have hne : raw ≠ [] := fun hnil => hzero (congrArg Text.size hnil)
    obtain ⟨first, hfirst, hshows⟩ := Text.exists_byte_behind [] hne
    have hfirst : raw.bytes[0]? = some first := hfirst
    rw [hfirst, Option.bind_eq_bind, Option.bind_some]
    by_cases hhead : raw.head? = some '\\'
    · obtain ⟨w, rfl⟩ := List.head?_eq_some_iff.1 hhead
      have hw : w ≠ [] := fun hnil => hone (by rw [hnil]; rfl)
      rw [if_pos ((hshows '\\' rfl).2 rfl), span_escaped hw]
      rfl
    · have hquote : ¬ ∃ q : Quote, raw = [q.char] := by
        rintro ⟨q, rfl⟩
        exact hone q.utf8Size_char
      rw [if_neg fun h => hhead ((hshows '\\' rfl).1 h), scanBare?_bytes hne,
        span_eq_bareSpan_of_not_quote hne hhead hquote]

end ShellLexing.Delimiter
