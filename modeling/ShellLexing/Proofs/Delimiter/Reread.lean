import ShellLexing.Proofs.Delimiter.Decoration
import ShellLexing.Proofs.Delimiter.Rename

/-!
# Reading and renaming a renamed word

A rename replaces the marker of a word. Here the word is any text. It may have quotes that do
not match, or nothing but quotes, tabs or newlines, and the rename may have to drop all of it.

**What a rename writes** (`exists_written`). Whatever the word is, the rename writes every name
in one and the same style, with the same tabs and newlines around it. There is one exception: a
word with a dollar sign directly in front of the replaced marker (`Behind`). The dollar sign was
skipped because of quotes, and these quotes are in the marker and go with it. The style is
steady, which is to say that it can be read off the new word again.

**Reading back** (`marker_rename`). The marker of the renamed word is the new name, if the name
does not look like decoration. Between quotes it may be any text but the empty one.

**The last name wins** (`rename_rename`). Under the same conditions a second rename is as good
as if the first had not been made.
-/

namespace ShellLexing.Delimiter

open Text (newlines)

/-! ## The character in front of the marker -/

/-- The marker that a rename replaces stands directly behind the character `c`. -/
def Behind (raw : Text) (c : Char) : Prop :=
  (span raw true).start < (span raw true).stop ∧
    (raw.splitAt? (span raw true).start).bind (·.1.getLast?) = some c

instance (raw : Text) (c : Char) : Decidable (Behind raw c) := inferInstanceAs (Decidable (_ ∧ _))

theorem behind_iff_of_cut? {raw : Text} {cut : Cut} (h : (span raw true).cut? raw = some cut)
    (c : Char) : Behind raw c ↔ cut.before.getLast? = some c := by
  obtain ⟨hwhole, hstart, -⟩ := ByteSpan.whole_of_cut? h
  have hraw : raw = cut.before ++ (cut.inside ++ cut.after) := by
    rw [← hwhole, Cut.whole, List.append_assoc]
  have hsplit : raw.splitAt? (span raw true).start =
      some (cut.before, cut.inside ++ cut.after) := by
    rw [← hstart]
    conv_lhs => rw [hraw]
    exact Text.splitAt?_append _ _
  rw [Behind, hsplit]
  exact and_iff_right (exists_cut?_iff.1 ⟨cut, h⟩)

theorem Behind.unique {raw : Text} {c d : Char} (hc : Behind raw c) (hd : Behind raw d) : c = d :=
  Option.some.inj (hc.2.symm.trans hd.2)

/-! ## Steady styles -/

namespace Style

variable {s : Style} {t k : Nat} {w : Text}

/-- The style with these tabs and newlines can be read off a word again. -/
def Steady (s : Style) (t k : Nat) : Prop :=
  match s with
  | .bare | .quoted _ => True
  | .escaped => t = 0 ∧ k = 0
  | .dollar q => q = .single → k = 0

/-- The style puts quotes around the marker. -/
def Quotes (s : Style) : Prop := ∃ q, s = quoted q ∨ s = dollar q

/-- A text that can be written in the style without being taken for decoration. -/
def Bears (s : Style) (w : Text) : Prop := Plain w ∨ w ≠ [] ∧ s.Quotes

theorem Bears.ne (h : s.Bears w) : w ≠ [] := h.elim Plain.ne And.left

theorem Steady.exact (hs : s.Steady t k) (hw : s.Bears w) : s.Exact t w k := by
  cases s with
  | bare => exact hw.resolve_right fun h => by simp [Quotes] at h
  | escaped => exact hs
  | quoted q => trivial
  | dollar q => exact hs

theorem Steady.readable (hs : s.Steady t k) (hw : s.Bears w) : s.Readable t w k := by
  cases s with
  | bare => exact hw.resolve_right fun h => by simp [Quotes] at h
  | escaped =>
    have hplain : Plain w := hw.resolve_right fun h => by simp [Quotes] at h
    exact ⟨hs.1, Nat.le_succ_of_le (Nat.le_of_eq hs.2), hplain.last⟩
  | quoted q => trivial
  | dollar q =>
    cases q with
    | single => exact Nat.le_succ_of_le (Nat.le_of_eq (hs rfl))
    | double => trivial

end Style

/-! ## What a rename writes -/

theorem rename_of_stop_le {raw : Text} (h : (span raw true).stop ≤ (span raw true).start)
    (name : Text) : rename raw name = name := by
  rw [rename, ByteSpan.cut?_eq_none_of_le h]

/-- A quote that goes together with a dollar sign is a double one, or no newline follows. -/
theorem Decoration.Fits.newlines_eq_zero {d : Decoration} {tabs : Bool} {w word : Text}
    (h : d.Fits tabs word w) (hword : word = d.opening ++ w ++ d.closing)
    (hdollar : d.dollar = true) (hquote : d.quote = some .single) : d.newlines = 0 := by
  have hquotation : d.quotation = ['\''] := by
    rw [Decoration.quotation, hquote]
    rfl
  rcases h.dollar hdollar with hhead | hlast
  · rw [hquotation] at hhead
    exact absurd (Option.some.inj hhead) (by decide)
  · by_contra hk
    rw [hword, Decoration.closing, hquotation, ← List.append_assoc, List.getLast?_append,
      Text.getLast?_newlines, if_neg hk, Option.some_or] at hlast
    exact absurd (Option.some.inj hlast) (by decide)

theorem Decoration.exists_style {d : Decoration} {tabs : Bool} {w word : Text}
    (h : d.Fits tabs word w) (hword : word = d.opening ++ w ++ d.closing)
    (hd : d.opening.getLast? ≠ some '$') :
    ∃ s : Style, s.Steady d.tabs d.newlines ∧
      (∀ name, d.opening ++ name ++ d.closing = s.write d.tabs name d.newlines) ∧
      ∀ q : Quote, d.opening.getLast? = some q.char → s.Quotes := by
  obtain ⟨n, dollar, quote, k⟩ := d
  cases quote with
  | none =>
    cases dollar with
    | true => simp [opening, quotation] at hd
    | false =>
      refine ⟨.bare, trivial, fun name => ?_, fun q hq => ?_⟩
      · simp [opening, closing, quotation]
      · -- A tab is no quote.
        have hmem : q.char ∈ Text.tabs n := by
          simpa [opening, quotation] using List.mem_of_getLast? hq
        exact absurd (List.eq_of_mem_replicate hmem) (Quote.char_ne rfl)
  | some q =>
    cases dollar with
    | false =>
      refine ⟨.quoted q, trivial, fun name => ?_, fun _ _ => ⟨q, Or.inl rfl⟩⟩
      simp [opening, closing, quotation]
    | true =>
      refine ⟨.dollar q, fun hq => ?_, fun name => ?_, fun _ _ => ⟨q, Or.inr rfl⟩⟩
      · exact h.newlines_eq_zero hword rfl (congrArg some hq)
      · simp [opening, closing, quotation]

theorem exists_written {raw : Text} (h : ¬ Behind raw '$') :
    ∃ (s : Style) (t k : Nat), s.Steady t k ∧ (∀ name, rename raw name = s.write t name k) ∧
      ∀ q : Quote, Behind raw q.char → s.Quotes := by
  rcases cut_or_stop_le raw true with ⟨cut, hcut, htrimmed⟩ | hle
  · have hbehind := behind_iff_of_cut? hcut
    have hword := (ByteSpan.whole_of_cut? hcut).1.symm
    rw [hbehind] at h
    simp only [hbehind, rename_of_cut? hcut]
    cases htrimmed with
    | escaped w =>
      refine ⟨.escaped, 0, 0, ⟨rfl, rfl⟩, fun name => by simp, fun q hq => ?_⟩
      exact absurd (Option.some.inj hq).symm (Quote.char_ne rfl)
    | decorated d w hfits =>
      obtain ⟨s, hs⟩ := Decoration.exists_style hfits hword h
      exact ⟨s, d.tabs, d.newlines, hs⟩
  · -- The bare name is all that is written.
    refine ⟨.bare, 0, 0, trivial, fun name => ?_, fun q hq => absurd hq.1 (Nat.not_lt.2 hle)⟩
    rw [rename_of_stop_le hle]
    simp

/-! ## Reading back and renaming again -/

/-- In the renamed word the name can be told from the decoration. It is a plain name, and the
replaced marker does not stand behind a dollar sign; or it is any name but the empty one, and the
replaced marker stands behind a quote. -/
def Recognizable (raw name : Text) : Prop :=
  Plain name ∧ ¬ Behind raw '$' ∨ name ≠ [] ∧ ∃ q : Quote, Behind raw q.char

theorem Recognizable.exists_written {raw name : Text} (h : Recognizable raw name) :
    ∃ (s : Style) (t k : Nat), s.Steady t k ∧ s.Bears name ∧
      ∀ name, rename raw name = s.write t name k := by
  rcases h with ⟨hname, hdollar⟩ | ⟨hname, q, hq⟩
  · obtain ⟨s, t, k, hs, hwrite, -⟩ := Delimiter.exists_written hdollar
    exact ⟨s, t, k, hs, Or.inl hname, hwrite⟩
  · have hdollar : ¬ Behind raw '$' := fun hd => Quote.char_ne rfl (hq.unique hd)
    obtain ⟨s, t, k, hs, hwrite, hquotes⟩ := Delimiter.exists_written hdollar
    exact ⟨s, t, k, hs, Or.inr ⟨hname, hquotes q hq⟩, hwrite⟩

/-- **Reading back.** The marker of a renamed word is the new name. -/
theorem marker_rename {raw name : Text} (h : Recognizable raw name) :
    marker (rename raw name) true = name := by
  obtain ⟨s, t, k, hs, hname, hwrite⟩ := h.exists_written
  have hread := hs.readable hname
  rw [hwrite]
  exact marker_of_cut? (dropNewline_write hname.ne hread)
    (cut?_span_write (Or.inr rfl) hname.ne hread.exact_pred)

/-- A plain name replaces a quote without a partner, and between quotes even a tab, a quote and a
newline make a name. -/
theorem marker_rename_two_names :
    Recognizable ['\t', '\'', 'a', '\n', '\n'] ['é', '$'] ∧
      marker (rename ['\t', '\'', 'a', '\n', '\n'] ['é', '$']) true = ['é', '$'] ∧
      Recognizable ['\t', '$', '"', 'a', '"', '\n'] ['\t', '\'', '\n'] ∧
      marker (rename ['\t', '$', '"', 'a', '"', '\n'] ['\t', '\'', '\n']) true =
        ['\t', '\'', '\n'] := by
  have hplain : Recognizable ['\t', '\'', 'a', '\n', '\n'] ['é', '$'] :=
    Or.inl ⟨⟨List.cons_ne_nil _ _, by decide, by decide⟩, by decide⟩
  have hquoted : Recognizable ['\t', '$', '"', 'a', '"', '\n'] ['\t', '\'', '\n'] :=
    Or.inr ⟨List.cons_ne_nil _ _, .double, by decide⟩
  exact ⟨hplain, marker_rename hplain, hquoted, marker_rename hquoted⟩

/-- **The last name wins.** A rename before another one makes no difference, if the name that it
wrote can be told from the decoration. -/
theorem rename_rename {raw name : Text} (h : Recognizable raw name) (last : Text) :
    rename (rename raw name) last = rename raw last := by
  obtain ⟨s, t, k, hs, hname, hwrite⟩ := h.exists_written
  rw [hwrite, hwrite, rename_write_of_exact hname.ne (hs.exact hname)]

/-- The lone quote and its newline are dropped by the first rename already, and the quotes around a
name that is itself a quote stay. -/
theorem rename_rename_lone_quote :
    Recognizable ['\'', '\n'] ['a'] ∧
      rename (rename ['\'', '\n'] ['a']) ['$'] = rename ['\'', '\n'] ['$'] ∧
      rename (rename ['\'', '\n'] ['a']) ['$'] = ['$'] ∧
      Recognizable ['$', '\'', 'a', '\''] ['\''] ∧
      rename (rename ['$', '\'', 'a', '\''] ['\'']) [] = rename ['$', '\'', 'a', '\''] [] ∧
      rename (rename ['$', '\'', 'a', '\''] ['\'']) [] = ['$', '\'', '\''] := by
  have hplain : Recognizable ['\'', '\n'] ['a'] :=
    Or.inl ⟨⟨List.cons_ne_nil _ _, by decide, by decide⟩, by decide⟩
  have hquoted : Recognizable ['$', '\'', 'a', '\''] ['\''] :=
    Or.inr ⟨List.cons_ne_nil _ _, .single, by decide⟩
  have hbare := rename_rename hplain ['$']
  have hempty := rename_rename hquoted []
  exact ⟨hplain, hbare, hbare.trans (by decide), hquoted, hempty, hempty.trans (by decide)⟩

end ShellLexing.Delimiter
