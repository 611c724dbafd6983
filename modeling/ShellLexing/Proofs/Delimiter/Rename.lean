import ShellLexing.Proofs.Delimiter.Style

/-!
# Renaming a marker

A rename puts another name in place of the marker. Here the word was written in a style, and the
old and the new name hold no character that decoration uses.

The span that is replaced is that of the word with its newlines, so two styles do not bear a
newline behind them. A backslash makes the newline part of the marker, and it is lost. A dollar
sign in front of single quotes is not recognized, and then the dollar sign and the quotes are part
of the marker.

**Main result** (`rename_write`). A rename keeps the decoration except in these two styles with a
newline. Only in the second can it turn a literal here-document into an expanded one.
-/

namespace ShellLexing.Delimiter

open Text (newlines)

/-! ## Literal words -/

theorem expands_cons (c : Char) (w : Text) : expands (c :: w) = !isMark c := by
  unfold expands
  by_cases hw : w = []
  · subst hw
    by_cases hc : c = '\n'
    · subst hc
      rfl
    · rw [Text.dropNewline_eq_self (by simpa using hc)]
      rfl
  · rw [← List.singleton_append, Text.dropNewline_append hw]
    rfl

theorem expands_eq (w : Text) : expands w = !w.head?.any isMark := by
  cases w with
  | nil => rfl
  | cons c w => exact expands_cons c w

theorem expands_of_head? {w : Text} (h : w.head?.any isMark = false) : expands w = true := by
  rw [expands_eq, h]
  rfl

theorem expands_tabs_append {t : Nat} (ht : t ≠ 0) (w : Text) :
    expands (Text.tabs t ++ w) = true := by
  obtain ⟨n, rfl⟩ := Nat.exists_eq_succ_of_ne_zero ht
  exact expands_of_head? rfl

theorem expands_of_plain {w : Text} (h : Plain w) (r : Text) : expands (w ++ r) = true := by
  obtain ⟨c, w, rfl⟩ := List.exists_cons_of_ne_nil h.ne
  have hc : isDecoration c = false := h.head
  have hmark : isMark c = false := (Bool.or_eq_false_iff.1 hc).1
  exact expands_of_head? hmark

/-- A written word makes its here-document literal in every style but the bare one, if no tab
stands in front. -/
theorem expands_write_eq_false_iff {s : Style} {t k : Nat} {w : Text} (hw : Plain w) :
    expands (s.write t w k) = false ↔ t = 0 ∧ s ≠ .bare := by
  by_cases ht : t = 0
  · subst ht
    cases s with
    | bare =>
      have hexp := expands_of_plain hw (newlines k)
      simp [hexp]
    | escaped | dollar q =>
      refine iff_of_true (expands_cons _ _) ⟨rfl, by simp⟩
    | quoted q =>
      refine iff_of_true ((expands_cons q.char _).trans ?_) ⟨rfl, by simp⟩
      cases q <;> rfl
  · rw [Style.write, expands_tabs_append ht]
    simp [ht]

/-! ## Names without decoration -/

/-- A name in which no character is a newline or can begin decoration. -/
structure Undecorated (w : Text) : Prop where
  ne : w ≠ []
  chars : ∀ c ∈ w, isDecoration c = false ∧ c ≠ '\n'

theorem Undecorated.last {w : Text} (h : Undecorated w) : w.getLast? ≠ some '\n' :=
  fun hlast => (h.chars '\n' (List.mem_of_getLast? hlast)).2 rfl

theorem Undecorated.plain {w : Text} (h : Undecorated w) : Plain w := by
  refine ⟨h.ne, ?_, h.last⟩
  obtain ⟨c, r, rfl⟩ := List.exists_cons_of_ne_nil h.ne
  exact (h.chars c (List.mem_cons_self ..)).1

theorem Undecorated.readable {w : Text} (h : Undecorated w) {s : Style} {t k : Nat}
    (hs : s = .escaped → t = 0) (hk : k ≤ 1) : s.Readable t w k := by
  cases s with
  | bare => exact h.plain
  | escaped => exact ⟨hs rfl, hk, h.last⟩
  | quoted q => trivial
  | dollar q =>
    cases q with
    | single => exact hk
    | double => trivial

/-! ## What a rename gives -/

theorem rename_of_cut? {raw : Text} {c : Cut} (h : (span raw true).cut? raw = some c)
    (name : Text) : rename raw name = c.before ++ name ++ c.after := by
  rw [rename, h]

theorem rename_write_of_exact {s : Style} {t k : Nat} {body : Text} (hb : body ≠ [])
    (h : s.Exact t body k) (name : Text) : rename (s.write t body k) name = s.write t name k := by
  rw [rename_of_cut? (cut?_span_write (Or.inr rfl) hb h)]
  simp [Style.write]

theorem rename_write_escaped {body : Text} (hb : body ≠ []) (k : Nat) (name : Text) :
    rename (Style.escaped.write 0 body k) name = Style.escaped.write 0 name 0 := by
  have hword : Style.escaped.write 0 body k = '\\' :: (body ++ newlines k) := by
    simp
  rw [hword, rename_of_cut? (cut?_span_escaped (by simp [hb]) true)]
  simp

/-- With a newline behind it, the dollar sign in front of single quotes is the first character of
the marker. -/
theorem rename_write_dollar_single {t k : Nat} (hk : k ≠ 0) (body name : Text) :
    rename (Style.write (.dollar .single) t body k) name = Style.bare.write t name k := by
  have hlast : ('$' :: '\'' :: (body ++ ['\''])).getLast? = some '\'' := by
    rw [← List.cons_append, ← List.cons_append, List.getLast?_concat]
  have hend : (body ++ ['\''] ++ newlines k).getLast? ≠ some '\'' := by
    rw [List.getLast?_append, Text.getLast?_newlines, if_neg hk, Option.some_or]
    decide
  have hstrips : Strips true (Text.tabs t) ('$' :: '\'' :: (body ++ ['\''])) k :=
    Strips.of_tabs_only (Or.inr rfl) (skipDollar_eq_self (by decide) hend) (by simp)
      (List.cons_ne_nil _ _) (by simp [hlast])
  have hquoted : ¬ Quoted ('$' :: '\'' :: (body ++ ['\''])) := by
    intro hq
    exact Bool.noConfusion hq.1
  have hesc : ¬ Escaped (Text.tabs t ++ ('$' :: '\'' :: (body ++ ['\'']) ++ newlines k)) :=
    not_escaped_of_head?_ne (head?_tabs_append_ne (by decide) (by simp) t)
  have hword : Style.write (.dollar .single) t body k =
      Text.tabs t ++ ('$' :: '\'' :: (body ++ ['\'']) ++ newlines k) := by
    simp [Style.write, Style.opening, Style.closing, Quote.char]
  rw [hword, rename_of_cut? (cut?_span_of_bare hstrips hquoted hesc)]
  simp

/-- The style of a word after a rename. -/
def Style.renamed (s : Style) (k : Nat) : Style :=
  if s = .dollar .single ∧ k ≠ 0 then .bare else s

/-- The number of newlines behind a word after a rename. -/
def Style.newlinesKept (s : Style) (k : Nat) : Nat :=
  if s = .escaped then 0 else k

theorem rename_write_eq {s : Style} {t k : Nat} {body : Text} (hs : s = .escaped → t = 0)
    (hb : Plain body) (name : Text) :
    rename (s.write t body k) name = (s.renamed k).write t name (s.newlinesKept k) := by
  cases s with
  | bare =>
    have h : Style.bare.Exact t body k := hb
    exact rename_write_of_exact hb.ne h name
  | escaped =>
    obtain rfl := hs rfl
    exact rename_write_escaped hb.ne k name
  | quoted q =>
    have h : (Style.quoted q).Exact t body k := trivial
    exact rename_write_of_exact hb.ne h name
  | dollar q =>
    cases q with
    | double =>
      have h : (Style.dollar .double).Exact t body k := fun hq => Quote.noConfusion hq
      exact rename_write_of_exact hb.ne h name
    | single =>
      by_cases hk : k = 0
      · have h : (Style.dollar .single).Exact t body k := fun _ => hk
        rw [Style.renamed, if_neg fun hs => hs.2 hk]
        exact rename_write_of_exact hb.ne h name
      · rw [Style.renamed, if_pos ⟨rfl, hk⟩]
        exact rename_write_dollar_single hk body name

/-! ## Renaming a written word -/

/-- A newline behind the word makes a rename lose part of the decoration. -/
def Style.Fragile (s : Style) (k : Nat) : Prop := k ≠ 0 ∧ (s = .escaped ∨ s = .dollar .single)

instance (s : Style) (k : Nat) : Decidable (s.Fragile k) := inferInstanceAs (Decidable (_ ∧ _))

/-- A rename gives back the written form of the new name exactly where the style is not fragile. -/
theorem rename_write_eq_iff_not_fragile {s : Style} {t k : Nat} {body : Text}
    (hs : s = .escaped → t = 0) (hb : Plain body) (name : Text) :
    rename (s.write t body k) name = s.write t name k ↔ ¬ s.Fragile k := by
  rw [rename_write_eq hs hb name]
  constructor
  · -- The word has become shorter.
    intro h hfragile
    obtain ⟨hk, hs⟩ := hfragile
    rcases hs with rfl | rfl
    · have hlen := congrArg List.length h
      simp [Style.renamed, Style.newlinesKept, Style.write] at hlen
      exact hk hlen
    · have hlen := congrArg List.length h
      simp [Style.renamed, hk, Style.newlinesKept]
        at hlen
      omega
  · intro h
    have hkept : s.newlinesKept k = k := by
      unfold Style.newlinesKept
      split
      · next hs => exact (not_not.1 fun hk => h ⟨hk, Or.inl hs⟩).symm
      · rfl
    rw [hkept, Style.renamed, if_neg fun hlost => h ⟨hlost.2, Or.inr hlost.1⟩]

/-- A literal here-document stays literal, unless the dollar sign of single quotes is the first
character of the word and a newline follows. -/
theorem expands_rename_write_iff {s : Style} {t k : Nat} {body name : Text}
    (hs : s = .escaped → t = 0) (hb : Plain body) (hn : Plain name) :
    (expands (s.write t body k) = false → expands (rename (s.write t body k) name) = false) ↔
      ¬ (s = .dollar .single ∧ k ≠ 0 ∧ t = 0) := by
  rw [rename_write_eq hs hb name, expands_write_eq_false_iff hb, expands_write_eq_false_iff hn,
    Style.renamed]
  constructor
  · intro h hlost
    obtain ⟨rfl, hk, ht⟩ := hlost
    exact (h ⟨ht, by simp⟩).2 (if_pos ⟨rfl, hk⟩)
  · intro h hliteral
    obtain ⟨ht, hbare⟩ := hliteral
    rw [if_neg fun hlost => h ⟨hlost.1, hlost.2, ht⟩]
    exact ⟨ht, hbare⟩

/-- **Renaming.** For names without decoration and one newline at most, a rename keeps the
decoration of the word exactly where the style is not fragile. In the same cases the word's own
marker gives the word back. -/
theorem rename_write {s : Style} {t k : Nat} {body name : Text} (hs : s = .escaped → t = 0)
    (hb : Undecorated body) (hn : Undecorated name) (hk : k ≤ 1) :
    (rename (s.write t body k) name = s.write t name k ↔ ¬ s.Fragile k) ∧
    (∀ tabs, (t = 0 ∨ tabs = true) →
      (rename (s.write t body k) (marker (s.write t body k) tabs) = s.write t body k ↔
        ¬ s.Fragile k)) ∧
    ((expands (s.write t body k) = false → expands (rename (s.write t body k) name) = false) ↔
      ¬ (s = .dollar .single ∧ k ≠ 0 ∧ t = 0)) := by
  refine ⟨rename_write_eq_iff_not_fragile hs hb.plain name, fun tabs ht => ?_,
    expands_rename_write_iff hs hb.plain hn.plain⟩
  have hread : s.Readable t body k := hb.readable hs hk
  have hmarker : marker (s.write t body k) tabs = body :=
    marker_of_cut? (dropNewline_write hb.ne hread) (cut?_span_write ht hb.ne hread.exact_pred)
  rw [hmarker]
  exact rename_write_eq_iff_not_fragile hs hb.plain body

/-- Tabs, double quotes and a newline stay around the new name. -/
theorem rename_write_quoted :
    Undecorated ['E', 'O', 'F'] ∧ Undecorated ['E', 'N', 'D'] ∧
      rename (Style.write (.quoted .double) 2 ['E', 'O', 'F'] 1) ['E', 'N', 'D'] =
        Style.write (.quoted .double) 2 ['E', 'N', 'D'] 1 := by
  have hbody : Undecorated ['E', 'O', 'F'] :=
    ⟨List.cons_ne_nil _ _, by simp [isDecoration, isMark, isQuote]⟩
  have hname : Undecorated ['E', 'N', 'D'] :=
    ⟨List.cons_ne_nil _ _, by simp [isDecoration, isMark, isQuote]⟩
  exact ⟨hbody, hname,
    (rename_write Style.noConfusion hbody hname (Nat.le_refl 1)).1.2 (by decide)⟩

end ShellLexing.Delimiter
