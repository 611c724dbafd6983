import ShellLexing.Proofs.Delimiter.Strip

/-!
# Styles of delimiter words

A `Style` is one of the ways to write a marker: bare, behind a backslash, in quotes, or in quotes
behind a dollar sign. `Style.write` puts a marker into a style, with a run of tabs in front and a
run of newlines behind.

**Reading back** (`marker_write`). The marker of a written word is the text that was written.
Quotes protect any text. The other styles need a text that does not itself look like decoration,
and some of them bear one newline at most.

The proof has two halves. A final newline comes off the run behind the word
(`dropNewline_write`), and the span of the word that is left covers exactly the text
(`cut?_span_write`).
-/

namespace ShellLexing.Delimiter

open Text (newlines)

/-! ## Writing -/

/-- The ways to write a marker. -/
inductive Style where
  | bare
  | escaped
  | quoted (q : Quote)
  | dollar (q : Quote)
deriving DecidableEq

namespace Style

/-- What a style puts in front of the marker. -/
def opening : Style → Text
  | bare => []
  | escaped => ['\\']
  | quoted q => [q.char]
  | dollar q => ['$', q.char]

/-- What a style puts behind the marker. -/
def closing : Style → Text
  | bare => []
  | escaped => []
  | quoted q => [q.char]
  | dollar q => [q.char]

/-- The marker `w` in a style, behind `t` tabs and in front of `k` newlines. -/
def write (s : Style) (t : Nat) (w : Text) (k : Nat) : Text :=
  Text.tabs t ++ (s.opening ++ w ++ s.closing ++ newlines k)

section

variable (q : Quote) (t : Nat) (w : Text) (k : Nat)

@[simp] theorem write_bare : bare.write t w k = Text.tabs t ++ (w ++ newlines k) := by
  simp [write, opening, closing]

@[simp] theorem write_escaped :
    escaped.write t w k = Text.tabs t ++ '\\' :: (w ++ newlines k) := by
  simp [write, opening, closing]

@[simp] theorem write_quoted :
    (quoted q).write t w k = Text.tabs t ++ q.char :: (w ++ q.char :: newlines k) := by
  simp [write, opening, closing]

@[simp] theorem write_dollar :
    (dollar q).write t w k = Text.tabs t ++ '$' :: q.char :: (w ++ q.char :: newlines k) := by
  simp [write, opening, closing]

end

end Style

/-- A character that makes a here-document literal if its word begins with it. -/
def isMark (c : Char) : Bool := isQuote c || c = '\\' || c = '$'

theorem head?_ne_of_isMark {w : Text} (h : w.head?.any isMark = false) {c : Char}
    (hc : isMark c = true) : w.head? ≠ some c := by
  intro hw
  rw [hw, Option.any_some, hc] at h
  exact Bool.noConfusion h

theorem not_quoted_of_isMark {w : Text} (h : w.head?.any isMark = false) : ¬ Quoted w := by
  intro hq
  obtain ⟨c, hc, hquote⟩ := (Option.any_eq_true _ _).1 hq.1
  exact head?_ne_of_isMark h (by simp [isMark, hquote]) hc

/-- A character with which decoration can begin. -/
def isDecoration (c : Char) : Bool := isMark c || c = '\t'

/-- A text that begins with no decoration and ends in no newline. -/
structure Plain (w : Text) : Prop where
  ne : w ≠ []
  head : w.head?.any isDecoration = false
  last : w.getLast? ≠ some '\n'

theorem Plain.head?_ne {w : Text} (h : Plain w) {c : Char} (hc : isDecoration c = true) :
    w.head? ≠ some c := by
  intro hw
  have hhead := h.head
  rw [hw, Option.any_some, hc] at hhead
  exact Bool.noConfusion hhead

theorem Plain.not_quoted {w : Text} (h : Plain w) : ¬ Quoted w := by
  intro hquoted
  obtain ⟨c, r, rfl⟩ := List.exists_cons_of_ne_nil h.ne
  have hq : isQuote c = true := hquoted.1
  have hc : isDecoration c = true := by simp [isDecoration, isMark, hq]
  exact h.head?_ne hc rfl

/-! ## The split of a written word -/

theorem not_escaped_of_head?_ne {raw : Text} (h : raw.head? ≠ some '\\') : ¬ Escaped raw := by
  intro hesc
  obtain ⟨w, -, rfl⟩ := hesc
  exact h rfl

theorem head?_tabs_append_ne {c : Char} (hc : c ≠ '\t') {w : Text} (h : w.head? ≠ some c)
    (t : Nat) : (Text.tabs t ++ w).head? ≠ some c := by
  cases t with
  | zero => exact h
  | succ t =>
    rw [Text.tabs_succ, List.cons_append, List.head?_cons, ne_eq, Option.some.injEq]
    exact fun h' => hc h'.symm

variable {tabs : Bool} {t k : Nat}

/-- Tabs in front of a word only lengthen what is skipped. -/
theorem Strips.of_tabs {lead body : Text} (ht : t = 0 ∨ tabs = true)
    (hskip : skipDollar (lead ++ (body ++ newlines k)) = body ++ newlines k)
    (hhead : (lead ++ (body ++ newlines k)).head? ≠ some '\t')
    (hne : body ≠ []) (hlast : body.getLast? ≠ some '\n') :
    Strips tabs (Text.tabs t ++ lead) body k := by
  refine ⟨?_, hne, hlast⟩
  have hword : lead ++ (body ++ newlines k) ≠ [] := by simp [hne]
  rw [List.append_assoc, skipTabs_of_tabs_append ht hword hhead, hskip]

/-- Where the dollar sign stays, the tabs are all that is skipped. -/
theorem Strips.of_tabs_only {body : Text} (ht : t = 0 ∨ tabs = true)
    (hskip : skipDollar (body ++ newlines k) = body ++ newlines k)
    (hhead : body.head? ≠ some '\t') (hne : body ≠ []) (hlast : body.getLast? ≠ some '\n') :
    Strips tabs (Text.tabs t) body k := by
  have hword : ([] ++ (body ++ newlines k)).head? ≠ some '\t' := by
    rwa [List.nil_append, List.head?_append_of_ne_nil _ hne]
  have hstrips : Strips tabs (Text.tabs t ++ []) body k := Strips.of_tabs ht hskip hword hne hlast
  rwa [List.append_nil] at hstrips

theorem strips_plain {w : Text} (ht : t = 0 ∨ tabs = true) (hw : Plain w) :
    Strips tabs (Text.tabs t) w k := by
  refine Strips.of_tabs_only ht (skipDollar_of_head?_ne ?_) (hw.head?_ne rfl) hw.ne hw.last
  rw [List.head?_append_of_ne_nil _ hw.ne]
  exact hw.head?_ne rfl

theorem getLast?_between_ne (q : Quote) (w : Text) :
    (q.char :: (w ++ [q.char])).getLast? ≠ some '\n' := by
  rw [← List.cons_append, List.getLast?_concat]
  exact fun h => Quote.char_ne rfl (Option.some.inj h)

theorem strips_quoted (q : Quote) (w : Text) (ht : t = 0 ∨ tabs = true) :
    Strips tabs (Text.tabs t) (q.char :: (w ++ [q.char])) k := by
  have hhead : ∀ {c : Char} (r : Text), isQuote c = false → (q.char :: r).head? ≠ some c :=
    fun _ hc h => Quote.char_ne hc (Option.some.inj h)
  exact Strips.of_tabs_only ht (skipDollar_of_head?_ne (hhead _ rfl)) (hhead _ rfl)
    (List.cons_ne_nil _ _) (getLast?_between_ne q w)

/-- The dollar sign goes with the tabs. In front of single quotes it goes only where no newline
follows. -/
theorem strips_dollar (q : Quote) (w : Text) (ht : t = 0 ∨ tabs = true)
    (hk : q = .single → k = 0) :
    Strips tabs (Text.tabs t ++ ['$']) (q.char :: (w ++ [q.char])) k := by
  have hskip : skipDollar (['$'] ++ (q.char :: (w ++ [q.char]) ++ newlines k)) =
      q.char :: (w ++ [q.char]) ++ newlines k := by
    cases q with
    | double => exact skipDollar_double (by simp)
    | single =>
      obtain rfl := hk rfl
      exact skipDollar_of_getLast? (by simp [Quote.char])
  exact Strips.of_tabs ht hskip (by simp) (List.cons_ne_nil _ _) (getLast?_between_ne q w)

/-! ## The span of a written word -/

/-- The span of the word covers the text that was written. -/
def Style.Exact (s : Style) (t : Nat) (w : Text) (k : Nat) : Prop :=
  match s with
  | .bare => Plain w
  | .escaped => t = 0 ∧ k = 0
  | .quoted _ => True
  | .dollar q => q = .single → k = 0

theorem cut?_span_write {s : Style} {w : Text} (ht : t = 0 ∨ tabs = true) (hw : w ≠ [])
    (h : s.Exact t w k) :
    (span (s.write t w k) tabs).cut? (s.write t w k) =
      some ⟨Text.tabs t ++ s.opening, w, s.closing ++ newlines k⟩ := by
  cases s with
  | bare =>
    have hesc : ¬ Escaped (Text.tabs t ++ (w ++ newlines k)) := by
      refine not_escaped_of_head?_ne (head?_tabs_append_ne (by decide) ?_ t)
      rw [List.head?_append_of_ne_nil _ hw]
      exact Plain.head?_ne h rfl
    have hcut := cut?_span_of_bare (strips_plain ht h) (Plain.not_quoted h) hesc
    simpa [Style.write, Style.opening, Style.closing] using hcut
  | escaped =>
    obtain ⟨rfl, rfl⟩ := h
    have hcut := cut?_span_escaped hw tabs
    simpa [Style.write, Style.opening, Style.closing] using hcut
  | quoted q =>
    have hesc : ¬ Escaped (Text.tabs t ++ (q.char :: (w ++ [q.char]) ++ newlines k)) := by
      refine not_escaped_of_head?_ne (head?_tabs_append_ne (by decide) ?_ t)
      exact fun h' => Quote.char_ne rfl (Option.some.inj h')
    have hcut := cut?_span_of_quoted hw (strips_quoted q w ht) hesc
    simpa [Style.write, Style.opening, Style.closing] using hcut
  | dollar q =>
    have hesc : ¬ Escaped (Text.tabs t ++ ['$'] ++ (q.char :: (w ++ [q.char]) ++ newlines k)) := by
      rw [List.append_assoc]
      exact not_escaped_of_head?_ne (head?_tabs_append_ne (by decide) (by simp) t)
    have hcut := cut?_span_of_quoted hw (strips_dollar q w ht h) hesc
    simpa [Style.write, Style.opening, Style.closing] using hcut

/-! ## Reading back -/

/-- The word can be read back: the text does not run into the decoration around it, and the style
bears the newlines behind it. -/
def Style.Readable (s : Style) (t : Nat) (w : Text) (k : Nat) : Prop :=
  match s with
  | .bare => Plain w
  | .escaped => t = 0 ∧ k ≤ 1 ∧ w.getLast? ≠ some '\n'
  | .quoted _ => True
  | .dollar .single => k ≤ 1
  | .dollar .double => True

theorem Style.Readable.exact_pred {s : Style} {w : Text} (h : s.Readable t w k) :
    s.Exact t w (k - 1) := by
  cases s with
  | bare => exact h
  | escaped => exact ⟨h.1, Nat.sub_eq_zero_of_le h.2.1⟩
  | quoted q => trivial
  | dollar q =>
    intro hq
    subst hq
    exact Nat.sub_eq_zero_of_le h

theorem dropNewline_write {s : Style} {w : Text} (hw : w ≠ []) (h : s.Readable t w k) :
    (s.write t w k).dropNewline = s.write t w (k - 1) := by
  have hlast : (Text.tabs t ++ (s.opening ++ w ++ s.closing)).getLast? ≠ some '\n' := by
    have hmarker : (s.opening ++ w).getLast? = w.getLast? :=
      List.getLast?_append_of_ne_nil s.opening hw
    have hstyle : (s.opening ++ w ++ s.closing).getLast? ≠ some '\n' := by
      cases s with
      | bare => rw [Style.closing, List.append_nil, hmarker]; exact h.last
      | escaped => rw [Style.closing, List.append_nil, hmarker]; exact h.2.2
      | quoted q | dollar q =>
        rw [Style.closing, List.getLast?_concat]
        exact fun hq => Quote.char_ne rfl (Option.some.inj hq)
    have hne : s.opening ++ w ++ s.closing ≠ [] := by simp [hw]
    rwa [List.getLast?_append_of_ne_nil _ hne]
  have hdrop := Text.dropNewline_append_newlines hlast k
  rwa [List.append_assoc (Text.tabs t), List.append_assoc (Text.tabs t)] at hdrop

/-- The marker is what the span of the word without its final newline covers. A dollar sign alone
makes no difference, because its span covers it. -/
theorem marker_of_cut? {raw word : Text} {c : Cut} (hword : raw.dropNewline = word)
    (h : (span word tabs).cut? word = some c) : marker raw tabs = c.inside := by
  subst hword
  unfold marker
  by_cases hdollar : raw.dropNewline = ['$']
  · rw [hdollar, show (span ['$'] tabs).cut? ['$'] = some ⟨[], ['$'], []⟩ from rfl] at h
    rw [if_pos hdollar, hdollar, ← Option.some.inj h]
  · simp only [if_neg hdollar, h]

/-- A word whose span covers nothing is its own marker, the newline behind it included. -/
theorem marker_of_cut?_eq_none {raw word : Text} {tabs : Bool} (hword : raw.dropNewline = word)
    (h : (span word tabs).cut? word = none) : marker raw tabs = raw := by
  subst hword
  unfold marker
  by_cases hdollar : raw.dropNewline = ['$']
  · rw [hdollar, show (span ['$'] tabs).cut? ['$'] = some ⟨[], ['$'], []⟩ from rfl] at h
    cases h
  · simp only [if_neg hdollar, h]

/-- **Reading back.** The marker of a written word is the text that was written, whether tabs in
front count as decoration or there are none. -/
theorem marker_write {s : Style} {w : Text} (ht : t = 0 ∨ tabs = true) (hw : w ≠ [])
    (h : s.Readable t w k) : marker (s.write t w k) tabs = w :=
  marker_of_cut? (dropNewline_write hw h) (cut?_span_write ht hw h.exact_pred)

/-- Quotes protect quotes, tabs, newlines and any other character. -/
theorem marker_write_dollar_single :
    (Style.dollar .single).Readable 2 ['\'', '\t', 'é', '\n'] 1 ∧
      marker (Style.write (.dollar .single) 2 ['\'', '\t', 'é', '\n'] 1) true =
        ['\'', '\t', 'é', '\n'] :=
  ⟨Nat.le_refl 1, marker_write (Or.inr rfl) (List.cons_ne_nil _ _) (Nat.le_refl 1)⟩

end ShellLexing.Delimiter
