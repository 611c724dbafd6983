import ShellLexing.Heredoc.Queue
import ShellLexing.Proofs.Delimiter.Decoration
import ShellLexing.Proofs.Delimiter.Rename

/-!
# Tabs in front of a delimiter word

A here-document that ignores tabs may have tabs in front of its delimiter word as well. This file
compares what is queued for a word with and without such tabs.

**The marker** (`marker_tabs_append_iff`). The tabs are skipped, and the rest of the word is split
as it would be without them. There are two exceptions. A backslash counts only as the very first
character, so behind tabs it is a part of the marker. And a *hollow* word has nothing to offer for a
marker, so it is taken as it stands, together with the tabs.

**Expansion** (`expands_tabs_append_iff`). Here no tabs are skipped, so behind a tab no word makes
its here-document literal.

**Main result** (`push_tabs_append`). What is queued is the same in all respects exactly where there
are no tabs, or the word begins with no quote, backslash or dollar sign and has a character that is
no newline.
-/

namespace ShellLexing

namespace Delimiter

open Text (newlines)

/-! ## Hollow words -/

/-- What is left of a word without a dollar sign in front of quotes and the newlines behind is
nothing, one quote or two equal quotes. -/
def Hollow (raw : Text) : Prop :=
  (skipDollar raw.dropNewline).dropNewlines = [] ∨
    Quoted (skipDollar raw.dropNewline).dropNewlines ∧
      (skipDollar raw.dropNewline).dropNewlines.length ≤ 2

instance (raw : Text) : Decidable (Hollow raw) := inferInstanceAs (Decidable (_ ∨ _ ∧ _))

/-! ## Words with a marker -/

theorem not_escaped_tabs_append {w : Text} {n : Nat} (h : n ≠ 0 ∨ ¬ Escaped w) :
    ¬ Escaped (Text.tabs n ++ w) := by
  cases n with
  | zero => exact h.resolve_left (not_not_intro rfl)
  | succ n =>
    intro h'
    obtain ⟨r, -, hr⟩ := h'
    simp [Text.tabs_succ] at hr

variable {x : Text} {n : Nat}

/-- The scan keeps the same body whatever number of tabs stands in front of the word. -/
theorem exists_strips_tabs {body : Text} (hx : x ≠ []) (htab : x.head? ≠ some '\t')
    (hbody : (skipDollar x.dropNewline).dropNewlines = body) (hne : body ≠ []) :
    ∃ lead k, ∀ n, (Text.tabs n ++ x).dropNewline = Text.tabs n ++ lead ++ (body ++ newlines k) ∧
      Strips true (Text.tabs n ++ lead) body k ∧
      (n ≠ 0 ∨ ¬ Escaped x.dropNewline →
        ¬ Escaped (Text.tabs n ++ lead ++ (body ++ newlines k))) := by
  obtain ⟨core, k, hcore, hlast⟩ := Text.exists_append_newlines (skipDollar x.dropNewline)
  obtain rfl : core = body := by rw [← hbody, hcore, Text.dropNewlines_append_newlines hlast]
  obtain ⟨lead, hlead⟩ := exists_lead_skipDollar x.dropNewline
  rw [hcore] at hlead
  refine ⟨lead, k, fun n => ⟨?_, ?_, fun hesc => ?_⟩⟩
  · rw [Text.dropNewline_append hx, hlead, List.append_assoc]
  · refine Strips.of_tabs (Or.inr rfl) (hlead ▸ hcore) ?_ hne hlast
    rw [← hlead]
    exact fun h => htab (Text.head?_of_head?_dropNewline h)
  · rw [List.append_assoc, ← hlead]
    exact not_escaped_tabs_append hesc

theorem marker_tabs_append_of_not_quoted {body : Text} (hx : x ≠ []) (htab : x.head? ≠ some '\t')
    (hbody : (skipDollar x.dropNewline).dropNewlines = body) (hne : body ≠ []) (hq : ¬ Quoted body)
    (hesc : n ≠ 0 ∨ ¬ Escaped x.dropNewline) : marker (Text.tabs n ++ x) true = body := by
  obtain ⟨lead, k, hscan⟩ := exists_strips_tabs hx htab hbody hne
  obtain ⟨hdrop, hstrips, hesc'⟩ := hscan n
  exact marker_of_cut? hdrop (cut?_span_of_bare hstrips hq (hesc' hesc))

theorem marker_tabs_append_of_quoted {q : Quote} {w : Text} (hx : x ≠ [])
    (htab : x.head? ≠ some '\t')
    (hbody : (skipDollar x.dropNewline).dropNewlines = q.char :: (w ++ [q.char])) (hw : w ≠ [])
    (hesc : ¬ Escaped x.dropNewline) : marker (Text.tabs n ++ x) true = w := by
  obtain ⟨lead, k, hscan⟩ := exists_strips_tabs hx htab hbody (List.cons_ne_nil _ _)
  obtain ⟨hdrop, hstrips, hesc'⟩ := hscan n
  exact marker_of_cut? hdrop (cut?_span_of_quoted hw hstrips (hesc' (Or.inr hesc)))

theorem marker_tabs_append_of_solid (hx : x ≠ []) (htab : x.head? ≠ some '\t')
    (hesc : ¬ Escaped x.dropNewline) (hsolid : ¬ Hollow x) (n : Nat) :
    marker (Text.tabs n ++ x) true = marker x true := by
  rw [Hollow, not_or] at hsolid
  obtain ⟨hne, hquotes⟩ := hsolid
  by_cases hq : Quoted (skipDollar x.dropNewline).dropNewlines
  · -- The quotes go, and what stands between them is the marker.
    obtain ⟨q, hlone | ⟨w, hbody⟩⟩ := quoted_iff.1 hq
    · exact absurd ⟨hq, by rw [hlone]; exact Nat.le_succ 1⟩ hquotes
    · have hw : w ≠ [] := by
        intro hnil
        rw [hnil] at hbody
        exact hquotes ⟨hq, by rw [hbody]; exact Nat.le_refl 2⟩
      have hmarker : ∀ m, marker (Text.tabs m ++ x) true = w := fun m =>
        marker_tabs_append_of_quoted hx htab hbody hw hesc
      exact (hmarker n).trans (hmarker 0).symm
  · have hmarker : ∀ m, marker (Text.tabs m ++ x) true =
        (skipDollar x.dropNewline).dropNewlines := fun m =>
      marker_tabs_append_of_not_quoted hx htab rfl hne hq (Or.inr hesc)
    exact (hmarker n).trans (hmarker 0).symm

/-! ## Escaped words -/

/-- Behind tabs the backslash is kept, so the marker is another one. -/
theorem marker_tabs_append_of_escaped (hx : x ≠ []) (htab : x.head? ≠ some '\t')
    (hesc : Escaped x.dropNewline) (hn : n ≠ 0) :
    marker (Text.tabs n ++ x) true ≠ marker x true := by
  obtain ⟨w, hw, hword⟩ := hesc
  obtain ⟨body, k, hbody, hlast⟩ := Text.exists_append_newlines ('\\' :: w)
  have hstripped : (skipDollar x.dropNewline).dropNewlines = body := by
    rw [hword, skipDollar_of_head?_ne (by simp), hbody, Text.dropNewlines_append_newlines hlast]
  cases body with
  | nil =>
    have hnewline : '\\' ∈ newlines k := by
      rw [List.nil_append] at hbody
      exact hbody ▸ List.mem_cons_self
    simp at hnewline
  | cons c r =>
    obtain rfl : '\\' = c := (List.cons.inj hbody).1
    have hw' : w = r ++ newlines k := (List.cons.inj hbody).2
    have hplain : marker x true = w := marker_of_cut? hword (cut?_span_escaped hw true)
    have htabbed : marker (Text.tabs n ++ x) true = '\\' :: r :=
      marker_tabs_append_of_not_quoted hx htab hstripped (List.cons_ne_nil _ _)
        (fun hq => Bool.noConfusion hq.1) (Or.inl hn)
    rw [hplain, htabbed, hw']
    intro hsame
    -- One marker is longer by the backslash and the other by `k` newlines, so `k` is one.
    have hlen := congrArg List.length hsame
    rw [List.length_cons, List.length_append, List.length_replicate,
      Nat.add_left_cancel_iff] at hlen
    rw [hsame, ← hlen] at hlast
    exact hlast List.getLast?_concat

/-! ## Words without a marker -/

theorem length_marker_le (raw : Text) (tabs : Bool) : (marker raw tabs).length ≤ raw.length := by
  have hdrop := Text.length_dropNewline_le raw
  cases hcut : (span raw.dropNewline tabs).cut? raw.dropNewline with
  | none => exact Nat.le_of_eq (congrArg List.length (marker_of_cut?_eq_none rfl hcut))
  | some c =>
    have hwhole := congrArg List.length (ByteSpan.whole_of_cut? hcut).1
    simp only [Cut.whole, List.length_append] at hwhole
    rw [marker_of_cut? rfl hcut]
    omega

theorem marker_tabs_newline (hn : n ≠ 0) :
    marker (Text.tabs n ++ ['\n']) true = ['\t'] := by
  obtain ⟨n, rfl⟩ := Nat.exists_eq_succ_of_ne_zero hn
  have hdrop : (Text.tabs (n + 1) ++ ['\n']).dropNewline =
      Text.tabs n ++ (['\t'] ++ newlines 0) := by
    rw [Text.dropNewline_concat, Text.tabs_succ']
    rfl
  have hstrips : Strips true (Text.tabs n) ['\t'] 0 := by
    refine ⟨?_, List.cons_ne_nil _ _, by decide⟩
    rw [if_pos rfl, skipTabs_tabs_append n (t := ['\t'] ++ newlines 0) (List.cons_ne_nil _ _)]
    rfl
  have hesc : ¬ Escaped (Text.tabs n ++ (['\t'] ++ newlines 0)) :=
    not_escaped_tabs_append (Or.inr (not_escaped_of_head?_ne (by decide)))
  exact marker_of_cut? hdrop (cut?_span_of_bare hstrips (by decide) hesc)

theorem marker_tabs_append_ne_of_cut? {word : Text} (hn : n ≠ 0)
    (hword : (Text.tabs n ++ x).dropNewline = word) (hcut : (span word true).cut? word = none) :
    marker (Text.tabs n ++ x) true ≠ marker x true := by
  intro hmarker
  -- The word keeps its tabs, and no marker is longer than its word.
  have hlen := length_marker_le x true
  rw [← hmarker, marker_of_cut?_eq_none hword hcut, List.length_append, List.length_replicate]
    at hlen
  omega

theorem marker_tabs_append_ne_of_newlines {k : Nat} (hx : x ≠ []) (hn : n ≠ 0)
    (hword : x.dropNewline = newlines k) : marker (Text.tabs n ++ x) true ≠ marker x true := by
  by_cases hk : k = 0
  · -- The word is one newline, and the last tab takes its place as the marker.
    have hnewline : x = ['\n'] := by
      obtain ⟨m, hm, hx'⟩ := Text.exists_dropNewline_append x
      rw [hword, hk] at hx'
      rcases Nat.le_one_iff_eq_zero_or_eq_one.1 hm with rfl | rfl
      · exact absurd hx' hx
      · exact hx'
    rw [hnewline, marker_tabs_newline hn]
    decide
  · have hdrop : (Text.tabs n ++ x).dropNewline = Text.tabs n ++ newlines k := by
      rw [Text.dropNewline_append hx, hword]
    exact marker_tabs_append_ne_of_cut? hn hdrop (cut?_span_tabs_newlines hn hk)

theorem marker_tabs_append_of_hollow (hx : x ≠ []) (htab : x.head? ≠ some '\t')
    (hesc : ¬ Escaped x.dropNewline) (hhollow : Hollow x) (hn : n ≠ 0) :
    marker (Text.tabs n ++ x) true ≠ marker x true := by
  by_cases hnone : (skipDollar x.dropNewline).dropNewlines = []
  · obtain ⟨body, k, hbody, hlast⟩ := Text.exists_append_newlines (skipDollar x.dropNewline)
    obtain rfl : body = [] := by rw [← hnone, hbody, Text.dropNewlines_append_newlines hlast]
    exact marker_tabs_append_ne_of_newlines hx hn (eq_newlines_of_skipDollar hbody)
  · obtain ⟨hq, hlen⟩ := hhollow.resolve_left hnone
    obtain ⟨lead, k, hscan⟩ := exists_strips_tabs hx htab rfl hnone
    obtain ⟨hdrop, hstrips, hesc'⟩ := hscan n
    have hpos := List.length_pos_iff.2 hnone
    refine marker_tabs_append_ne_of_cut? hn hdrop
      (cut?_span_of_hollow hstrips hq hlen ?_ (hesc' (Or.inr hesc)))
    simp only [List.length_append, List.length_replicate]
    omega

/-- Tabs change the marker of escaped words and of hollow ones, and of no others. -/
theorem marker_tabs_append_iff (hx : x ≠ []) (htab : x.head? ≠ some '\t') (n : Nat) :
    marker (Text.tabs n ++ x) true = marker x true ↔
      n = 0 ∨ ¬ Escaped x.dropNewline ∧ ¬ Hollow x := by
  constructor
  · intro h
    rw [or_iff_not_imp_left]
    intro hn
    have hesc : ¬ Escaped x.dropNewline := fun hesc =>
      marker_tabs_append_of_escaped hx htab hesc hn h
    exact ⟨hesc, fun hhollow => marker_tabs_append_of_hollow hx htab hesc hhollow hn h⟩
  · intro h
    rcases h with rfl | ⟨hesc, hsolid⟩
    · rfl
    · exact marker_tabs_append_of_solid hx htab hesc hsolid n

/-! ## Words that begin with no mark -/

theorem not_escaped_of_isMark (h : x.head?.any isMark = false) : ¬ Escaped x.dropNewline :=
  not_escaped_of_head?_ne fun hhead =>
    head?_ne_of_isMark h rfl (Text.head?_of_head?_dropNewline hhead)

theorem hollow_iff_of_isMark (h : x.head?.any isMark = false) :
    Hollow x ↔ ∀ c ∈ x, c = '\n' := by
  have hhead : ∀ {c : Char}, isMark c = true → x.dropNewline.head? ≠ some c :=
    fun hc hx => head?_ne_of_isMark h hc (Text.head?_of_head?_dropNewline hx)
  rw [Hollow, skipDollar_of_head?_ne (hhead rfl)]
  obtain ⟨m, -, hm⟩ := Text.exists_dropNewline_append x
  obtain ⟨body, k, hbody, hlast⟩ := Text.exists_append_newlines x.dropNewline
  rw [hbody, Text.dropNewlines_append_newlines hlast]
  rw [hbody] at hm
  constructor
  · intro hhollow
    rcases hhollow with rfl | ⟨hq, -⟩
    · intro c hc
      rw [hm, List.nil_append] at hc
      exact (List.mem_append.1 hc).elim List.eq_of_mem_replicate List.eq_of_mem_replicate
    · -- The body begins with a quote, and so does the word.
      obtain ⟨q, hq'⟩ := quoted_iff.1 hq
      have hmark : isMark q.char = true := by cases q <;> rfl
      refine absurd ?_ (head?_ne_of_isMark h hmark)
      rcases hq' with rfl | ⟨w, rfl⟩
      · rw [hm]; rfl
      · rw [hm]; rfl
  · intro hall
    refine Or.inl (by_contra fun hne => hlast ?_)
    have hmem : body.getLast hne ∈ x := by
      rw [hm]
      exact List.mem_append_left _ (List.mem_append_left _ (List.getLast_mem hne))
    rw [List.getLast?_eq_some_getLast hne, hall _ hmem]

theorem expands_tabs_append_iff (x : Text) (n : Nat) :
    expands (Text.tabs n ++ x) = expands x ↔ n = 0 ∨ x.head?.any isMark = false := by
  by_cases hn : n = 0
  · subst hn
    exact iff_of_true rfl (Or.inl rfl)
  · rw [expands_tabs_append hn, expands_eq, or_iff_right hn, eq_comm, Bool.not_eq_true']

end Delimiter

/-! ## What is queued -/

open Delimiter

theorem HeredocQueue.push_eq_push_iff {q : HeredocQueue} {r r' : Text} {tabs : Bool} :
    q.push r tabs = q.push r' tabs ↔ Heredoc.ofDelimiter r tabs = Heredoc.ofDelimiter r' tabs := by
  constructor
  · intro h
    have hpending := congrArg (fun o => o.state.pending) h
    rw [pending_push, pending_push, List.append_cancel_left_eq, List.singleton_inj] at hpending
    exact hpending
  · intro h
    rw [push, push, h]

/-- **Leading tabs.** Let `x` be a word that does not begin with a tab, in a here-document that
ignores tabs. Whatever number of tabs stands in front of it, one here-document is queued, and it
ignores tabs. Its marker is that of `x` exactly where no tabs were added, or `x` is neither escaped
nor hollow. It is expanded like that of `x` exactly where no tabs were added, or `x` begins with no
mark. So the two calls are the same exactly where no tabs were added, or `x` begins with no mark and
has a character that is no newline. -/
theorem HeredocQueue.push_tabs_append {x : Text} (hx : x ≠ []) (htab : x.head? ≠ some '\t')
    (q : HeredocQueue) (n : Nat) :
    let h := Heredoc.ofDelimiter (Text.tabs n ++ x) true
    let h₀ := Heredoc.ofDelimiter x true
    (q.push (Text.tabs n ++ x) true).state.pending = q.pending ++ [h] ∧
    (q.push x true).state.pending = q.pending ++ [h₀] ∧
    h.ignoresTabs = h₀.ignoresTabs ∧
    (h.marker = h₀.marker ↔ n = 0 ∨ ¬ Escaped x.dropNewline ∧ ¬ Hollow x) ∧
    (h.expands = h₀.expands ↔ n = 0 ∨ x.head?.any isMark = false) ∧
    (q.push (Text.tabs n ++ x) true = q.push x true ↔
      n = 0 ∨ x.head?.any isMark = false ∧ ∃ c ∈ x, c ≠ '\n') := by
  have hmarker := marker_tabs_append_iff hx htab n
  have hexpands := expands_tabs_append_iff x n
  refine ⟨rfl, rfl, rfl, hmarker, hexpands, ?_⟩
  rw [push_eq_push_iff, Heredoc.ofDelimiter, Heredoc.ofDelimiter, Heredoc.mk.injEq,
    and_iff_left rfl, hmarker, hexpands, ← or_and_left]
  refine or_congr_right ?_
  rw [and_comm]
  refine and_congr_right fun hmark => ?_
  rw [and_iff_right (not_escaped_of_isMark hmark), hollow_iff_of_isMark hmark]
  simp only [not_forall, exists_prop, ne_eq]

/-- A tab in front of a word in quotes keeps the marker, but the body is expanded then. What is
queued for a bare word does not change at all. -/
theorem HeredocQueue.push_tabs_append_quoted :
    (Heredoc.ofDelimiter (Text.tabs 1 ++ ['\'', 'A', '\'']) true).marker =
        (Heredoc.ofDelimiter ['\'', 'A', '\''] true).marker ∧
      (Heredoc.ofDelimiter (Text.tabs 1 ++ ['\'', 'A', '\'']) true).expands ≠
        (Heredoc.ofDelimiter ['\'', 'A', '\''] true).expands ∧
      empty.push (Text.tabs 1 ++ ['\'', 'A', '\'']) true ≠ empty.push ['\'', 'A', '\''] true ∧
      empty.push (Text.tabs 3 ++ ['A']) true = empty.push ['A'] true := by
  have hquoted :=
    push_tabs_append (x := ['\'', 'A', '\'']) (List.cons_ne_nil _ _) (by decide) empty 1
  have hbare := push_tabs_append (x := ['A']) (List.cons_ne_nil _ _) (by decide) empty 3
  refine ⟨?_, ?_, ?_, ?_⟩
  · exact hquoted.2.2.2.1.2 (Or.inr ⟨not_escaped_of_head?_ne (by decide), by decide⟩)
  · exact fun h => absurd (hquoted.2.2.2.2.1.1 h) (by decide)
  · exact fun h => absurd (hquoted.2.2.2.2.2.1 h) (by decide)
  · exact hbare.2.2.2.2.2.2 (Or.inr ⟨by decide, 'A', by decide, by decide⟩)

end ShellLexing
