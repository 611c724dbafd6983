import Mathlib.Data.List.Basic
import ShellLexing.Text

/-!
# Runs of tabs and newlines

The decoration around a word begins with a run of tabs and ends with a run of newlines. A body
that does not itself end in a newline is separated from the run behind it: `dropNewline` shortens
the run by one, and `dropNewlines` removes it.
-/

namespace ShellLexing.Text

/-- A run of `n` tabs. -/
abbrev tabs (n : Nat) : Text := List.replicate n '\t'

/-- A run of `n` newlines. -/
abbrev newlines (n : Nat) : Text := List.replicate n '\n'

theorem tabs_succ (n : Nat) : tabs (n + 1) = '\t' :: tabs n := rfl

theorem tabs_succ' (n : Nat) : tabs (n + 1) = tabs n ++ ['\t'] :=
  List.replicate_succ'

theorem newlines_succ (n : Nat) : newlines (n + 1) = newlines n ++ ['\n'] :=
  List.replicate_succ'

theorem getLast?_newlines (n : Nat) : (newlines n).getLast? = if n = 0 then none else some '\n' :=
  List.getLast?_replicate

/-- A tab is no newline, so tabs in front make no text end in a newline. -/
theorem getLast?_tabs_append_eq_newline_iff (n : Nat) (w : Text) :
    (tabs n ++ w).getLast? = some '\n' ↔ w.getLast? = some '\n' := by
  by_cases hw : w = []
  · subst hw
    refine iff_of_false (fun hlast => ?_) (by simp)
    rw [List.append_nil] at hlast
    exact absurd (List.eq_of_mem_replicate (List.mem_of_getLast? hlast)) (by decide)
  · rw [List.getLast?_append_of_ne_nil _ hw]

/-- What is left behind the tabs in front begins with no tab. -/
theorem dropWhile_tab_eq_iff {t m : Text} :
    t.dropWhile (· = '\t') = m ↔ m.head? ≠ some '\t' ∧ ∃ n, t = tabs n ++ m := by
  constructor
  · intro h
    subst h
    constructor
    · intro hhead
      have hnot := List.head?_dropWhile_not (fun c : Char => decide (c = '\t')) t
      rw [hhead] at hnot
      exact absurd hnot (by decide)
    · have hrun : ∀ c ∈ t.takeWhile (· = '\t'), c = '\t' := by
        intro c hc
        simpa using List.all_eq_true.1 List.all_takeWhile c hc
      refine ⟨(t.takeWhile (· = '\t')).length, ?_⟩
      rw [tabs, ← List.eq_replicate_of_mem hrun, List.takeWhile_append_dropWhile]
  · intro h
    obtain ⟨hhead, n, rfl⟩ := h
    have hrun : ∀ c ∈ tabs n, decide (c = '\t') = true := by
      intro c hc
      rw [List.eq_of_mem_replicate hc]
      rfl
    rw [List.dropWhile_append_of_pos hrun]
    cases m with
    | nil => rfl
    | cons c m => exact List.dropWhile_cons_of_neg (by simpa using hhead)

/-! ## One newline -/

theorem dropNewline_eq_self {t : Text} (h : t.getLast? ≠ some '\n') : t.dropNewline = t :=
  if_neg h

theorem dropNewline_concat (t : Text) : dropNewline (t ++ ['\n']) = t := by
  simp [dropNewline]

theorem dropNewline_eq_iff {t s : Text} :
    t.dropNewline = s ↔ t = s ++ ['\n'] ∨ t = s ∧ s.getLast? ≠ some '\n' := by
  constructor
  · intro h
    subst h
    by_cases hlast : t.getLast? = some '\n'
    · obtain ⟨front, rfl⟩ := List.getLast?_eq_some_iff.1 hlast
      exact Or.inl (by rw [dropNewline_concat])
    · rw [dropNewline_eq_self hlast]
      exact Or.inr ⟨rfl, hlast⟩
  · intro h
    rcases h with rfl | ⟨rfl, hlast⟩
    · exact dropNewline_concat s
    · exact dropNewline_eq_self hlast

/-- One newline is taken from a run, if there is one. -/
theorem dropNewline_append_newlines {t : Text} (h : t.getLast? ≠ some '\n') (n : Nat) :
    dropNewline (t ++ newlines n) = t ++ newlines (n - 1) := by
  cases n with
  | zero => simpa using dropNewline_eq_self h
  | succ n => rw [newlines_succ, ← List.append_assoc, dropNewline_concat, Nat.add_sub_cancel]

/-- What stands in front of a word does not meet the newline behind it. -/
theorem dropNewline_append {s t : Text} (h : t ≠ []) :
    dropNewline (s ++ t) = s ++ dropNewline t := by
  unfold dropNewline
  rw [List.getLast?_append_of_ne_nil s h]
  split
  · exact List.dropLast_append_of_ne_nil h
  · rfl

theorem exists_dropNewline_append (t : Text) : ∃ n ≤ 1, t = t.dropNewline ++ newlines n := by
  by_cases h : t.getLast? = some '\n'
  · obtain ⟨front, rfl⟩ := List.getLast?_eq_some_iff.1 h
    exact ⟨1, Nat.le_refl 1, by rw [dropNewline_concat]; rfl⟩
  · exact ⟨0, Nat.zero_le 1, by simp [dropNewline_eq_self h]⟩

theorem length_dropNewline_le (t : Text) : t.dropNewline.length ≤ t.length := by
  obtain ⟨n, -, h⟩ := exists_dropNewline_append t
  have hlen := congrArg List.length h
  rw [List.length_append] at hlen
  omega

theorem head?_of_head?_dropNewline {t : Text} {c : Char} (h : t.dropNewline.head? = some c) :
    t.head? = some c := by
  obtain ⟨n, -, ht⟩ := exists_dropNewline_append t
  rw [ht, List.head?_append, h, Option.some_or]

/-! ## All newlines -/

theorem dropNewlines_append_newlines {t : Text} (h : t.getLast? ≠ some '\n') (n : Nat) :
    dropNewlines (t ++ newlines n) = t := by
  have hrun : ∀ c ∈ newlines n, decide (c = '\n') = true := by
    intro c hc
    rw [List.eq_of_mem_replicate hc]
    rfl
  unfold dropNewlines
  rw [List.reverse_append, List.reverse_replicate, List.dropWhile_append_of_pos hrun]
  rw [List.getLast?_eq_head?_reverse] at h
  cases hrev : t.reverse with
  | nil => rw [List.reverse_eq_nil_iff.1 hrev]; rfl
  | cons c r =>
    rw [hrev, List.head?_cons, ne_eq, Option.some.injEq] at h
    rw [List.dropWhile_cons_of_neg (by simpa using h), ← hrev, List.reverse_reverse]

/-- Every text is a body that does not end in a newline, and a run of newlines behind it. -/
theorem exists_append_newlines (t : Text) :
    ∃ body n, t = body ++ newlines n ∧ body.getLast? ≠ some '\n' := by
  induction h : t.length generalizing t with
  | zero => exact ⟨[], 0, List.length_eq_zero_iff.1 h, by simp⟩
  | succ m ih =>
    by_cases hlast : t.getLast? = some '\n'
    · obtain ⟨front, rfl⟩ := List.getLast?_eq_some_iff.1 hlast
      obtain ⟨body, n, rfl, hbody⟩ := ih front (by simpa using h)
      exact ⟨body, n + 1, by rw [newlines_succ, List.append_assoc], hbody⟩
    · exact ⟨t, 0, by simp, hlast⟩

end ShellLexing.Text
