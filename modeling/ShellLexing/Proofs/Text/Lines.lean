import ShellLexing.Text

/-!
# Lines

A line of a text is a body without newlines and the newline behind it. Only the last line of a text
may lack the newline, and then it is not empty (`exists_of_lines_eq`).
-/

namespace ShellLexing.Text

theorem lines_newline (t : Text) : lines ('\n' :: t) = ['\n'] :: lines t := by
  rw [lines, if_pos rfl]

theorem lines_cons_of_nil {c : Char} {t : Text} (hc : c ≠ '\n') (h : lines t = []) :
    lines (c :: t) = [[c]] := by
  rw [lines, if_neg hc, h]

theorem lines_cons_of_cons {c : Char} {t l : Text} {ls : List Text} (hc : c ≠ '\n')
    (h : lines t = l :: ls) : lines (c :: t) = (c :: l) :: ls := by
  rw [lines, if_neg hc, h]

/-- What a line is, wherever it stands among the lines of a text. -/
theorem exists_of_lines_eq {t line : Text} {before after : List Text}
    (h : lines t = before ++ line :: after) :
    ∃ body, '\n' ∉ body ∧
      (line = body ++ ['\n'] ∨ line = body ∧ body ≠ [] ∧ after = []) := by
  induction t generalizing before line with
  | nil => exact absurd h.symm (by simp [lines])
  | cons c t ih =>
    by_cases hc : c = '\n'
    · subst hc
      rw [lines_newline] at h
      cases before with
      | nil =>
        obtain ⟨rfl, -⟩ := List.cons.inj h
        exact ⟨[], List.not_mem_nil, Or.inl rfl⟩
      | cons b before => exact ih (List.cons.inj h).2
    · cases hlines : lines t with
      | nil =>
        rw [lines_cons_of_nil hc hlines] at h
        cases before with
        | nil =>
          obtain ⟨rfl, rfl⟩ := List.cons.inj h
          exact ⟨[c], by simpa using Ne.symm hc, Or.inr ⟨rfl, List.cons_ne_nil c [], rfl⟩⟩
        | cons b before => exact absurd (List.cons.inj h).2.symm (by simp)
      | cons l ls =>
        rw [lines_cons_of_cons hc hlines] at h
        cases before with
        | nil =>
          -- The character in front belongs to the first line of what follows.
          obtain ⟨rfl, rfl⟩ := List.cons.inj h
          have hfirst : lines t = [] ++ l :: ls := hlines
          obtain ⟨body, hbody, hline⟩ := ih hfirst
          refine ⟨c :: body, by simpa using ⟨Ne.symm hc, hbody⟩, ?_⟩
          rcases hline with rfl | ⟨rfl, -, hlast⟩
          · exact Or.inl rfl
          · exact Or.inr ⟨rfl, List.cons_ne_nil c l, hlast⟩
        | cons b before =>
          obtain ⟨-, rfl⟩ := List.cons.inj h
          have hrest : lines t = (l :: before) ++ line :: after := hlines
          exact ih hrest

end ShellLexing.Text
