import ShellLexing.Proofs.Heredoc.Fifo
import ShellLexing.Proofs.Session.Refusal
import ShellLexing.Proofs.Text.Runs

/-!
# The line that closes a here-document

A line closes the front of the queue if it is the marker (`Heredoc.SpelledBy`): a newline may stand
behind it, and tabs in front of it if the here-document ignores tabs. A marker that itself ends in
a newline needs the newline behind it, because one newline is always taken off the line.

**Stuck here-documents.** All tabs in front of a line are ignored, those of the marker included. So
a marker that begins with an ignored tab equals no line that is left (`Heredoc.Stuck`). Its
here-document is never closed, and neither is any that waits behind it (`closed_run_of_stuck`).

**Main result** (`closedBy_front`). A line closes the front exactly where it spells the marker and
the front is not stuck. Then, and only then, the front can be taken from the queue.
-/

namespace ShellLexing

namespace Heredoc

/-! ## Lines that spell a marker -/

/-- The line is the marker, with tabs in front that the here-document ignores, and with a newline
behind or without one. -/
def SpelledBy (h : Heredoc) (line : Text) : Prop :=
  ∃ n, (n = 0 ∨ h.ignoresTabs = true) ∧
    (line = Text.tabs n ++ h.marker ++ ['\n'] ∨
      line = Text.tabs n ++ h.marker ∧ h.marker.getLast? ≠ some '\n')

/-- The marker begins with a tab, and the here-document ignores tabs. -/
def Stuck (h : Heredoc) : Prop := h.ignoresTabs = true ∧ h.marker.head? = some '\t'

instance (h : Heredoc) : Decidable h.Stuck := inferInstanceAs (Decidable (_ ∧ _))

theorem spelledBy_iff {h : Heredoc} {line : Text} :
    h.SpelledBy line ↔
      ∃ n, (n = 0 ∨ h.ignoresTabs = true) ∧ line.dropNewline = Text.tabs n ++ h.marker := by
  simp only [SpelledBy, Text.dropNewline_eq_iff, ne_eq, Text.getLast?_tabs_append_eq_newline_iff]

theorem closedBy_iff {h : Heredoc} {line : Text} :
    h.closedBy line = true ↔ ¬ h.Stuck ∧ h.SpelledBy line := by
  rw [spelledBy_iff, Stuck, closedBy, decide_eq_true_eq]
  cases h.ignoresTabs with
  | false => simp
  | true => simp [Text.dropWhile_tab_eq_iff]

theorem closesItself_of_not_stuck {h : Heredoc} (hfree : ¬ h.Stuck) : h.closesItself = true :=
  closedBy_iff.2 ⟨hfree, 0, Or.inl rfl, Or.inl rfl⟩

end Heredoc

/-! ## The front of the queue -/

namespace HeredocQueue

open HeredocOperation

variable {q : HeredocQueue} {h : Heredoc} {before rest : List Heredoc}

theorem closedBy_of_stuck (hq : q.pending = h :: rest) (hstuck : h.Stuck) (line : Text) :
    q.closedBy line = false := by
  rw [closedBy_of_pending_eq_cons hq, ← Bool.not_eq_true]
  exact fun hline => (Heredoc.closedBy_iff.1 hline).1 hstuck

/-- A stuck here-document stays, and what an operation closes stands in front of it. -/
theorem apply_of_stuck (hq : q.pending = before ++ h :: rest) (hstuck : h.Stuck)
    (op : HeredocOperation) :
    ∃ before' rest', before = closed (op.apply q).answer ++ before' ∧
      (op.apply q).state.pending = before' ++ h :: rest' := by
  cases op with
  | push raw ignoresTabs =>
    refine ⟨before, rest ++ [.ofDelimiter raw ignoresTabs], rfl, ?_⟩
    show (q.push raw ignoresTabs).state.pending = _
    rw [pending_push, hq, List.append_assoc, List.cons_append]
  | closedBy line => exact ⟨before, rest, rfl, hq⟩
  | pop line =>
    cases hline : q.closedBy line with
    | false =>
      obtain ⟨e, hpop⟩ := pop_refuses hline
      rw [HeredocOperation.apply, hpop]
      exact ⟨before, rest, rfl, hq⟩
    | true =>
      obtain ⟨d, tail, htail, -, hpop⟩ := exists_pop hline
      cases before with
      | nil =>
        rw [closedBy_of_stuck hq hstuck] at hline
        cases hline
      | cons d' before =>
        obtain ⟨rfl, rfl⟩ := List.cons.inj (htail.symm.trans hq)
        rw [HeredocOperation.apply, hpop]
        exact ⟨before, rest, rfl, rfl⟩

/-- Whatever operations are made, a stuck here-document and those behind it are never closed. -/
theorem closed_run_of_stuck (hq : q.pending = before ++ h :: rest) (hstuck : h.Stuck)
    (ops : List HeredocOperation) :
    (runCalls HeredocOperation.apply q ops).answers.flatMap closed <+: before := by
  induction ops generalizing q before rest with
  | nil => exact List.nil_prefix
  | cons op ops ih =>
    obtain ⟨before', rest', hbefore, hpending⟩ := apply_of_stuck hq hstuck op
    rw [runCalls, List.flatMap_cons, hbefore]
    exact (List.prefix_append_right_inj _).2 (ih hpending)

theorem run_of_stuck_front (hq : q.pending = h :: rest) (hstuck : h.Stuck)
    (ops : List HeredocOperation) :
    (runCalls HeredocOperation.apply q ops).answers.flatMap closed = [] ∧
      (runCalls HeredocOperation.apply q ops).state.pending =
        h :: rest ++ ops.flatMap announced := by
  have hfront : q.pending = [] ++ h :: rest := hq
  have hnone : (runCalls HeredocOperation.apply q ops).answers.flatMap closed = [] :=
    List.prefix_nil.1 (closed_run_of_stuck hfront hstuck ops)
  refine ⟨hnone, ?_⟩
  have hbalance := pending_run q ops
  rw [hnone, List.nil_append, hq] at hbalance
  exact hbalance.symm

theorem pop_answers_iff {line : Text} :
    (∃ d, (q.pop line).answer = .ok d) ↔ q.closedBy line = true := by
  constructor
  · intro hanswer
    obtain ⟨d, hd⟩ := hanswer
    by_contra hline
    obtain ⟨e, hpop⟩ := pop_refuses (Bool.eq_false_iff.2 hline)
    rw [hpop] at hd
    cases hd
  · intro hline
    obtain ⟨d, rest, -, -, hpop⟩ := exists_pop hline
    exact ⟨d, by rw [hpop]; rfl⟩

theorem eq_front_of_pop {line : Text} {d : Heredoc} (hq : q.pending = h :: rest)
    (hd : (q.pop line).answer = .ok d) : d = h ∧ (q.pop line).state = ⟨rest⟩ := by
  obtain ⟨d', rest', hq', -, hpop⟩ := exists_pop (pop_answers_iff.1 ⟨d, hd⟩)
  obtain ⟨rfl, rfl⟩ := List.cons.inj (hq'.symm.trans hq)
  rw [hpop] at hd ⊢
  exact ⟨(Except.ok.inj hd).symm, rfl⟩

/-- **The closing line.** A line closes the front of a queue exactly where it spells the marker and
the front is not stuck. In these cases the next here-document can be taken with the line, and it is
the front. A stuck front is closed by no line, and whatever operations follow, nothing is closed any
more. Any other front is closed by its marker and a newline. -/
theorem closedBy_front (h : Heredoc) (rest : List Heredoc) :
    (∀ line, closedBy ⟨h :: rest⟩ line = true ↔ ¬ h.Stuck ∧ h.SpelledBy line) ∧
    (∀ line, (∃ d, (pop ⟨h :: rest⟩ line).answer = .ok d) ↔ closedBy ⟨h :: rest⟩ line = true) ∧
    (∀ line d, (pop ⟨h :: rest⟩ line).answer = .ok d →
      d = h ∧ (pop ⟨h :: rest⟩ line).state = ⟨rest⟩) ∧
    (h.Stuck → (∀ line, closedBy ⟨h :: rest⟩ line = false) ∧
      ∀ ops, (runCalls HeredocOperation.apply ⟨h :: rest⟩ ops).answers.flatMap closed = [] ∧
        (runCalls HeredocOperation.apply ⟨h :: rest⟩ ops).state.pending =
          h :: rest ++ ops.flatMap announced) ∧
    (¬ h.Stuck → closedBy ⟨h :: rest⟩ (h.marker ++ ['\n']) = true) := by
  refine ⟨fun line => Heredoc.closedBy_iff, fun line => pop_answers_iff,
    fun line d hd => eq_front_of_pop rfl hd, fun hstuck => ?_,
    Heredoc.closesItself_of_not_stuck⟩
  exact ⟨closedBy_of_stuck rfl hstuck, run_of_stuck_front rfl hstuck⟩

/-- The marker of a quoted word can begin with a tab, and then nothing is closed any more. A marker
that ends in a newline is closed behind tabs by itself and one more newline. -/
theorem closedBy_front_stuck_and_free :
    (Heredoc.ofDelimiter ['\'', '\t', 'A', '\''] true).Stuck ∧
      (runCalls HeredocOperation.apply
          ⟨[.ofDelimiter ['\'', '\t', 'A', '\''] true, .ofDelimiter ['B'] false]⟩
          [.pop ['\t', 'A', '\n'], .pop ['B', '\n']]).answers.flatMap closed = [] ∧
      closedBy ⟨[.ofDelimiter ['\'', 'A', '\n', '\''] true]⟩ ['\t', 'A', '\n', '\n'] = true := by
  have hstuck : (Heredoc.ofDelimiter ['\'', '\t', 'A', '\''] true).Stuck := by decide
  have hfree : ¬ (Heredoc.ofDelimiter ['\'', 'A', '\n', '\''] true).Stuck := by decide
  have hspelled : (Heredoc.ofDelimiter ['\'', 'A', '\n', '\''] true).SpelledBy
      ['\t', 'A', '\n', '\n'] := ⟨1, Or.inr rfl, Or.inl (by decide)⟩
  exact ⟨hstuck, ((closedBy_front _ _).2.2.2.1 hstuck).2 _ |>.1,
    ((closedBy_front _ _).1 _).2 ⟨hfree, hspelled⟩⟩

end HeredocQueue

end ShellLexing
