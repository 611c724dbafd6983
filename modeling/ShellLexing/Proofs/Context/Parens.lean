import ShellLexing.Proofs.Session.Axes
import ShellLexing.Proofs.Tally

/-!
# Open parentheses

A closing parenthesis that meets no open one is refused, and the count stays at zero. It is not
made up for by an opening parenthesis later on, so how many parentheses are open in the end depends
on the order of the operations, and not only on how many of each there are.

**Theorem (`isGreatest_openParens`).** Let any operations be made on a new context.

* The number of parentheses that are open in the end is the greatest excess of opening over closing
  ones that an end of the list of operations has.
* The number of closing parentheses that are refused is the greatest excess of closing over opening
  ones that a beginning of the list has.

The first part is the closed form of a tally, read backwards from the end of the list. The second
follows from it, because parentheses are conserved (`openParens_run_balance`): the open ones and the
closing ones are together as many as the opening ones and the refused ones. So the excess of an end
of the list is turned into the excess of the beginning in front of it.
-/

namespace ShellLexing

/-- What an operation does to the count of open parentheses: the count in front of it, the
operation, its answer, and the count behind it. -/
inductive ParenStep : Count → ContextOperation → Except Violation Reply → Count → Prop
  | opened (n : Count) : ParenStep n .openParen (.ok .done) n.succ
  | closed {n m : Count} (h : n.toNat = m.toNat + 1) : ParenStep n .closeParen (.ok .done) m
  | refused {n : Count} (h : n.toNat = 0) :
    ParenStep n .closeParen (.error .noOpenParenthesis) n
  | idle (n : Count) {op : ContextOperation} {answer : Except Violation Reply}
    (hopen : op ≠ .openParen) (hclose : op ≠ .closeParen)
    (hanswer : answer ≠ .error .noOpenParenthesis) : ParenStep n op answer n

namespace Context

theorem parenStep_apply (c : Context) (op : ContextOperation) :
    ParenStep c.openParens op (op.apply c).answer (op.apply c).state.openParens := by
  cases op with
  | openParen => exact .opened c.openParens
  | closeParen =>
    rw [ContextOperation.apply, Outcome.answer_map, Outcome.state_map, answer_closeParen,
      state_closeParen]
    cases h : c.openParens.pred? with
    | none => exact .refused (Count.pred?_eq_none_iff.1 h)
    | some n => exact .closed (Count.pred?_eq_some_iff.1 h)
  | enterHereString =>
    rw [ContextOperation.apply, Outcome.answer_map, Outcome.state_map, answer_enterHereString,
      state_enterHereString]
    refine .idle c.openParens (by simp) (by simp) ?_
    split <;> simp [Except.map]
  | leaveHereString =>
    refine .idle c.openParens (by simp) (by simp) ?_
    simp [ContextOperation.apply, leaveHereString, Except.map]
  | set f b =>
    have hkept : (c.set f b).openParens = c.openParens :=
      value_set_of_ne (a := .parens) c b (by simp)
    rw [ContextOperation.apply, Outcome.state_done, hkept]
    exact .idle c.openParens (by simp) (by simp) (by simp)

end Context

namespace ParenStep

variable {n m : Count} {op : ContextOperation} {answer : Except Violation Reply}

theorem tally_cons {past : List ContextOperation} (h : ParenStep n op answer m)
    (hn : n = Count.tally .openParen .closeParen past) :
    m = Count.tally .openParen .closeParen (op :: past) := by
  subst hn
  cases h with
  | opened => exact (Count.tally_cons_more ..).symm
  | closed h =>
    apply Count.ext
    rw [Count.toNat_tally_cons_less (by decide), h, Nat.add_sub_cancel]
  | refused h =>
    apply Count.ext
    rw [Count.toNat_tally_cons_less (by decide), h]
  | idle hopen hclose _ => exact (Count.tally_cons_other hopen hclose past).symm

theorem balance (h : ParenStep n op answer m)
    (hroom : n.toNat + [op].count .openParen ≤ Count.limit) :
    m.toNat + [op].count .closeParen =
      n.toNat + [op].count .openParen + [answer].count (.error .noOpenParenthesis) := by
  cases h with
  | opened =>
    rw [List.count_singleton_self] at hroom
    rw [Count.toNat_succ hroom]
    rfl
  | closed h =>
    rw [h]
    rfl
  | refused h =>
    rw [h]
    rfl
  | idle hopen hclose hanswer =>
    simp [hopen, hclose, hanswer]

theorem toNat_le (h : ParenStep n op answer m) : m.toNat ≤ n.toNat + [op].count .openParen := by
  cases h with
  | opened => exact Count.toNat_succ_le n
  | closed h =>
    rw [h]
    exact Nat.le_add_right m.toNat 1
  | refused | idle => exact Nat.le_add_right ..

end ParenStep

namespace Context

theorem openParens_run (v : ShellVersion) (ops : List ContextOperation) :
    (runCalls ContextOperation.apply (fresh v) ops).state.openParens =
      Count.tally .openParen .closeParen ops.reverse := by
  induction ops using List.reverseRecOn with
  | nil => rfl
  | append_singleton ops op ih =>
    rw [state_runCalls_concat, List.reverse_append, List.reverse_singleton, List.singleton_append]
    exact (parenStep_apply _ op).tally_cons ih

theorem openParens_run_balance (c : Context) (ops : List ContextOperation)
    (hroom : c.openParens.toNat + ops.count .openParen ≤ Count.limit) :
    (runCalls ContextOperation.apply c ops).state.openParens.toNat + ops.count .closeParen =
      c.openParens.toNat + ops.count .openParen +
        (runCalls ContextOperation.apply c ops).answers.count (.error .noOpenParenthesis) := by
  induction ops generalizing c with
  | nil => rfl
  | cons op ops ih =>
    -- A step opens one parenthesis at most, so the limit is not met in the rest of the run either.
    have hstep := parenStep_apply c op
    have hle := hstep.toNat_le
    rw [List.count_singleton] at hle
    rw [List.count_cons] at hroom
    have hfirst := hstep.balance (by rw [List.count_singleton]; omega)
    simp only [List.count_singleton] at hfirst
    have hrest := ih (op.apply c).state (by omega)
    simp only [runCalls, List.count_cons]
    omega

/-- **Open and refused parentheses.** After a run on a new context, the count of open parentheses is
the greatest excess of opening over closing ones in an end of the run, and as many closing ones were
refused as the greatest excess of closing over opening ones in a beginning of the run says. Fewer
than `2 ^ 32` parentheses have to be opened, because the count goes no further. -/
theorem isGreatest_openParens (v : ShellVersion) (ops : List ContextOperation)
    (hroom : ops.count .openParen ≤ Count.limit) :
    IsGreatest (Count.excess .openParen .closeParen '' {last | last <:+ ops})
        (runCalls ContextOperation.apply (fresh v) ops).state.openParens.toNat ∧
      IsGreatest (Count.excess .closeParen .openParen '' {first | first <+: ops})
        ((runCalls ContextOperation.apply (fresh v) ops).answers.count
          (.error .noOpenParenthesis)) := by
  have hopen : IsGreatest (Count.excess .openParen .closeParen '' {last | last <:+ ops})
      (runCalls ContextOperation.apply (fresh v) ops).state.openParens.toNat := by
    rw [openParens_run]
    exact Count.isGreatest_tally (by decide) hroom
  have hbalance := openParens_run_balance (fresh v) ops (by simpa [fresh] using hroom)
  have hrefused : ((runCalls ContextOperation.apply (fresh v) ops).answers.count
      (.error .noOpenParenthesis) : Int) =
      (runCalls ContextOperation.apply (fresh v) ops).state.openParens.toNat +
        Count.excess .closeParen .openParen ops := by
    have hzero : (fresh v).openParens.toNat = 0 := rfl
    rw [Count.excess]
    omega
  rw [hrefused]
  exact ⟨hopen, Count.isGreatest_excess_beginnings hopen⟩

/-- Two closing parentheses come too early and are refused. Those that are opened later do not make
up for them, so two parentheses are open in the end. -/
theorem isGreatest_openParens_refused :
    let ops : List ContextOperation := [.closeParen, .openParen, .set .caseBody true, .closeParen,
      .closeParen, .enterHereString, .openParen, .enterHereString, .openParen, .closeParen, .openParen]
    ops.count .openParen ≤ Count.limit ∧
      (runCalls ContextOperation.apply (fresh .bash4) ops).state.openParens.toNat = 2 ∧
      (runCalls ContextOperation.apply (fresh .bash4) ops).answers.count
        (.error .noOpenParenthesis) = 2 ∧
      IsGreatest (Count.excess .openParen .closeParen '' {last | last <:+ ops}) 2 ∧
      IsGreatest (Count.excess .closeParen .openParen '' {first | first <+: ops}) 2 := by
  intro ops
  have hroom : ops.count .openParen ≤ Count.limit := by decide
  have hopen : (runCalls ContextOperation.apply (fresh .bash4) ops).state.openParens.toNat = 2 := by
    decide
  have hrefused : (runCalls ContextOperation.apply (fresh .bash4) ops).answers.count
      (.error .noOpenParenthesis) = 2 := by decide
  have hgreatest := isGreatest_openParens .bash4 ops hroom
  rw [hopen, hrefused] at hgreatest
  exact ⟨hroom, hopen, hrefused, hgreatest⟩

end Context

end ShellLexing
