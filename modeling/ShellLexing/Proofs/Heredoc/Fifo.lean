import ShellLexing.Proofs.Run
import ShellLexing.Session.Operation

/-!
# The queue of here-documents loses nothing

The history of a queue is a list of operations, made on the empty queue in any order and with any
arguments. It announces here-documents (`announced`), and its answers give back those that were
closed (`closed`).

**Conservation.** One operation keeps the balance between what is announced, what is closed and
what is pending (`pending_apply`), and so does a whole history (`pending_run`). Since an operation
takes from the front and adds at the back, the here-documents that are closed are the first of
those that were announced, and the rest are pending.

**Silence.** A query and a failed attempt to close leave the queue as it is, so a history without
them gives the same answers (`apply_of_idle`).
-/

namespace ShellLexing

namespace HeredocOperation

/-- The here-document that an operation announces, if it announces one. -/
def announced : HeredocOperation → List Heredoc
  | push raw ignoresTabs =>
    [⟨Delimiter.marker raw ignoresTabs, Delimiter.expands raw, ignoresTabs⟩]
  | closedBy _ => []
  | pop _ => []

/-- An operation that only asks, or that fails. -/
def Idle (q : HeredocQueue) (op : HeredocOperation) : Prop :=
  (∃ line, op = closedBy line) ∨ ∃ e, (op.apply q).answer = .error e

/-- The here-document that an answer gives back, if it gives back one. -/
def closed : Except Violation Reply → List Heredoc
  | .ok (.heredoc h) => [h]
  | _ => []

end HeredocOperation

open HeredocOperation

namespace HeredocQueue

/-! ## One operation -/

theorem pending_apply (q : HeredocQueue) (op : HeredocOperation) :
    q.pending ++ op.announced = closed (op.apply q).answer ++ (op.apply q).state.pending := by
  cases op with
  | push raw ignoresTabs => rfl
  | closedBy line => exact List.append_nil _
  | pop line =>
    obtain ⟨pending⟩ := q
    cases pending with
    | nil => rfl
    | cons h rest =>
      simp only [announced, HeredocOperation.apply, pop, List.append_nil]
      split
      · rfl
      · rfl

theorem apply_of_idle {q : HeredocQueue} {op : HeredocOperation} (h : op.Idle q) :
    (op.apply q).state = q ∧ (op.apply q).events = [] := by
  rcases h with ⟨line, rfl⟩ | ⟨e, he⟩
  · exact ⟨rfl, rfl⟩
  · cases op with
    | push raw ignoresTabs => cases he
    | closedBy line => exact ⟨rfl, rfl⟩
    | pop line =>
      obtain ⟨pending⟩ := q
      cases pending with
      | nil => exact ⟨rfl, rfl⟩
      | cons h rest =>
        simp only [HeredocOperation.apply, pop] at he ⊢
        split at he
        · cases he
        · next hline =>
          rw [if_neg hline]
          exact ⟨rfl, rfl⟩

/-! ## A whole history -/

theorem pending_run (q : HeredocQueue) (ops : List HeredocOperation) :
    q.pending ++ ops.flatMap announced =
      (runCalls HeredocOperation.apply q ops).answers.flatMap closed ++
        (runCalls HeredocOperation.apply q ops).state.pending := by
  induction ops generalizing q with
  | nil => exact List.append_nil _
  | cons op ops ih =>
    calc q.pending ++ (op :: ops).flatMap announced
      _ = q.pending ++ op.announced ++ ops.flatMap announced := by
        rw [List.flatMap_cons, List.append_assoc]
      _ = closed (op.apply q).answer ++
          ((op.apply q).state.pending ++ ops.flatMap announced) := by
        rw [pending_apply, List.append_assoc]
      _ = _ := by
        rw [ih, ← List.append_assoc]
        rfl

/-- **First in, first out.** In every history of the empty queue, the here-documents that are closed
are a prefix of those that were announced, the others are pending in the order of their
announcement, and an idle operation changes nothing but the list of answers, in which its own is
missing when it is left out. -/
theorem fifo (ops : List HeredocOperation) :
    let r := runCalls HeredocOperation.apply empty ops
    r.answers.flatMap closed <+: ops.flatMap announced ∧
    ops.flatMap announced = r.answers.flatMap closed ++ r.state.pending ∧
    r.state.size = (ops.flatMap announced).length - (r.answers.flatMap closed).length ∧
    ∀ before op after, ops = before ++ op :: after →
      op.Idle (runCalls HeredocOperation.apply empty before).state →
        runCalls HeredocOperation.apply empty (before ++ after) =
          { r with answers := r.answers.eraseIdx before.length } := by
  intro r
  have hbalance : ops.flatMap announced = r.answers.flatMap closed ++ r.state.pending :=
    pending_run empty ops
  refine ⟨⟨r.state.pending, hbalance.symm⟩, hbalance, ?_, ?_⟩
  · rw [hbalance, List.length_append, Nat.add_sub_cancel_left]
    rfl
  · intro before op after hops hidle
    subst hops
    obtain ⟨hstate, hevents⟩ := apply_of_idle hidle
    exact runCalls_of_silent hstate hevents

end HeredocQueue

/-- A line that closes nothing can be left out between two announcements. -/
theorem fifo_without_wrong_line :
    (pop ['B']).Idle (runCalls HeredocOperation.apply .empty [push ['A'] false]).state ∧
      runCalls HeredocOperation.apply .empty
          [push ['A'] false, push ['\'', 'B', '\''] true, pop ['A', '\n']] =
        { runCalls HeredocOperation.apply .empty
            [push ['A'] false, pop ['B'], push ['\'', 'B', '\''] true, pop ['A', '\n']] with
          answers := [.ok .done, .ok .done, .ok (.heredoc ⟨['A'], true, false⟩)] } :=
  ⟨.inr ⟨_, rfl⟩,
    (HeredocQueue.fifo
      [push ['A'] false, pop ['B'], push ['\'', 'B', '\''] true, pop ['A', '\n']]).2.2.2
      [push ['A'] false] (pop ['B']) _ rfl (.inr ⟨_, rfl⟩)⟩

end ShellLexing
