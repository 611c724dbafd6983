import ShellLexing.Session.Operation

/-!
# Refused operations

An operation on a session fails exactly when it is to close, to take away or to begin what the
session does not allow at this point. `Operation.Refused` lists these cases. It is said without the
operations themselves: in terms of the saved modes, the counts, the flag for here-strings and the
here-document in front.

**All or nothing** (`Operation.fails_iff_refused`). An operation fails exactly where it is refused,
and then the whole session is as it was. Nothing is reported either, apart from the announcement
with which an unwinding of modes begins.

An unwinding is a loop of single steps, each of which could fail. It never fails half-way
(`ModeStack.exists_leaveUntil`): a step is made only while a mode is saved.
-/

namespace ShellLexing

/-! ## Accepted and refused calls -/

namespace Outcome

variable {ε σ τ α β : Type}

/-- The call answered. -/
def Accepts (o : Outcome ε σ α) : Prop := ∃ a s ev, o = done a s ev

/-- The call failed; it left `s` behind and reported `notice`. -/
def Refuses (o : Outcome ε σ α) (s : σ) (notice : List Event) : Prop := ∃ e, o = fail e s notice

theorem Accepts.map {o : Outcome ε σ α} (h : o.Accepts) (f : α → β) : (o.map f).Accepts := by
  obtain ⟨a, s, ev, rfl⟩ := h
  exact ⟨f a, s, ev, rfl⟩

theorem Refuses.map {o : Outcome ε σ α} {s : σ} {notice : List Event} (h : o.Refuses s notice)
    (f : α → β) : (o.map f).Refuses s notice := by
  obtain ⟨e, rfl⟩ := h
  exact ⟨e, rfl⟩

theorem Accepts.within {o : Outcome ε σ α} (h : o.Accepts) (f : σ → τ) : (o.within f).Accepts := by
  obtain ⟨a, s, ev, rfl⟩ := h
  exact ⟨a, f s, ev, rfl⟩

theorem Refuses.within {o : Outcome ε σ α} {s : σ} {notice : List Event} (h : o.Refuses s notice)
    (f : σ → τ) : (o.within f).Refuses (f s) notice := by
  obtain ⟨e, rfl⟩ := h
  exact ⟨e, rfl⟩

/-- A call that refuses in some case and accepts in all others fails in this case. -/
theorem fails_iff {o : Outcome ε σ α} {s : σ} {notice : List Event} {refused : Prop}
    (hrefuses : refused → o.Refuses s notice) (haccepts : ¬ refused → o.Accepts) :
    (∃ e, o.answer = .error e) ↔ refused := by
  refine ⟨fun ⟨e, he⟩ => ?_, fun h => ?_⟩
  · refine Classical.byContradiction fun h => ?_
    obtain ⟨a, s', ev, rfl⟩ := haccepts h
    cases he
  · obtain ⟨e, rfl⟩ := hrefuses h
    exact ⟨e, rfl⟩

end Outcome

/-! ## The cases of refusal -/

def ModeOperation.Refused (s : ModeStack) : ModeOperation → Prop
  | leave => s.saved = []
  | unwind target => target = s.active ∧ s.saved = []
  | enter _ | switch _ | holds _ => False

def ContextOperation.Refused (c : Context) : ContextOperation → Prop
  | enterHereString => c.inHereString = true
  | closeParen => c.openParens.toNat = 0
  | leaveHereString | openParen | set _ _ => False

def HeredocOperation.Refused (q : HeredocQueue) : HeredocOperation → Prop
  | pop line => q.closedBy line = false
  | push _ _ | closedBy _ => False

def QuoteOperation.Refused (n : QuoteNesting) : QuoteOperation → Prop
  | leaveString => n.innermost.toNat = 0
  | leaveSubshell => n.enclosing = []
  | enterSubshell | enterString => False

/-- The session does not have what the operation needs. -/
def Operation.Refused (s : Session) : Operation → Prop
  | modes op => op.Refused s.modes
  | context op => op.Refused s.context
  | heredocs op => op.Refused s.heredocs
  | quotes op => op.Refused s.quotes

/-- What an operation on modes reports before it tries anything. -/
def ModeOperation.notice (s : ModeStack) : ModeOperation → List Event
  | unwind target => [.unwinding target s.depth]
  | enter _ | switch _ | leave | holds _ => []

/-- What an operation reports before it tries anything. -/
def Operation.notice (s : Session) : Operation → List Event
  | modes op => op.notice s.modes
  | context _ | heredocs _ | quotes _ => []

/-! ## Modes -/

namespace ModeStack

theorem leave_of_saved_eq_nil {s : ModeStack} (h : s.saved = []) :
    s.leave = .fail (.noSavedMode s.active) s [] := by
  rw [leave, h]

theorem exists_leave {s : ModeStack} (h : s.saved ≠ []) :
    ∃ m rest, s.saved = m :: rest ∧
      s.leave = .done m ⟨m, rest⟩ [.modeLeft s.active m rest.length] := by
  obtain ⟨m, rest, hs⟩ := List.exists_cons_of_ne_nil h
  exact ⟨m, rest, hs, by rw [leave, hs]; rfl⟩

/-- Leaving one mode after the other stops in good time. -/
theorem exists_leaveUntil (target active : Mode) (saved : List Mode) :
    ∃ s ev, leaveUntil target active saved = .done () s ev := by
  induction saved generalizing active with
  | nil => exact ⟨⟨active, []⟩, [], rfl⟩
  | cons m rest ih =>
    have hleave : leave ⟨active, m :: rest⟩ = .done m ⟨m, rest⟩ [.modeLeft active m rest.length] :=
      rfl
    rw [leaveUntil, hleave, Outcome.andThen_done]
    by_cases hm : m = target
    · rw [if_pos hm]
      exact ⟨_, _, rfl⟩
    · rw [if_neg hm]
      obtain ⟨s, ev, h⟩ := ih m
      rw [h]
      exact ⟨s, _, rfl⟩

theorem unwind_of_refused {s : ModeStack} (h : s.saved = []) :
    (s.unwind s.active).Refuses s [.unwinding s.active s.depth] := by
  rw [unwind, if_pos rfl, leave_of_saved_eq_nil h]
  exact ⟨_, rfl⟩

theorem unwind_accepts {s : ModeStack} {target : Mode} (h : target = s.active → s.saved ≠ []) :
    (s.unwind target).Accepts := by
  unfold unwind
  by_cases hactive : s.active = target
  · obtain ⟨m, rest, -, hleave⟩ := exists_leave (h hactive.symm)
    rw [if_pos hactive, hleave]
    exact ⟨_, _, _, rfl⟩
  · rw [if_neg hactive]
    by_cases hsaved : target ∈ s.saved
    · obtain ⟨s', ev, hloop⟩ := exists_leaveUntil target s.active s.saved
      rw [if_pos hsaved, hloop]
      exact ⟨_, _, _, rfl⟩
    · rw [if_neg hsaved]
      exact ⟨_, _, _, rfl⟩

end ModeStack

theorem ModeOperation.refuses_of_refused {s : ModeStack} {op : ModeOperation} (h : op.Refused s) :
    (op.apply s).Refuses s (op.notice s) := by
  cases op with
  | enter m | switch m | holds m => exact h.elim
  | leave => exact Outcome.Refuses.map ⟨_, ModeStack.leave_of_saved_eq_nil h⟩ _
  | unwind target =>
    obtain ⟨rfl, hsaved⟩ := h
    exact (ModeStack.unwind_of_refused hsaved).map _

theorem ModeOperation.accepts_of_not_refused {s : ModeStack} {op : ModeOperation}
    (h : ¬ op.Refused s) : (op.apply s).Accepts := by
  cases op with
  | enter m | switch m | holds m => exact ⟨_, _, _, rfl⟩
  | leave =>
    obtain ⟨m, rest, -, hleave⟩ := ModeStack.exists_leave h
    exact Outcome.Accepts.map ⟨_, _, _, hleave⟩ _
  | unwind target =>
    exact (ModeStack.unwind_accepts fun ht hs => h ⟨ht, hs⟩).map _

theorem ModeOperation.fails_iff (s : ModeStack) (op : ModeOperation) :
    (∃ e, (op.apply s).answer = .error e) ↔ op.Refused s :=
  Outcome.fails_iff ModeOperation.refuses_of_refused ModeOperation.accepts_of_not_refused

/-! ## The other components -/

theorem ContextOperation.refuses_of_refused {c : Context} {op : ContextOperation}
    (h : op.Refused c) : (op.apply c).Refuses c [] := by
  cases op with
  | leaveHereString | openParen | set f value => exact h.elim
  | enterHereString => exact Outcome.Refuses.map ⟨_, if_pos h⟩ _
  | closeParen =>
    have hpred : c.openParens.pred? = none := Count.pred?_eq_none_iff.2 h
    exact Outcome.Refuses.map ⟨.noOpenParenthesis, by rw [Context.closeParen, hpred]⟩ _

theorem ContextOperation.accepts_of_not_refused {c : Context} {op : ContextOperation}
    (h : ¬ op.Refused c) : (op.apply c).Accepts := by
  cases op with
  | leaveHereString | openParen | set f value => exact ⟨_, _, _, rfl⟩
  | enterHereString => exact Outcome.Accepts.map ⟨_, _, _, if_neg h⟩ _
  | closeParen =>
    cases hpred : c.openParens.pred? with
    | none => exact absurd (Count.pred?_eq_none_iff.1 hpred) h
    | some n =>
      exact Outcome.Accepts.map ⟨(), _, [], by rw [Context.closeParen, hpred]⟩ _

theorem HeredocQueue.pop_refuses {q : HeredocQueue} {line : Text} (h : q.closedBy line = false) :
    (q.pop line).Refuses q [] := by
  obtain ⟨pending⟩ := q
  cases pending with
  | nil => exact ⟨_, rfl⟩
  | cons d rest =>
    have hline : ¬ d.closedBy line = true := Bool.eq_false_iff.1 h
    exact ⟨_, if_neg hline⟩

theorem HeredocQueue.exists_pop {q : HeredocQueue} {line : Text} (h : q.closedBy line = true) :
    ∃ d rest, q.pending = d :: rest ∧ d.closedBy line = true ∧
      q.pop line = .done d ⟨rest⟩ [.heredocClosed d.marker rest.length] := by
  obtain ⟨pending⟩ := q
  cases pending with
  | nil => cases h
  | cons d rest =>
    have hline : d.closedBy line = true := h
    exact ⟨d, rest, rfl, hline, if_pos hline⟩

theorem HeredocOperation.refuses_of_refused {q : HeredocQueue} {op : HeredocOperation}
    (h : op.Refused q) : (op.apply q).Refuses q [] := by
  cases op with
  | push raw ignoresTabs | closedBy line => exact h.elim
  | pop line => exact (HeredocQueue.pop_refuses h).map _

theorem HeredocOperation.accepts_of_not_refused {q : HeredocQueue} {op : HeredocOperation}
    (h : ¬ op.Refused q) : (op.apply q).Accepts := by
  cases op with
  | push raw ignoresTabs | closedBy line => exact ⟨_, _, _, rfl⟩
  | pop line =>
    obtain ⟨d, rest, -, -, hpop⟩ := HeredocQueue.exists_pop (eq_true_of_ne_false h)
    exact Outcome.Accepts.map ⟨_, _, _, hpop⟩ _

theorem QuoteOperation.refuses_of_refused {n : QuoteNesting} {op : QuoteOperation}
    (h : op.Refused n) : (op.apply n).Refuses n [] := by
  cases op with
  | enterSubshell | enterString => exact h.elim
  | leaveSubshell =>
    have henclosing : n.enclosing = [] := h
    exact Outcome.Refuses.map ⟨.noOpenSubshell, by rw [QuoteNesting.leaveSubshell, henclosing]⟩ _
  | leaveString =>
    have hpred : n.innermost.pred? = none := Count.pred?_eq_none_iff.2 h
    exact Outcome.Refuses.map ⟨.noOpenString, by rw [QuoteNesting.leaveString, hpred]⟩ _

theorem QuoteOperation.accepts_of_not_refused {n : QuoteNesting} {op : QuoteOperation}
    (h : ¬ op.Refused n) : (op.apply n).Accepts := by
  cases op with
  | enterSubshell | enterString => exact ⟨_, _, _, rfl⟩
  | leaveSubshell =>
    obtain ⟨c, rest, hc⟩ := List.exists_cons_of_ne_nil h
    exact Outcome.Accepts.map ⟨(), ⟨c, rest⟩, [], by rw [QuoteNesting.leaveSubshell, hc]⟩ _
  | leaveString =>
    cases hpred : n.innermost.pred? with
    | none => exact absurd (Count.pred?_eq_none_iff.1 hpred) h
    | some c => exact Outcome.Accepts.map ⟨(), _, [], by rw [QuoteNesting.leaveString, hpred]⟩ _

/-! ## Sessions -/

theorem Operation.refuses_of_refused {s : Session} {op : Operation} (h : op.Refused s) :
    (op.apply s).Refuses s (op.notice s) := by
  cases op with
  | modes op =>
    exact (ModeOperation.refuses_of_refused h).within fun m => { s with modes := m }
  | context op =>
    exact (ContextOperation.refuses_of_refused h).within fun c => { s with context := c }
  | heredocs op =>
    exact (HeredocOperation.refuses_of_refused h).within fun q => { s with heredocs := q }
  | quotes op =>
    exact (QuoteOperation.refuses_of_refused h).within fun n => { s with quotes := n }

theorem Operation.accepts_of_not_refused {s : Session} {op : Operation} (h : ¬ op.Refused s) :
    (op.apply s).Accepts := by
  cases op with
  | modes op =>
    exact (ModeOperation.accepts_of_not_refused h).within fun m => { s with modes := m }
  | context op =>
    exact (ContextOperation.accepts_of_not_refused h).within fun c => { s with context := c }
  | heredocs op =>
    exact (HeredocOperation.accepts_of_not_refused h).within fun q => { s with heredocs := q }
  | quotes op =>
    exact (QuoteOperation.accepts_of_not_refused h).within fun n => { s with quotes := n }

/-- **All or nothing.** An operation on a session fails exactly where it is refused. When it fails,
the session is as it was, and nothing is reported but the announcement of an unwinding. -/
theorem Operation.fails_iff_refused (s : Session) (op : Operation) :
    ((∃ e, (op.apply s).answer = .error e) ↔ op.Refused s) ∧
      ∀ e, (op.apply s).answer = .error e →
        (op.apply s).state = s ∧ (op.apply s).events = op.notice s := by
  by_cases h : op.Refused s
  · obtain ⟨e, he⟩ := Operation.refuses_of_refused h
    rw [he]
    exact ⟨⟨fun _ => h, fun _ => ⟨e, rfl⟩⟩, fun _ _ => ⟨rfl, rfl⟩⟩
  · obtain ⟨r, s', ev, hdone⟩ := Operation.accepts_of_not_refused h
    rw [hdone]
    refine ⟨⟨fun hfail => ?_, fun hrefused => absurd hrefused h⟩, fun e hfail => ?_⟩
    · obtain ⟨e, hfail⟩ := hfail
      cases hfail
    · cases hfail

/-- In a new session the initial mode cannot be unwound, and only the attempt is reported. -/
theorem Operation.fails_iff_refused_fresh :
    let s := Session.start {}
    let op := Operation.modes (.unwind .initial)
    op.Refused s ∧ (op.apply s).answer = .error (.noSavedMode .initial) ∧
      (op.apply s).state = s ∧ (op.apply s).events = [.unwinding .initial 0] :=
  ⟨⟨rfl, rfl⟩, rfl, (Operation.fails_iff_refused _ _).2 _ rfl⟩

end ShellLexing
