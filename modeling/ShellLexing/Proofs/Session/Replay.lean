import ShellLexing.Proofs.Mode.Unwind
import ShellLexing.Proofs.Session.Refusal

/-!
# The log tells the saved modes and the pending here-documents

Every change of the saved modes and of the pending here-documents is reported. A reader of the log
keeps a `Ledger` of both and enters each event in it: `Ledger.record?` refuses an event that cannot
have happened as the ledger stands.

**Theorem (`replay_run`).** Let any operations be made on any session, failing ones included. A
reader who starts from the ledger of the session can enter all events, and ends with the ledger of
the last session. The same holds at every single event: those up to it lead to the ledger of the
session at that moment, and the number in the event counts the modes that are saved then, or the
here-documents that are pending.

Most operations have done their work when they report, and report at most one event (`ReportsOnce`).
An unwinding first reports what it is about to do and then every single mode that it leaves. The
session at each of these events (`Operation.moment`) is that behind so many calls of `leave`.
-/

namespace ShellLexing

/-! ## The reader's ledger -/

/-- What the events of a session tell of it. -/
structure Ledger where
  /-- The saved modes, the most recent first. -/
  saved : List Mode
  /-- The pending here-documents, each by its marker and whether its body is expanded. -/
  pending : List (Text × Bool)
deriving DecidableEq

def Heredoc.reported (h : Heredoc) : Text × Bool := (h.marker, h.expands)

def Session.ledger (s : Session) : Ledger :=
  ⟨s.modes.saved, s.heredocs.pending.map Heredoc.reported⟩

namespace Ledger

/-- The ledger with an event entered. The mode that is left for has to be the one saved last, and
the here-document that is closed has to be the next one. -/
def record? (l : Ledger) : Event → Option Ledger
  | .modeEntered source _ _ => some { l with saved := source :: l.saved }
  | .modeLeft _ target _ =>
    match l.saved with
    | [] => none
    | m :: rest => if m = target then some { l with saved := rest } else none
  | .heredocQueued marker expands => some { l with pending := l.pending ++ [(marker, expands)] }
  | .heredocClosed marker _ =>
    match l.pending with
    | [] => none
    | (m, _) :: rest => if m = marker then some { l with pending := rest } else none
  | .unwinding .. | .hereStringEntered | .hereStringLeft | .scanFailed .. => some l

/-- The ledger with several events entered, one after the other. -/
def replay? (l : Ledger) (events : List Event) : Option Ledger := events.foldlM record? l

theorem replay?_cons (l : Ledger) (e : Event) (events : List Event) :
    l.replay? (e :: events) = (l.record? e).bind (replay? · events) := rfl

theorem replay?_singleton (l : Ledger) (e : Event) : l.replay? [e] = l.record? e :=
  bind_pure (l.record? e)

theorem replay?_append_of {l m : Ledger} {xs ys : List Event} (h : l.replay? xs = some m) :
    l.replay? (xs ++ ys) = m.replay? ys := by
  rw [replay?, List.foldlM_append, ← replay?, h]
  rfl

theorem record?_modeLeft (source target : Mode) (rest : List Mode) (p : List (Text × Bool))
    (depth : Nat) :
    record? ⟨target :: rest, p⟩ (.modeLeft source target depth) = some ⟨rest, p⟩ :=
  if_pos rfl

theorem record?_heredocClosed (saved : List Mode) (marker : Text) (expands : Bool)
    (p : List (Text × Bool)) (remaining : Nat) :
    record? ⟨saved, (marker, expands) :: p⟩ (.heredocClosed marker remaining) = some ⟨saved, p⟩ :=
  if_pos rfl

end Ledger

/-- The number in an event is that of the saved modes, or of the pending here-documents. -/
def Event.Counts (s : Session) : Event → Prop
  | modeEntered _ _ depth | modeLeft _ _ depth | unwinding _ depth => depth = s.modes.depth
  | heredocClosed _ remaining => remaining = s.heredocs.size
  | hereStringEntered | hereStringLeft | heredocQueued .. | scanFailed .. => True

/-! ## Operations that report at most once -/

/-- A call that leads from `s` to `t` reports nothing, if the ledger is as before, and else one
event that leads to the ledger of `t` and counts in `t`. -/
def ReportsOnce (s t : Session) (events : List Event) : Prop :=
  events = [] ∧ t.ledger = s.ledger ∨
    ∃ e, events = [e] ∧ s.ledger.record? e = some t.ledger ∧ e.Counts t

namespace Operation

theorem reportsOnce_modes (s : Session) {op : ModeOperation} (hop : ∀ target, op ≠ .unwind target) :
    ReportsOnce s ((modes op).apply s).state ((modes op).apply s).events := by
  obtain ⟨⟨active, saved⟩, c, q, n⟩ := s
  cases op with
  | enter m => exact Or.inr ⟨_, rfl, rfl, rfl⟩
  | switch m | holds m => exact Or.inl ⟨rfl, rfl⟩
  | leave =>
    cases saved with
    | nil => exact Or.inl ⟨rfl, rfl⟩
    | cons m rest => exact Or.inr ⟨_, rfl, Ledger.record?_modeLeft _ _ _ _ _, rfl⟩
  | unwind target => exact absurd rfl (hop target)

/-- The ledger shows nothing of the context. -/
theorem reportsOnce_context (s : Session) (op : ContextOperation) :
    ReportsOnce s ((context op).apply s).state ((context op).apply s).events := by
  have hledger : ((context op).apply s).state.ledger = s.ledger := rfl
  cases op with
  | openParen | set f value => exact Or.inl ⟨rfl, hledger⟩
  | leaveHereString => exact Or.inr ⟨_, rfl, rfl, trivial⟩
  | enterHereString =>
    by_cases h : s.context.inHereString = true
    · have hrefuses : s.context.enterHereString = .fail .nestedHereString s.context [] := if_pos h
      exact Or.inl ⟨congrArg Outcome.events hrefuses, hledger⟩
    · have haccepts : s.context.enterHereString = .done () _ [.hereStringEntered] := if_neg h
      exact Or.inr ⟨_, congrArg Outcome.events haccepts, rfl, trivial⟩
  | closeParen =>
    have hevents : s.context.closeParen.events = [] := by
      rw [Context.closeParen]
      split <;> rfl
    exact Or.inl ⟨hevents, hledger⟩

theorem reportsOnce_heredocs (s : Session) (op : HeredocOperation) :
    ReportsOnce s ((heredocs op).apply s).state ((heredocs op).apply s).events := by
  obtain ⟨m, c, q, n⟩ := s
  cases op with
  | push raw ignoresTabs =>
    have hpending : (q.pending ++ [Heredoc.ofDelimiter raw ignoresTabs]).map Heredoc.reported =
        q.pending.map Heredoc.reported ++ [Heredoc.reported (Heredoc.ofDelimiter raw ignoresTabs)] :=
      List.map_append
    exact Or.inr ⟨_, rfl, congrArg (fun p => some (Ledger.mk m.saved p)) hpending.symm, trivial⟩
  | closedBy line => exact Or.inl ⟨rfl, rfl⟩
  | pop line =>
    cases h : q.closedBy line with
    | false =>
      obtain ⟨e, hpop⟩ := HeredocQueue.pop_refuses h
      rw [apply, Session.onHeredocs, HeredocOperation.apply, hpop]
      exact Or.inl ⟨rfl, rfl⟩
    | true =>
      obtain ⟨d, rest, hq, -, hpop⟩ := HeredocQueue.exists_pop h
      rw [apply, Session.onHeredocs, HeredocOperation.apply, hpop]
      refine Or.inr ⟨_, rfl, ?_, rfl⟩
      rw [Session.ledger, hq]
      exact Ledger.record?_heredocClosed _ _ _ _ _

/-- Nothing of the open strings is reported. -/
theorem reportsOnce_quotes (s : Session) (op : QuoteOperation) :
    ReportsOnce s ((quotes op).apply s).state ((quotes op).apply s).events := by
  have hevents : (op.apply s.quotes).events = [] := by
    cases op with
    | enterSubshell | enterString => rfl
    | leaveSubshell =>
      show s.quotes.leaveSubshell.events = []
      rw [QuoteNesting.leaveSubshell]
      split <;> rfl
    | leaveString =>
      show s.quotes.leaveString.events = []
      rw [QuoteNesting.leaveString]
      split <;> rfl
  exact Or.inl ⟨hevents, rfl⟩

end Operation

/-! ## Unwinding -/

namespace ModeStack

theorem replay?_leaves (s : ModeStack) (p : List (Text × Bool)) (n : Nat) :
    Ledger.replay? ⟨s.saved, p⟩ (s.leaves n).events = some ⟨(s.leaves n).state.saved, p⟩ := by
  induction n generalizing s with
  | zero => rfl
  | succ n ih =>
    obtain ⟨active, saved⟩ := s
    cases saved with
    | nil =>
      -- The call fails silently, and the next one meets the same stack.
      exact ih ⟨active, []⟩
    | cons m rest =>
      rw [leaves_cons, Ledger.replay?_cons, Ledger.record?_modeLeft]
      exact ih ⟨m, rest⟩

/-- Each event of several calls of `leave` belongs to one of them. -/
theorem exists_leaves_of_prefix {s : ModeStack} {n : Nat} {told : List Event} {e : Event}
    (h : told ++ [e] <+: (s.leaves n).events) :
    told ++ [e] = (s.leaves (told.length + 1)).events ∧
      ∃ source target, e = .modeLeft source target (s.leaves (told.length + 1)).state.depth := by
  induction n generalizing s told with
  | zero => simp [leaves, runCalls] at h
  | succ n ih =>
    obtain ⟨active, saved⟩ := s
    cases saved with
    | nil => exact ih h
    | cons m rest =>
      rw [leaves_cons] at h
      cases told with
      | nil =>
        obtain ⟨rfl, -⟩ := List.cons_prefix_cons.1 h
        exact ⟨rfl, active, m, rfl⟩
      | cons first told =>
        obtain ⟨rfl, hrest⟩ := List.cons_prefix_cons.1 h
        obtain ⟨hevents, source, target, he⟩ := ih hrest
        rw [List.length_cons, leaves_cons, List.cons_append, hevents]
        exact ⟨rfl, source, target, he⟩

end ModeStack

/-! ## All operations -/

/-- A call leads from `s` to `t`, and its events lead to the ledger of `t`. With `k` events of the
call in front of it, each event leads to the ledger of `moment k` and counts in it. -/
structure Reports (s t : Session) (moment : Nat → Session) (events : List Event) : Prop where
  replay : s.ledger.replay? events = some t.ledger
  replay_each : ∀ told e, told ++ [e] <+: events →
    s.ledger.replay? (told ++ [e]) = some (moment told.length).ledger ∧ e.Counts (moment told.length)

theorem ReportsOnce.reports {s t : Session} {events : List Event} (h : ReportsOnce s t events) :
    Reports s t (fun _ => t) events := by
  rcases h with ⟨rfl, hledger⟩ | ⟨e, rfl, hrecord, hcounts⟩
  · refine ⟨congrArg some hledger.symm, fun told e htold => ?_⟩
    simp at htold
  · have hreplay : s.ledger.replay? [e] = some t.ledger := by
      rw [Ledger.replay?_singleton, hrecord]
    refine ⟨hreplay, fun told e' htold => ?_⟩
    obtain ⟨rfl, rfl⟩ : told = [] ∧ e' = e := by
      cases told with
      | nil => simpa using htold
      | cons first told => simp at htold
    exact ⟨hreplay, hcounts⟩

namespace Operation

/-- The session at the event with `k` events of the operation in front of it. An unwinding leaves
the modes one by one; any other operation has done its work when it reports. -/
def moment (s : Session) : Operation → Nat → Session
  | modes (.unwind _), k => { s with modes := (s.modes.leaves k).state }
  | op, _ => (op.apply s).state

theorem reports_unwind (s : Session) (target : Mode) :
    Reports s ((modes (.unwind target)).apply s).state ((modes (.unwind target)).moment s)
      ((modes (.unwind target)).apply s).events := by
  obtain ⟨n, hstate, hevents⟩ := s.modes.exists_leaves_of_unwind target
  have hledger : ((modes (.unwind target)).apply s).state.ledger =
      ⟨(s.modes.leaves n).state.saved, s.ledger.pending⟩ :=
    congrArg (fun m : ModeStack => Ledger.mk m.saved s.ledger.pending) hstate
  have hreported : ((modes (.unwind target)).apply s).events =
      .unwinding target s.modes.depth :: (s.modes.leaves n).events := hevents
  rw [hreported]
  refine ⟨?_, fun told e htold => ?_⟩
  · rw [hledger]
    exact s.modes.replay?_leaves s.ledger.pending n
  · cases told with
    | nil =>
      obtain ⟨rfl, -⟩ := List.cons_prefix_cons.1 htold
      exact ⟨rfl, rfl⟩
    | cons first told =>
      obtain ⟨rfl, hleaves⟩ := List.cons_prefix_cons.1 htold
      obtain ⟨hcalls, source, target', rfl⟩ := ModeStack.exists_leaves_of_prefix hleaves
      refine ⟨?_, rfl⟩
      rw [List.cons_append, hcalls]
      exact s.modes.replay?_leaves s.ledger.pending (told.length + 1)

theorem reports_apply (s : Session) (op : Operation) :
    Reports s (op.apply s).state (op.moment s) (op.apply s).events := by
  cases op with
  | modes op =>
    cases op with
    | unwind target => exact reports_unwind s target
    | enter m | switch m | leave | holds m =>
      exact (reportsOnce_modes s fun _ => ModeOperation.noConfusion).reports
  | context op => exact (reportsOnce_context s op).reports
  | heredocs op => exact (reportsOnce_heredocs s op).reports
  | quotes op => exact (reportsOnce_quotes s op).reports

end Operation

/-! ## Runs -/

namespace Session

/-- In a run of `ops`, event `e` is reported behind the events `told`, and the session is `now` at
this moment. -/
def Tells (s : Session) (ops : List Operation) (told : List Event) (e : Event) (now : Session) :
    Prop :=
  ∃ before op after own, ops = before ++ op :: after ∧
    told = (runCalls Operation.apply s before).events ++ own ∧
    own ++ [e] <+: (op.apply (runCalls Operation.apply s before).state).events ∧
    now = op.moment (runCalls Operation.apply s before).state own.length

theorem replay?_runCalls (s : Session) (ops : List Operation) :
    s.ledger.replay? (runCalls Operation.apply s ops).events =
      some (runCalls Operation.apply s ops).state.ledger := by
  induction ops generalizing s with
  | nil => rfl
  | cons op ops ih =>
    rw [runCalls, Ledger.replay?_append_of (Operation.reports_apply s op).replay]
    exact ih (op.apply s).state

/-- **The log tells the saved modes and the pending here-documents.** The events of any run of
operations lead from the ledger of the first session to that of the last one. Each of them is
reported at some moment of the run. Up to it the events lead to the ledger of the session at this
moment, and the number in the event counts what is saved or pending there. -/
theorem replay_run (s : Session) (ops : List Operation) :
    s.ledger.replay? (runCalls Operation.apply s ops).events =
        some (runCalls Operation.apply s ops).state.ledger ∧
      (∀ told e, told ++ [e] <+: (runCalls Operation.apply s ops).events →
        ∃ now, s.Tells ops told e now) ∧
      ∀ told e now, s.Tells ops told e now →
        s.ledger.replay? (told ++ [e]) = some now.ledger ∧ e.Counts now := by
  refine ⟨s.replay?_runCalls ops, fun told e htold => ?_, fun told e now htells => ?_⟩
  · obtain ⟨before, op, after, own, hops, hown, hreported⟩ := exists_call_of_prefix htold
    exact ⟨_, before, op, after, own, hops, hown, hreported, rfl⟩
  · obtain ⟨before, op, after, own, rfl, rfl, hreported, rfl⟩ := htells
    rw [List.append_assoc, Ledger.replay?_append_of (s.replay?_runCalls before)]
    exact (Operation.reports_apply _ op).replay_each own e hreported

/-- A here-document is refused its end, and after the unwinding there is no mode to leave. At the
first mode that the unwinding leaves, two more are saved. -/
theorem replay_run_unwinding :
    let s : Session := { Session.start {} with
      modes := ⟨⟨3⟩, [⟨1⟩, .initial]⟩, heredocs := ⟨[⟨['A'], true, false⟩]⟩ }
    let before : List Operation := [.heredocs (.pop ['x']), .modes (.enter ⟨2⟩),
      .modes (.switch ⟨5⟩), .heredocs (.push ['\\', 'B'] true)]
    let after : List Operation := [.modes .leave, .heredocs (.pop ['A', '\n'])]
    let ops := before ++ .modes (.unwind .initial) :: after
    let told : List Event :=
      [.modeEntered ⟨3⟩ ⟨2⟩ 3, .heredocQueued ['B'] false, .unwinding .initial 3]
    let e : Event := .modeLeft ⟨5⟩ ⟨3⟩ 2
    s.ledger.replay? (runCalls Operation.apply s ops).events = some ⟨[], [(['B'], false)]⟩ ∧
      told ++ [e] <+: (runCalls Operation.apply s ops).events ∧
      ∃ now, s.Tells ops told e now ∧ now.modes = ⟨⟨3⟩, [⟨1⟩, .initial]⟩ ∧
        s.ledger.replay? (told ++ [e]) = some now.ledger ∧ e.Counts now := by
  intro s before after ops told e
  obtain ⟨hreplay, -, hmoment⟩ := replay_run s ops
  have hevents : told ++ [e] <+: (runCalls Operation.apply s ops).events := by decide
  have htells : s.Tells ops told e _ :=
    ⟨before, .modes (.unwind .initial), after, [.unwinding .initial 3], rfl, rfl, by decide, rfl⟩
  exact ⟨hreplay, hevents, _, htells, rfl, hmoment told e _ htells⟩

end Session

end ShellLexing
