import ShellLexing.Event

/-!
# Outcomes

A call on a stateful object has three results: its answer, which may be a failure, the state that
it leaves behind, and the events that it reports. A failed call has a state and events as well, so
that what a failure leaves behind can be stated. `Outcome.andThen` is sequencing: the second call
runs on the state that the first left, and only if the first answered.
-/

namespace ShellLexing

/-- What a call gives: an answer or a failure, a state, and events in the order of their report. -/
structure Outcome (ε σ α : Type) where
  answer : Except ε α
  state : σ
  events : List Event

namespace Outcome

variable {ε δ σ τ α β : Type}

def done (a : α) (s : σ) (events : List Event) : Outcome ε σ α := ⟨.ok a, s, events⟩

def fail (e : ε) (s : σ) (events : List Event) : Outcome ε σ α := ⟨.error e, s, events⟩

/-- The outcome with `events` reported in front of its own. -/
def after (events : List Event) (o : Outcome ε σ α) : Outcome ε σ α :=
  { o with events := events ++ o.events }

/-- The outcome of a call that goes on with `next` if the first part answers. -/
def andThen (o : Outcome ε σ α) (next : α → σ → Outcome ε σ β) : Outcome ε σ β :=
  match o.answer with
  | .ok a => (next a o.state).after o.events
  | .error e => fail e o.state o.events

def map (f : α → β) (o : Outcome ε σ α) : Outcome ε σ β :=
  ⟨o.answer.map f, o.state, o.events⟩

def mapFailure (f : ε → δ) (o : Outcome ε σ α) : Outcome δ σ α :=
  ⟨o.answer.mapError f, o.state, o.events⟩

/-- The outcome as seen in a larger state. -/
def within (f : σ → τ) (o : Outcome ε σ α) : Outcome ε τ α :=
  ⟨o.answer, f o.state, o.events⟩

/-! ## The three results -/

@[simp] theorem answer_done (a : α) (s : σ) (ev : List Event) :
    (done a s ev : Outcome ε σ α).answer = .ok a := rfl

@[simp] theorem state_done (a : α) (s : σ) (ev : List Event) :
    (done a s ev : Outcome ε σ α).state = s := rfl

@[simp] theorem events_done (a : α) (s : σ) (ev : List Event) :
    (done a s ev : Outcome ε σ α).events = ev := rfl

@[simp] theorem answer_fail (e : ε) (s : σ) (ev : List Event) :
    (fail e s ev : Outcome ε σ α).answer = .error e := rfl

@[simp] theorem state_fail (e : ε) (s : σ) (ev : List Event) :
    (fail e s ev : Outcome ε σ α).state = s := rfl

@[simp] theorem events_fail (e : ε) (s : σ) (ev : List Event) :
    (fail e s ev : Outcome ε σ α).events = ev := rfl

@[simp] theorem answer_after (ev : List Event) (o : Outcome ε σ α) :
    (o.after ev).answer = o.answer := rfl

@[simp] theorem state_after (ev : List Event) (o : Outcome ε σ α) :
    (o.after ev).state = o.state := rfl

@[simp] theorem events_after (ev : List Event) (o : Outcome ε σ α) :
    (o.after ev).events = ev ++ o.events := rfl

@[simp] theorem answer_map (f : α → β) (o : Outcome ε σ α) :
    (o.map f).answer = o.answer.map f := rfl

@[simp] theorem state_map (f : α → β) (o : Outcome ε σ α) : (o.map f).state = o.state := rfl

@[simp] theorem events_map (f : α → β) (o : Outcome ε σ α) : (o.map f).events = o.events := rfl

@[simp] theorem answer_mapFailure (f : ε → δ) (o : Outcome ε σ α) :
    (o.mapFailure f).answer = o.answer.mapError f := rfl

@[simp] theorem state_mapFailure (f : ε → δ) (o : Outcome ε σ α) :
    (o.mapFailure f).state = o.state := rfl

@[simp] theorem events_mapFailure (f : ε → δ) (o : Outcome ε σ α) :
    (o.mapFailure f).events = o.events := rfl

@[simp] theorem answer_within (f : σ → τ) (o : Outcome ε σ α) :
    (o.within f).answer = o.answer := rfl

@[simp] theorem state_within (f : σ → τ) (o : Outcome ε σ α) :
    (o.within f).state = f o.state := rfl

@[simp] theorem events_within (f : σ → τ) (o : Outcome ε σ α) :
    (o.within f).events = o.events := rfl

/-- After an answer the next call runs, and its events follow. -/
@[simp] theorem andThen_done (a : α) (s : σ) (ev : List Event) (next : α → σ → Outcome ε σ β) :
    (done a s ev).andThen next = (next a s).after ev := rfl

/-- After a failure the next call does not run. -/
@[simp] theorem andThen_fail (e : ε) (s : σ) (ev : List Event) (next : α → σ → Outcome ε σ β) :
    (fail e s ev).andThen next = fail e s ev := rfl

end Outcome

end ShellLexing
