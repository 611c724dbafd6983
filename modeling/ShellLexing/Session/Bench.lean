import ShellLexing.Outcome

/-!
# Trying calls on an object

A `Bench` holds an object and, once one has been kept, a copy of an earlier state of it. Its steps
are the calls on the object, the keeping and the restoring of the copy, a comparison with it, a
look at the whole object, and rounds of such steps. The failure of a call does not end the work:
the object stays in the state that the call has left.

Everything here is independent of what the object is. It is given by a function `apply`, which
runs a call `op : ω` on a state `s : σ`.
-/

namespace ShellLexing

/-- An object on trial. -/
structure Bench (σ : Type) where
  object : σ
  copy : Option σ

namespace Bench

/-- Something to do on a bench. -/
inductive Step (ω : Type) where
  | call (op : ω)
  | keep
  /-- Put the copy in the place of the object; nothing happens if there is none. -/
  | restore
  | compare
  | inspect
  /-- Do several steps, `n` times over. -/
  | rounds (n : Nat) (steps : List (Step ω))

/-- What a step gives. -/
inductive Report (σ α : Type) where
  | answered (answer : Except Violation α)
  | placed
  /-- Whether the object and its copy agree, if there is a copy. -/
  | compared (same : Option Bool)
  | inspected (object : σ)
  /-- The reports of the last round, none if there was no round. -/
  | rounds (last : List (Report σ α))

variable {σ ω α : Type}

/-- The bench on which nothing has been done. -/
def start (object : σ) : Bench σ := ⟨object, none⟩

/-- The last of `n` further rounds, and the bench behind it. -/
def again (round : Bench σ → List (Report σ α) × Bench σ) :
    Nat → List (Report σ α) × Bench σ → List (Report σ α) × Bench σ
  | 0, last => last
  | n + 1, (_, b) => again round n (round b)

mutual

/-- Do one step. The events are those of a single call; rounds keep none. -/
def Step.run [DecidableEq σ] (apply : ω → σ → Outcome Violation σ α) :
    Step ω → Bench σ → Report σ α × Bench σ × List Event
  | .call op, b =>
    let o := apply op b.object
    (.answered o.answer, { b with object := o.state }, o.events)
  | .keep, b => (.placed, { b with copy := some b.object }, [])
  | .restore, b => (.placed, { b with object := b.copy.getD b.object }, [])
  | .compare, b => (.compared (b.copy.map fun c => b.object = c), b, [])
  | .inspect, b => (.inspected b.object, b, [])
  | .rounds n steps, b =>
    let (last, b) := again (Step.runAll apply steps) n ([], b)
    (.rounds last, b, [])

/-- Do steps one after the other. -/
def Step.runAll [DecidableEq σ] (apply : ω → σ → Outcome Violation σ α) :
    List (Step ω) → Bench σ → List (Report σ α) × Bench σ
  | [], b => ([], b)
  | step :: steps, b =>
    let (report, b, _) := Step.run apply step b
    let (reports, b) := Step.runAll apply steps b
    (report :: reports, b)

end

end Bench

end ShellLexing
