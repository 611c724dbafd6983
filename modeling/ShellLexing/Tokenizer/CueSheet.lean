import ShellLexing.Session.Operation
import ShellLexing.Tokenizer

/-!
# Cue sheets

A cue sheet is a scanner without rules: it is told beforehand what each of its steps shall do. A
`Cue` names the operations to run on the session and how the step ends. When the sheet is used up,
every further step finds the end of the input.
-/

namespace ShellLexing

/-- How a step ends when its operations have been run. -/
inductive Cue.Ending where
  | token (text : Text)
  | noMatch (offset : Nat)
  | endOfInput

/-- What one step shall do. -/
structure Cue where
  /-- The operations to run on the session, in order. -/
  actions : List Operation
  /-- Whether a failing operation is passed over; otherwise it ends the step. -/
  tolerant : Bool
  ending : Cue.Ending

/-- The place in a cue sheet. -/
structure CueSheet where
  buffer : Text
  cues : List Cue
  /-- The number of steps made so far. -/
  played : Nat

namespace CueSheet

/-- A token, with the answers of the operations that were run for it. -/
structure Token where
  text : Text
  answers : List (Except Violation Reply)

/-- A sheet of which nothing has been played. -/
def ofCues (buffer : Text) (cues : List Cue) : CueSheet := ⟨buffer, cues, 0⟩

/-- Run operations in order and collect their answers. A failing operation ends the run, unless
the run is tolerant. -/
def perform (tolerant : Bool) :
    List Operation → Session → Outcome Violation Session (List (Except Violation Reply))
  | [], s => .done [] s []
  | op :: ops, s =>
    let o := op.apply s
    match o.answer, tolerant with
    | .error e, false => .fail e o.state o.events
    | answer, _ => ((perform tolerant ops o.state).map (answer :: ·)).after o.events

/-- The step that a cue asks for, on a sheet from which the cue has been taken. -/
def play (cue : Cue) (t : Tokenizer CueSheet) :
    Outcome MatchFailure (Tokenizer CueSheet) (Option Token) :=
  ((t.onSession (perform cue.tolerant cue.actions)).mapFailure .violation).andThen fun answers t =>
    match cue.ending with
    | .token text => .done (some ⟨text, answers⟩) t []
    | .noMatch offset => .fail (.noMatch offset) t []
    | .endOfInput => .done none t []

/-- Make the next step. -/
def advance (t : Tokenizer CueSheet) : Outcome MatchFailure (Tokenizer CueSheet) (Option Token) :=
  let played := t.scan.played + 1
  match t.scan.cues with
  | [] => .done none { t with scan := { t.scan with played } } []
  | cue :: cues => play cue { t with scan := { t.scan with cues, played } }

/-- The scanner that plays cue sheets. -/
def scanner : Scanner CueSheet Token := ⟨advance, buffer⟩

/-- Read all tokens. Each token uses up a cue, so the cues that are left bound the steps. -/
def tokens (t : Tokenizer CueSheet) :
    Option (Outcome FatalError (Tokenizer CueSheet) (List Token)) :=
  Tokenizer.drain scanner (t.scan.cues.length + 1) t

end CueSheet

end ShellLexing
