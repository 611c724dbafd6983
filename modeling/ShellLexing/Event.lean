import ShellLexing.Failure

/-!
# Events

The memory of a lexer reports what happens to it. An event holds exactly what changed, so that
the events of a run suffice to follow the saved modes and the pending here-documents from where
they stood at its start. `Event.level`, `Event.message` and `Event.fields` are an event as an
entry of a log.
-/

namespace ShellLexing

/-- Something that happened to the memory of a lexer. -/
inductive Event where
  /-- Mode `source` was saved and `target` became active; `depth` modes are saved now. -/
  | modeEntered (source target : Mode) (depth : Nat)
  /-- Mode `source` was left for the saved mode `target`; `depth` modes are saved now. -/
  | modeLeft (source target : Mode) (depth : Nat)
  /-- Modes are about to be left for `target`, from `depth` saved ones. -/
  | unwinding (target : Mode) (depth : Nat)
  | hereStringEntered
  | hereStringLeft
  | heredocQueued (marker : Text) (expands : Bool)
  /-- The here-document with this marker was closed; `remaining` are pending now. -/
  | heredocClosed (marker : Text) (remaining : Nat)
  /-- A scanner failed on a script of `size` bytes while `active` was the mode. -/
  | scanFailed (size : Nat) (active : Mode) (cause : MatchFailure)
deriving DecidableEq

namespace Event

/-- How much attention an event asks for. -/
inductive Level where
  | trace
  | debug
deriving DecidableEq

inductive Field where
  | text (value : String)
  | number (value : Nat)
  | flag (value : Bool)
deriving DecidableEq

/-- Failures ask for more attention than ordinary work. -/
def level : Event → Level
  | scanFailed .. => .debug
  | _ => .trace

/-- The message of a log entry. -/
def message : Event → String
  | modeEntered .. => "enter lexer state"
  | modeLeft .. => "leave lexer state"
  | unwinding .. => "pop lexer states"
  | hereStringEntered => "enter here-string content"
  | hereStringLeft => "leave here-string content"
  | heredocQueued .. => "queue here-document"
  | heredocClosed .. => "close here-document"
  | scanFailed .. => "lexing failed"

/-- The named values of a log entry. -/
def fields : Event → List (String × Field)
  | modeEntered source target depth =>
    [("from", .text source.text), ("to", .text target.text), ("depth", .number depth)]
  | modeLeft source target depth =>
    [("from", .text source.text), ("to", .text target.text), ("depth", .number depth)]
  | unwinding target depth => [("target", .text target.text), ("depth", .number depth)]
  | hereStringEntered => []
  | hereStringLeft => []
  | heredocQueued marker expands =>
    [("marker", .text (String.ofList marker)), ("evaluating", .flag expands)]
  | heredocClosed marker remaining =>
    [("marker", .text (String.ofList marker)), ("remaining", .number remaining)]
  | scanFailed size active cause =>
    [("buffer_len", .number size), ("state", .text active.text), ("error", .text cause.message)]

end Event

end ShellLexing
