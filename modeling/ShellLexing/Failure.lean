import ShellLexing.Mode
import ShellLexing.Text

/-!
# What can go wrong

Failures come in three layers, each wrapping the one before.

* A `Violation` is a contract that a grammar action broke: it closed what was not open.
* A `MatchFailure` ends one step of a scanner: no rule matched, or an action broke a contract.
* A `FatalError` ends the reading or the scanning of a script, and is what a caller sees.

Each failure is a value that holds its cause. Its wording is in one function, `message`.
-/

namespace ShellLexing

/-- A contract between grammar actions and the memory of the lexer that was broken. -/
inductive Violation where
  | noSavedMode (active : Mode)
  | nestedHereString
  | noOpenParenthesis
  /-- A line was to close a here-document whose marker is another. -/
  | wrongHeredocLine (expected found : Text)
  | noPendingHeredoc
  | noOpenString
  | noOpenSubshell
deriving DecidableEq

namespace Violation

def message : Violation → String
  | noSavedMode active => "lexer state stack is empty (active state " ++ active.text ++ ")"
  | nestedHereString => "here-string content entered while already inside a here-string"
  | noOpenParenthesis => "open parenthesis count would become negative"
  | wrongHeredocLine expected found =>
    "here-document marker `" ++ String.ofList found ++ "` is not expected (next is `" ++
      String.ofList expected ++ "`)"
  | noPendingHeredoc => "no here-document marker is pending"
  | noOpenString => "no open string to leave"
  | noOpenSubshell => "no open subshell to leave"

end Violation

/-- Why a scanner could not make its next step. -/
inductive MatchFailure where
  /-- No rule matches the input at this byte. -/
  | noMatch (offset : Nat)
  | violation (cause : Violation)
deriving DecidableEq

namespace MatchFailure

/-- The wording of a match failure; a violation speaks for itself. -/
def message : MatchFailure → String
  | noMatch offset => "no lexer rule matches input at byte " ++ toString offset
  | violation cause => cause.message

end MatchFailure

/-- Why a script could not be read. -/
inductive ReadFailure where
  /-- The source of the bytes failed, and said why. -/
  | device (reason : String)
  /-- The bytes are not the UTF-8 encoding of a text. -/
  | invalidUtf8
deriving DecidableEq

namespace ReadFailure

/-- The wording of a read failure; a device speaks for itself. -/
def message : ReadFailure → String
  | device reason => reason
  | invalidUtf8 => "stream did not contain valid UTF-8"

end ReadFailure

/-- A failure that ends the work on a script. -/
inductive FatalError where
  /-- The scanner failed on the script `buffer`. -/
  | scan (buffer : Text) (cause : MatchFailure)
  /-- The script could not be read. -/
  | read (cause : ReadFailure)
deriving DecidableEq

namespace FatalError

/-- The kinds of fatal error that a caller tells apart. -/
inductive Code where
  /-- The script has a place that no rule matches. -/
  | noMatch
  /-- The grammar broke a contract. -/
  | internalInvariant
  /-- The script could not be read. -/
  | readFailure
deriving DecidableEq

def code : FatalError → Code
  | scan _ (.noMatch _) => .noMatch
  | scan _ (.violation _) => .internalInvariant
  | read _ => .readFailure

/-- The script that was being scanned, if the error arose in scanning. -/
def buffer? : FatalError → Option Text
  | scan buffer _ => some buffer
  | read _ => none

/-- The wording of the cause of a fatal error. -/
def reason : FatalError → String
  | scan _ cause => cause.message
  | read cause => cause.message

/-- The wording of a fatal error: a scan error shows the whole script, a read error its cause. -/
def message : FatalError → String
  | scan buffer _ => "error lexing shell script:\n" ++ String.ofList buffer
  | read cause => "failed to read shell script: " ++ cause.message

end FatalError

end ShellLexing
