import ShellLexing.Context
import ShellLexing.Heredoc.Queue
import ShellLexing.Mode.Stack
import ShellLexing.QuoteNesting

/-!
# Sessions

A session is all that a lexer remembers between two tokens. It has four components, and a call on
one of them leaves the others as they are: `Session.onModes` and its companions lift a call on a
component to the session.
-/

namespace ShellLexing

/-- The memory of a lexer. -/
structure Session where
  modes : ModeStack
  context : Context
  heredocs : HeredocQueue
  quotes : QuoteNesting
deriving DecidableEq

namespace Session

/-- The session with which the work on a script begins. -/
def start (o : Options) : Session :=
  ⟨.fresh, .fresh o.version, .empty, .fresh⟩

variable {α : Type}

def onModes (s : Session) (call : ModeStack → Outcome Violation ModeStack α) :
    Outcome Violation Session α :=
  (call s.modes).within fun m => { s with modes := m }

def onContext (s : Session) (call : Context → Outcome Violation Context α) :
    Outcome Violation Session α :=
  (call s.context).within fun c => { s with context := c }

def onHeredocs (s : Session) (call : HeredocQueue → Outcome Violation HeredocQueue α) :
    Outcome Violation Session α :=
  (call s.heredocs).within fun q => { s with heredocs := q }

def onQuotes (s : Session) (call : QuoteNesting → Outcome Violation QuoteNesting α) :
    Outcome Violation Session α :=
  (call s.quotes).within fun n => { s with quotes := n }

end Session

end ShellLexing
