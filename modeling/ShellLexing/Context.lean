import ShellLexing.Count
import ShellLexing.Options
import ShellLexing.Outcome

/-!
# The context of a session

A handful of facts about the place that the lexer has reached, each independent of the others:
whether it is inside a here-string, five flags that grammar actions set as they please, and how
many parentheses are open. The version of the shell never changes.
-/

namespace ShellLexing

/-- The facts that a grammar action may set freely. -/
inductive Flag where
  /-- The lexer is between `case` and `esac`. -/
  | caseBody
  /-- A conditional command has no content yet. -/
  | emptyConditional
  /-- A parameter expansion has a hash sign. -/
  | expansionHash
  /-- A parameter expansion has reached its word. -/
  | expansionWord
  /-- A parameter expansion has any other operator. -/
  | expansionOther
deriving DecidableEq

/-- Where the lexer stands, apart from its modes. -/
structure Context where
  version : ShellVersion
  inHereString : Bool := false
  caseBody : Bool := false
  emptyConditional : Bool := false
  expansionHash : Bool := false
  expansionWord : Bool := false
  expansionOther : Bool := false
  openParens : Count := .zero
deriving DecidableEq

namespace Context

/-- The context of a new session. -/
def fresh (v : ShellVersion) : Context := { version := v }

/-- The rules that Bash 4 adds are in force. -/
def isBash4 (c : Context) : Bool := c.version = .bash4

/-! ## Flags -/

def get (c : Context) : Flag → Bool
  | .caseBody => c.caseBody
  | .emptyConditional => c.emptyConditional
  | .expansionHash => c.expansionHash
  | .expansionWord => c.expansionWord
  | .expansionOther => c.expansionOther

/-- The context with another value of one flag. -/
def set (c : Context) (f : Flag) (value : Bool) : Context :=
  match f with
  | .caseBody => { c with caseBody := value }
  | .emptyConditional => { c with emptyConditional := value }
  | .expansionHash => { c with expansionHash := value }
  | .expansionWord => { c with expansionWord := value }
  | .expansionOther => { c with expansionOther := value }

/-- Setting a flag changes this flag alone. -/
theorem get_set (c : Context) (f g : Flag) (value : Bool) :
    (c.set f value).get g = if g = f then value else c.get g := by
  cases f <;> cases g <;> rfl

/-! ## Here-strings -/

/-- The content of a here-string begins. -/
def enterHereString (c : Context) : Outcome Violation Context Unit :=
  if c.inHereString then
    .fail .nestedHereString c []
  else
    .done () { c with inHereString := true } [.hereStringEntered]

/-- The content of a here-string ends. Ending what has not begun is no failure. -/
def leaveHereString (c : Context) : Outcome Violation Context Unit :=
  .done () { c with inHereString := false } [.hereStringLeft]

/-! ## Parentheses -/

def openParen (c : Context) : Context := { c with openParens := c.openParens.succ }

def closeParen (c : Context) : Outcome Violation Context Unit :=
  match c.openParens.pred? with
  | some n => .done () { c with openParens := n } []
  | none => .fail .noOpenParenthesis c []

end Context

end ShellLexing
