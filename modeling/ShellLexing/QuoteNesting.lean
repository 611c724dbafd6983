import ShellLexing.Count
import ShellLexing.Outcome

/-!
# Strings and command substitutions

Inside `"a $(echo "b") c"` the quotes around `b` open a string of their own, because a command
substitution starts afresh. So open strings are counted by *frames*: one frame for the top level
and one for each open command substitution. The innermost frame is kept apart from those around it,
so that there is always one.
-/

namespace ShellLexing

/-- The open strings, frame by frame. -/
structure QuoteNesting where
  /-- The strings open in the innermost frame. -/
  innermost : Count
  /-- The strings open in the frames around it, the next one first and the top level last. -/
  enclosing : List Count
deriving DecidableEq

namespace QuoteNesting

def fresh : QuoteNesting := ⟨.zero, []⟩

instance : Inhabited QuoteNesting := ⟨fresh⟩

/-- The counts of all frames, from the top level inwards. -/
def frames (n : QuoteNesting) : List Count := (n.innermost :: n.enclosing).reverse

def inSubshell (n : QuoteNesting) : Bool := !n.enclosing.isEmpty

def inString (n : QuoteNesting) : Bool := 0 < n.innermost.toNat

def inSubstring (n : QuoteNesting) : Bool := n.inSubshell && n.inString

/-- A string that opens now is the first of its command substitution. -/
def allowsSubstring (n : QuoteNesting) : Bool := n.inSubshell && !n.inString

def enterSubshell (n : QuoteNesting) : QuoteNesting := ⟨.zero, n.innermost :: n.enclosing⟩

/-- The innermost command substitution closes, with all strings in it. -/
def leaveSubshell (n : QuoteNesting) : Outcome Violation QuoteNesting Unit :=
  match n.enclosing with
  | [] => .fail .noOpenSubshell n []
  | c :: rest => .done () ⟨c, rest⟩ []

def enterString (n : QuoteNesting) : QuoteNesting := { n with innermost := n.innermost.succ }

def leaveString (n : QuoteNesting) : Outcome Violation QuoteNesting Unit :=
  match n.innermost.pred? with
  | some c => .done () { n with innermost := c } []
  | none => .fail .noOpenString n []

/-- A command substitution that closes as it opened leaves no trace. -/
theorem leaveSubshell_enterSubshell (n : QuoteNesting) :
    n.enterSubshell.leaveSubshell = .done () n [] := rfl

end QuoteNesting

end ShellLexing
