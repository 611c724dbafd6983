import ShellLexing.Session

/-!
# Operations

The calls on a session as data: a grammar action is a list of operations. There is one type of
operations for each component, with an `apply` that runs an operation on the component, and
`Operation` joins the four. Every operation answers with a `Reply`.
-/

namespace ShellLexing

/-- What an operation answers. -/
inductive Reply where
  | done
  | mode (m : Mode)
  | truth (b : Bool)
  | heredoc (h : Heredoc)
deriving DecidableEq

/-! ## Operations on one component -/

/-- The calls on a mode stack, each named as the function on `ModeStack` that it calls. -/
inductive ModeOperation where
  | enter (m : Mode)
  | switch (m : Mode)
  | leave
  | unwind (target : Mode)
  | holds (m : Mode)
deriving DecidableEq

def ModeOperation.apply (s : ModeStack) : ModeOperation → Outcome Violation ModeStack Reply
  | enter m => (s.enter m).map fun _ => .done
  | switch m => .done .done (s.switch m) []
  | leave => s.leave.map .mode
  | unwind target => (s.unwind target).map fun _ => .done
  | holds m => .done (.truth (s.holds m)) s []

/-- The calls on a context, each named as the function on `Context` that it calls. -/
inductive ContextOperation where
  | enterHereString
  | leaveHereString
  | openParen
  | closeParen
  | set (f : Flag) (value : Bool)
deriving DecidableEq

def ContextOperation.apply (c : Context) : ContextOperation → Outcome Violation Context Reply
  | enterHereString => c.enterHereString.map fun _ => .done
  | leaveHereString => c.leaveHereString.map fun _ => .done
  | openParen => .done .done c.openParen []
  | closeParen => c.closeParen.map fun _ => .done
  | set f value => .done .done (c.set f value) []

/-- The calls on a queue of here-documents, each named as the function on `HeredocQueue` that it
calls. -/
inductive HeredocOperation where
  | push (raw : Text) (ignoresTabs : Bool)
  | closedBy (line : Text)
  | pop (line : Text)
deriving DecidableEq

def HeredocOperation.apply (q : HeredocQueue) :
    HeredocOperation → Outcome Violation HeredocQueue Reply
  | push raw ignoresTabs => (q.push raw ignoresTabs).map fun _ => .done
  | closedBy line => .done (.truth (q.closedBy line)) q []
  | pop line => (q.pop line).map .heredoc

/-- The calls on a nesting of strings, each named as the function on `QuoteNesting` that it
calls. -/
inductive QuoteOperation where
  | enterSubshell
  | leaveSubshell
  | enterString
  | leaveString
deriving DecidableEq

def QuoteOperation.apply (n : QuoteNesting) : QuoteOperation → Outcome Violation QuoteNesting Reply
  | enterSubshell => .done .done n.enterSubshell []
  | leaveSubshell => n.leaveSubshell.map fun _ => .done
  | enterString => .done .done n.enterString []
  | leaveString => n.leaveString.map fun _ => .done

/-! ## Operations on a session -/

/-- The calls on a session, each a call on one of its components. -/
inductive Operation where
  | modes (op : ModeOperation)
  | context (op : ContextOperation)
  | heredocs (op : HeredocOperation)
  | quotes (op : QuoteOperation)
deriving DecidableEq

def Operation.apply (s : Session) : Operation → Outcome Violation Session Reply
  | modes op => s.onModes op.apply
  | context op => s.onContext op.apply
  | heredocs op => s.onHeredocs op.apply
  | quotes op => s.onQuotes op.apply

end ShellLexing
