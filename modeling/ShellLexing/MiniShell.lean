import ShellLexing.Text.Cursor
import ShellLexing.Tokenizer

/-!
# A miniature shell

A scanner with a few rules of the shell language, each of which uses some part of the session.

* `$((`, `$(` and `<<` enter a mode; `))` in arithmetic and `)` leave one. A command substitution
  is also a frame for strings.
* The word behind `<<` is the delimiter of a here-document. The bodies of the pending ones begin
  behind the next newline, and are read line by line in a mode of their own.
* `in` is a keyword between `case` and `esac`, and `;;&` is one under Bash 4 rules.
* Everything else up to white space or a closing parenthesis is a word. Where white space stands
  that is neither a blank nor a newline, the word is empty and the scanner does not move.
-/

namespace ShellLexing.MiniShell

/-! ## Modes and tokens -/

/-- Inside `$(( … ))`. -/
def arithmetic : Mode := ⟨1⟩

/-- Inside `$( … )`. -/
def subshell : Mode := ⟨2⟩

/-- Behind `<<`, where a delimiter is expected. -/
def heredocDelimiter : Mode := ⟨3⟩

/-- Inside the body of a here-document. -/
def heredocBody : Mode := ⟨4⟩

inductive Token where
  | word (text : Text)
  | inKeyword
  | caseContinue
  /-- `$((` -/
  | arithmeticStart
  /-- `))` -/
  | arithmeticEnd
  /-- `$(` -/
  | subshellStart
  /-- `)` -/
  | subshellEnd
  /-- `<<` -/
  | heredocStart
  | heredocDelimiter (raw : Text)
  /-- The body of a here-document, without the line that closes it. -/
  | heredocBody (text : Text)
  | newline
deriving DecidableEq

/-! ## Characters -/

/-- The characters that separate tokens and mean nothing. -/
def isBlank (c : Char) : Bool := c = ' ' || c = '\t'

theorem isBlank_iff {c : Char} : isBlank c = true ↔ c = ' ' ∨ c = '\t' := by
  simp [isBlank]

/-- White space among the ASCII characters, which is all that ends a word; the vertical tab is
not counted. -/
def isSpace (c : Char) : Bool :=
  c = ' ' || c = '\t' || c = '\n' || c = '\x0c' || c = '\r'

/-- The characters of which words consist. -/
def isWordChar (c : Char) : Bool := !isSpace c && c ≠ ')'

/-! ## Rules -/

/-- A step of the miniature shell. -/
abbrev Step (α : Type) := Outcome MatchFailure (Tokenizer Cursor) α

/-- A call on the session, at a place in the script; a violation makes the step fail. -/
def act {α : Type} (c : Cursor) (o : Outcome Violation Session α) : Step α :=
  (o.mapFailure .violation).within fun s => ⟨c, s⟩

/-- Read the body of the next here-document: the lines in front of the first one that closes it.
That line is read too, but is no part of the body. If there is none, everything is read and
nothing matches. Behind the last pending body the mode from before the bodies is resumed. -/
def readBody (c : Cursor) (s : Session) : Step Token :=
  match (Text.lines c.ahead).span fun line => !s.heredocs.closedBy line with
  | (_, []) =>
    let c := c.skip c.ahead.length
    .fail (.noMatch c.position) ⟨c, s⟩ []
  | (body, line :: _) =>
    let c := c.skip (body.flatten.length + line.length)
    act c <| (s.onHeredocs (·.pop line)).andThen fun _ s =>
      if s.heredocs.isEmpty then
        (s.onModes (·.leave)).map fun _ => .heredocBody body.flatten
      else
        .done (.heredocBody body.flatten) s []

/-- Read the newline in front of the cursor. Bodies of here-documents begin behind it. -/
def readNewline (c : Cursor) (s : Session) : Step Token :=
  let c := c.skip 1
  if s.heredocs.isEmpty then
    .done .newline ⟨c, s⟩ []
  else
    act c <| (s.onModes (·.enter heredocBody)).map fun _ => .newline

/-- Read the operator in front of the cursor, if there is one. -/
def readOperator? (c : Cursor) (s : Session) : Option (Step Token) :=
  match c.ahead with
  | '$' :: '(' :: '(' :: _ =>
    some <| act (c.skip 3) <| (s.onModes (·.enter arithmetic)).map fun _ => .arithmeticStart
  | '$' :: '(' :: _ =>
    some <| act (c.skip 2) <| (s.onModes (·.enter subshell)).andThen fun _ s =>
      .done .subshellStart { s with quotes := s.quotes.enterSubshell } []
  | ')' :: rest =>
    if rest.head? = some ')' ∧ s.modes.active = arithmetic then
      some <| act (c.skip 2) <| (s.onModes (·.leave)).map fun _ => .arithmeticEnd
    else
      some <| act (c.skip 1) <| (s.onQuotes (·.leaveSubshell)).andThen fun _ s =>
        (s.onModes (·.leave)).map fun _ => .subshellEnd
  | '<' :: '<' :: _ =>
    some <| act (c.skip 2) <| (s.onModes (·.enter heredocDelimiter)).map fun _ => .heredocStart
  | _ => none

/-- The token for a word where no delimiter is expected, and the session behind it. -/
def classify (text : Text) (s : Session) : Token × Session :=
  if text = "case".toList then
    (.word text, { s with context := s.context.set .caseBody true })
  else if text = "esac".toList then
    (.word text, { s with context := s.context.set .caseBody false })
  else if text = "in".toList ∧ s.context.caseBody then
    (.inKeyword, s)
  else if text = ";;&".toList ∧ s.context.isBash4 then
    (.caseContinue, s)
  else
    (.word text, s)

/-- Read the word in front of the cursor. Behind `<<` it announces a here-document. -/
def readWord (c : Cursor) (s : Session) : Step Token :=
  let text := c.ahead.takeWhile isWordChar
  let c := c.skip text.length
  if s.modes.active = heredocDelimiter then
    act c <| (s.onHeredocs (·.push text false)).andThen fun _ s =>
      (s.onModes (·.leave)).map fun _ => .heredocDelimiter text
  else
    let (token, s) := classify text s
    .done token ⟨c, s⟩ []

/-- Read the next token. Outside of bodies, blanks in front of it are skipped, and an at sign
matches no rule. -/
def advance (t : Tokenizer Cursor) : Step (Option Token) :=
  if t.session.modes.active = heredocBody then
    (readBody t.scan t.session).map some
  else
    let c := t.scan.skip (t.scan.ahead.takeWhile isBlank).length
    match c.ahead with
    | [] => .done none ⟨c, t.session⟩ []
    | '\n' :: _ => (readNewline c t.session).map some
    | '@' :: _ => .fail (.noMatch c.position) ⟨c, t.session⟩ []
    | _ =>
      ((readOperator? c t.session).getD (readWord c t.session)).map some

def scanner : Scanner Cursor Token := ⟨advance, Cursor.text⟩

def start (script : Text) (o : Options) : Tokenizer Cursor := .start (.start script) o

/-- A bound on the steps that read all tokens. Each step with a token reads a character, or leaves a
mode, or leaves everything as it is; after a step of the last kind all steps are of that kind, and
the end of the input is never found. -/
def stepBound (t : Tokenizer Cursor) : Nat :=
  2 * t.scan.ahead.length + t.session.modes.depth + 1

/-- Read all tokens up to the end of the input. There is no outcome if the steps never end. -/
def tokens (t : Tokenizer Cursor) : Option (Outcome FatalError (Tokenizer Cursor) (List Token)) :=
  Tokenizer.drain scanner (stepBound t) t

end ShellLexing.MiniShell
