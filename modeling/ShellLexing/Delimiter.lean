import ShellLexing.Text.Span

/-!
# Here-document delimiters

The word behind `<<` says which line ends the here-document. It comes with decoration: quotes,
a backslash, a dollar sign in front of quotes, newlines behind the word, and tabs in front of it
where the flag `tabs` is set, as it is for `<<-`. What is left without it is the *marker*.

Where the span covers nothing, `marker` is the word as it stands and `rename` gives the bare name.
-/

namespace ShellLexing

namespace Delimiter

/-! ## Decoration -/

def isQuote (c : Char) : Bool := c = '\'' || c = '"'

/-- The last character of a word always stays. -/
def skipTabs : Text → Text
  | '\t' :: c :: t => skipTabs (c :: t)
  | t => t

/-- A dollar sign goes if two characters follow it, and the first of them is a double quote or the
word ends in a single quote. -/
def skipDollar : Text → Text
  | '$' :: c :: d :: t =>
    if c = '"' ∨ (d :: t).getLast? = some '\'' then c :: d :: t else '$' :: c :: d :: t
  | t => t

/-- The first character of a word always stays. -/
def trimEnd : Text → Text
  | [] => []
  | c :: t => c :: Text.dropNewlines t

/-! ## The marker and its place -/

/-- The tabs, the dollar sign and the newlines go, and then a quote that stands at both ends of the
rest. A lone quote is both ends at once, and goes twice. -/
def bareSpan (raw : Text) (tabs : Bool) : ByteSpan :=
  let word := skipDollar (if tabs then skipTabs raw else raw)
  let lead := raw.size - word.size
  let kept := trimEnd raw
  if word.head?.any isQuote && kept.getLast? = word.head? then
    ⟨lead + 1, kept.size - 1⟩
  else
    ⟨lead, kept.size⟩

/-- The bytes of a raw word that form its marker. A backslash in front is all that goes. -/
def span (raw : Text) (tabs : Bool) : ByteSpan :=
  match raw with
  | [] => ⟨0, 0⟩
  | [c] => ⟨0, c.utf8Size⟩
  | '\\' :: _ => ⟨1, raw.size⟩
  | _ => bareSpan raw tabs

def startOffset (raw : Text) (tabs : Bool) : Nat := (span raw tabs).start

def stopOffset (raw : Text) : Nat := (span raw false).stop

/-- One newline behind the word is no part of the marker, a dollar sign alone is a marker, and a
word that would lose everything keeps everything. -/
def marker (raw : Text) (tabs : Bool) : Text :=
  let word := raw.dropNewline
  if word = ['$'] then
    word
  else
    match (span word tabs).cut? word with
    | some cut => cut.inside
    | none => raw

/-- A here-document is expanded unless its word begins with a quote, a backslash or a dollar
sign. -/
def expands (raw : Text) : Bool :=
  match raw.dropNewline with
  | [] => true
  | c :: _ => !(isQuote c || c = '\\' || c = '$')

/-- The word `raw` with `name` in place of its marker. -/
def rename (raw name : Text) : Text :=
  match (span raw true).cut? raw with
  | some cut => cut.before ++ name ++ cut.after
  | none => name

end Delimiter

end ShellLexing
