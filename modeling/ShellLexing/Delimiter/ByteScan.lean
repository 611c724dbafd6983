import ShellLexing.Delimiter

/-!
# Scanning the bytes of a delimiter word

`Delimiter.span` takes a word apart as a list of characters. A lexer that holds its input in bytes
finds the same span by moving two offsets towards each other: one from the front, past tabs, a
dollar sign and a quote, and one from the end, past newlines and the other quote. `scan?` is this
computation.

It sees the word through its bytes alone, and asks for them by their offsets. There is a result only
if every byte that it asks for exists, and if from no offset more is taken than there is. It looks
at no byte without need, since a byte that is not needed may not exist.
-/

namespace ShellLexing

/-- The UTF-8 encoding of a text. -/
def Text.bytes (t : Text) : List UInt8 := t.flatMap String.utf8EncodeChar

/-- The bytes of a text are those of the string with the same characters. -/
theorem Text.bytes_eq_toUTF8 (t : Text) : t.bytes = (String.ofList t).toUTF8.data.toList := by
  rw [String.toUTF8_eq_toByteArray, String.toByteArray_ofList, List.utf8Encode,
    List.toList_data_toByteArray]
  rfl

namespace Delimiter

/-- The difference `a - b`, where it is not negative. -/
def minus? (a b : Nat) : Option Nat := if b ≤ a then some (a - b) else none

/-- The first offset from `start` on that holds no tab; at most `last`. -/
def passTabs? (bytes : List UInt8) (last start : Nat) : Option Nat :=
  if start < last then do
    if (← bytes[start]?) = '\t'.toUInt8 then
      passTabs? bytes last (start + 1)
    else
      return start
  else
    return start
termination_by last - start

/-- The offset behind the tabs in front, if tabs are to be passed. -/
def behindTabs? (bytes : List UInt8) (last : Nat) (tabs : Bool) : Option Nat :=
  if tabs then passTabs? bytes last 0 else some 0

/-- The last offset down from the given one that holds no newline; at least zero. -/
def passNewlines? (bytes : List UInt8) : Nat → Option Nat
  | 0 => some 0
  | stop + 1 => do
    if (← bytes[stop + 1]?) = '\n'.toUInt8 then
      passNewlines? bytes stop
    else
      return stop + 1

/-- Whether the byte at `start` is a dollar sign that introduces quotes, in a word whose final byte
is the one at `last`. -/
def dollar? (bytes : List UInt8) (start last : Nat) : Option Bool := do
  if (← bytes[start]?) = '$'.toUInt8 ∧ start + 2 < bytes.length then
    if (← bytes[start + 1]?) = '"'.toUInt8 then
      return true
    else
      return (← bytes[last]?) = '\''.toUInt8
  else
    return false

/-- The offset behind the tabs and the dollar sign in front, and how many bytes there are besides
the dollar sign. -/
def front? (bytes : List UInt8) (last : Nat) (tabs : Bool) : Option (Nat × Nat) := do
  let start ← behindTabs? bytes last tabs
  if ← dollar? bytes start last then
    return (start + 1, ← minus? bytes.length 1)
  else
    return (start, bytes.length)

/-- Whether the bytes at the two offsets are the same quote. -/
def quoted? (bytes : List UInt8) (start stop : Nat) : Option Bool := do
  let first ← bytes[start]?
  if first = '\''.toUInt8 ∨ first = '"'.toUInt8 then
    return (← bytes[stop]?) = first
  else
    return false

/-- The span from the byte at `start` to the one at `stop`, both included, without the same quote at
both ends. A lone quote at offset zero has nothing in front of it, and the span ends there. -/
def unquote? (bytes : List UInt8) (start stop : Nat) : Option ByteSpan := do
  if ← quoted? bytes start stop then
    match minus? stop 1 with
    | some inner => return ⟨start + 1, inner + 1⟩
    | none => return ⟨start + 1, 0⟩
  else
    return ⟨start, stop + 1⟩

/-- The span of the marker in the bytes of a longer word that is not escaped. -/
def scanBare? (bytes : List UInt8) (tabs : Bool) : Option ByteSpan := do
  let last ← minus? bytes.length 1
  let (start, count) ← front? bytes last tabs
  let stop ← passNewlines? bytes last
  if 0 < count then
    unquote? bytes start stop
  else
    return ⟨start, stop + 1⟩

/-- The span of the marker in the bytes of a word, if all bytes and differences on the way exist. -/
def scan? (bytes : List UInt8) (tabs : Bool) : Option ByteSpan :=
  match bytes.length with
  | 0 => some ⟨0, 0⟩
  | 1 => some ⟨0, 1⟩
  | length => do
    if (← bytes[0]?) = '\\'.toUInt8 then
      return ⟨1, length⟩
    else
      scanBare? bytes tabs

end Delimiter

end ShellLexing
