import ShellLexing.Delimiter
import ShellLexing.Outcome

/-!
# Pending here-documents

A line of script may announce several here-documents, as `cat <<A <<B` does; their bodies follow
in the same order. A `HeredocQueue` holds those whose bodies have not been closed, the next one
first. A here-document is closed by a line that is its marker: one newline behind the marker is
allowed, and tabs in front of it if the here-document was announced with `<<-`.

Some markers equal no line, such as one that begins with a tab in a here-document that ignores tabs.
They stay at the front of the queue; `HeredocQueue.closeAll` shows how far a queue can be emptied
by the markers themselves.
-/

namespace ShellLexing

/-- A here-document whose body has not been closed. -/
structure Heredoc where
  /-- The line that closes the body, without its newline. -/
  marker : Text
  expands : Bool
  ignoresTabs : Bool
deriving DecidableEq

namespace Heredoc

/-- The here-document that the raw delimiter word `raw` announces. -/
def ofDelimiter (raw : Text) (ignoresTabs : Bool) : Heredoc :=
  ⟨Delimiter.marker raw ignoresTabs, Delimiter.expands raw, ignoresTabs⟩

/-- Whether `line` closes the body. -/
def closedBy (h : Heredoc) (line : Text) : Bool :=
  let content := line.dropNewline
  (if h.ignoresTabs then content.dropWhile (· = '\t') else content) = h.marker

/-- Whether the marker, on a line of its own, closes the body. -/
def closesItself (h : Heredoc) : Bool := h.closedBy (h.marker ++ ['\n'])

end Heredoc

/-- Here-documents that wait for their bodies, the next one first. -/
structure HeredocQueue where
  pending : List Heredoc
deriving DecidableEq

namespace HeredocQueue

def empty : HeredocQueue := ⟨[]⟩

instance : Inhabited HeredocQueue := ⟨empty⟩

def isEmpty (q : HeredocQueue) : Bool := q.pending.isEmpty

def size (q : HeredocQueue) : Nat := q.pending.length

/-- The here-document whose body comes next. -/
def front? (q : HeredocQueue) : Option Heredoc := q.pending.head?

def expandsNext (q : HeredocQueue) : Bool := q.front?.any (·.expands)

def ignoresTabsNext (q : HeredocQueue) : Bool := q.front?.any (·.ignoresTabs)

/-- Announce a here-document by its raw delimiter word. -/
def push (q : HeredocQueue) (raw : Text) (ignoresTabs : Bool) :
    Outcome Violation HeredocQueue Unit :=
  let h := Heredoc.ofDelimiter raw ignoresTabs
  .done () ⟨q.pending ++ [h]⟩ [.heredocQueued h.marker h.expands]

def closedBy (q : HeredocQueue) (line : Text) : Bool := q.front?.any (·.closedBy line)

/-- Take the next here-document from the queue, now that `line` has closed its body. -/
def pop (q : HeredocQueue) (line : Text) : Outcome Violation HeredocQueue Heredoc :=
  match q.pending with
  | [] => .fail .noPendingHeredoc q []
  | h :: rest =>
    if h.closedBy line then
      .done h ⟨rest⟩ [.heredocClosed h.marker rest.length]
    else
      .fail (.wrongHeredocLine h.marker line.dropNewline) q []

/-- The here-documents that are closed one after the other by their own markers, and the queue
that is left then: it is empty, or its front is closed by no marker. -/
def closeAll (q : HeredocQueue) : List Heredoc × HeredocQueue :=
  (q.pending.takeWhile Heredoc.closesItself, ⟨q.pending.dropWhile Heredoc.closesItself⟩)

@[simp] theorem pending_push (q : HeredocQueue) (raw : Text) (ignoresTabs : Bool) :
    (q.push raw ignoresTabs).state.pending = q.pending ++ [.ofDelimiter raw ignoresTabs] := rfl

/-- Only the front can be closed by a line. -/
theorem closedBy_of_pending_eq_cons {q : HeredocQueue} {h : Heredoc} {rest : List Heredoc}
    (hq : q.pending = h :: rest) (line : Text) : q.closedBy line = h.closedBy line := by
  rw [closedBy, front?, hq, List.head?_cons, Option.any_some]

end HeredocQueue

end ShellLexing
