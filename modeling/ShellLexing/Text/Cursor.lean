import ShellLexing.Text

/-!
# Cursors

A `Cursor` is a place in a text: what lies behind it, the character read last first, and what lies
ahead. Reading moves characters from one side to the other, so the text as a whole never changes
(`text_skip`), and the position is the size of what lies behind.
-/

namespace ShellLexing

/-- A place in a text. -/
structure Cursor where
  /-- What has been read, the last character first. -/
  behind : Text
  ahead : Text
deriving DecidableEq

namespace Cursor

/-- The place in front of a text. -/
def start (t : Text) : Cursor := ⟨[], t⟩

def text (c : Cursor) : Text := c.behind.reverse ++ c.ahead

def position (c : Cursor) : Nat := Text.size c.behind

/-- The place `n` characters further on, or the end of the text if fewer are left. -/
def skip (c : Cursor) (n : Nat) : Cursor :=
  ⟨(c.ahead.take n).reverse ++ c.behind, c.ahead.drop n⟩

@[simp] theorem text_start (t : Text) : (start t).text = t := rfl

@[simp] theorem position_start (t : Text) : (start t).position = 0 := rfl

@[simp] theorem ahead_skip (c : Cursor) (n : Nat) : (c.skip n).ahead = c.ahead.drop n := rfl

@[simp] theorem text_skip (c : Cursor) (n : Nat) : (c.skip n).text = c.text := by
  simp [skip, text]

theorem position_skip (c : Cursor) (n : Nat) :
    (c.skip n).position = c.position + Text.size (c.ahead.take n) := by
  simp [skip, position, Nat.add_comm]

end Cursor

end ShellLexing
