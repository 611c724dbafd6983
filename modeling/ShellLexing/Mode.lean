/-!
# Lexical modes

A *mode* is a situation that the grammar tells apart, such as the inside of a command substitution.
-/

namespace ShellLexing

structure Mode where
  id : UInt32
deriving DecidableEq

namespace Mode

/-- The mode outside of every construct. -/
def initial : Mode := ⟨0⟩

instance : Inhabited Mode := ⟨initial⟩

def text (m : Mode) : String := toString m.id.toNat

def ascending (modes : List Mode) : List Mode :=
  modes.mergeSort fun a b => a.id ≤ b.id

end Mode

end ShellLexing
