/-!
# Options

What is fixed when a session begins. The room for saved modes is a hint; a session that needs more
takes more.
-/

namespace ShellLexing

inductive ShellVersion where
  | bash3
  /-- The rules of Bash 4, which adds terminators of case branches. -/
  | bash4
deriving DecidableEq

namespace ShellVersion

instance : Inhabited ShellVersion := ⟨bash3⟩

def text : ShellVersion → String
  | bash3 => "Bash3"
  | bash4 => "Bash4"

end ShellVersion

structure Options where
  version : ShellVersion := .bash3
  /-- The number of saved modes to make room for at first. -/
  modeRoom : Nat := 25
deriving DecidableEq

namespace Options

instance : Inhabited Options := ⟨{}⟩

def forVersion (v : ShellVersion) : Options := { version := v }

end Options

end ShellLexing
