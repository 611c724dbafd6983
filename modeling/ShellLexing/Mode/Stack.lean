import ShellLexing.Mode
import ShellLexing.Outcome

/-!
# The mode stack

One mode is active. Below it lie the modes that were active before and are to be resumed, the most
recent first: in `$(( 1 + $(echo 3) ))` the command substitution is entered out of arithmetic, and
arithmetic out of the initial mode. Leaving with nothing saved is the only failure.
-/

namespace ShellLexing

/-- An active mode and the saved modes that wait to be resumed, the most recent first. -/
structure ModeStack where
  active : Mode
  /-- The modes to resume. -/
  saved : List Mode
deriving DecidableEq

namespace ModeStack

/-- The stack of a new session. -/
def fresh : ModeStack := ⟨.initial, []⟩

instance : Inhabited ModeStack := ⟨fresh⟩

def depth (s : ModeStack) : Nat := s.saved.length

def isEmpty (s : ModeStack) : Bool := s.saved.isEmpty

/-- Whether `m` is among the saved modes. The initial mode also counts while nothing is saved; the
active mode does not count as such. -/
def holds (s : ModeStack) (m : Mode) : Bool :=
  (m = .initial && s.isEmpty) || s.saved.contains m

/-- Make `m` the active mode without saving the one before. -/
def switch (s : ModeStack) (m : Mode) : ModeStack := { s with active := m }

/-- Save the active mode and make `m` the active one. -/
def enter (s : ModeStack) (m : Mode) : Outcome Violation ModeStack Unit :=
  let entered : ModeStack := ⟨m, s.active :: s.saved⟩
  .done () entered [.modeEntered s.active m entered.depth]

/-- Resume the mode that was saved last, and say which it is. -/
def leave (s : ModeStack) : Outcome Violation ModeStack Mode :=
  match s.saved with
  | [] => .fail (.noSavedMode s.active) s []
  | m :: rest =>
    let resumed : ModeStack := ⟨m, rest⟩
    .done m resumed [.modeLeft s.active m resumed.depth]

/-- Leave `active` and the modes of `saved` until `target` has been resumed or nothing is saved. -/
def leaveUntil (target active : Mode) : List Mode → Outcome Violation ModeStack Unit
  | [] => .done () ⟨active, []⟩ []
  | m :: rest =>
    (leave ⟨active, m :: rest⟩).andThen fun resumed s =>
      if resumed = target then .done () s [] else leaveUntil target m rest

/-- Leave modes until `target` is active: one mode if it is active already, and none if it is not
saved either. -/
def unwind (s : ModeStack) (target : Mode) : Outcome Violation ModeStack Unit :=
  .after [.unwinding target s.depth] <|
    if s.active = target then
      s.leave.map fun _ => ()
    else if target ∈ s.saved then
      leaveUntil target s.active s.saved
    else
      .done () s []

/-! ## Entering and leaving -/

@[simp] theorem state_enter (s : ModeStack) (m : Mode) :
    (s.enter m).state = ⟨m, s.active :: s.saved⟩ := rfl

/-- Leaving the mode that was entered last resumes the stack from before, and never fails. -/
theorem leave_enter (s : ModeStack) (m : Mode) :
    (s.enter m).state.leave = .done s.active s [.modeLeft m s.active s.depth] := rfl

end ModeStack

end ShellLexing
