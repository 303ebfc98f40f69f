import Runbook.Program.Basic
import Runbook.Value.Basic

/-!
What a run reports while it goes on.
-/
namespace Runbook

/-- Who hears what a primitive says. -/
inductive Channel where
  /-- Those who perform the runbook. -/
  | task
  /-- Those who read what it writes. -/
  | write
  /-- Those who try it out. -/
  | record
  deriving DecidableEq, Repr

inductive Event where
  | said (channel : Channel) (value : Value)
  | entered (procedure : Identifier)
  /-- A procedure has its outcome. -/
  | finished (ok : Bool)
  /-- An entry of a sequence is begun. -/
  | starting (index : Nat) (setting : Setting)
  | binding (names : List Name) (setting : Setting)
  /-- A primitive is performed on its argument. -/
  | invoking (primitive : Identifier)
  deriving DecidableEq, Repr

/-- Is the event of interest only to who traces the run? -/
def Event.isTrace : Event → Bool
  | .said .. => false
  | _ => true

/-- An event and the millisecond in which it happens. -/
structure Logged where
  ms : Nat
  event : Event
  deriving DecidableEq, Repr

end Runbook
