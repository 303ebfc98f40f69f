import Runbook.Registry.Basic

/-!
Stand-ins for the operations of a host, to try a runbook out with.
-/
namespace Runbook

/-- A stand-in for an operation. -/
inductive Rehearsal where
  | echo
  | swallow
  | kind
  | pair
  | nothing
  | record
  /-- Gives its argument after as many milliseconds as it is. -/
  | delay
  /-- Fails after as many milliseconds as its argument is. -/
  | failAfter
  deriving DecidableEq, Repr

/-- The milliseconds that a positive number is; any other value is none. -/
def Value.pause : Value → Nat
  | .quantity (.number n) => n.toInt.toNat
  | _ => 0

/-- The stand-in registered under `name`, on its argument. -/
def Rehearsal.action (rehearsal : Rehearsal) (name : Identifier) (value : Value) : Response :=
  match rehearsal with
  | .echo => .now (.ok value)
  | .swallow => .now (.ok .unit)
  | .kind => .now (.ok (.text value.kind))
  | .pair => .now (.ok (.parallel [value, value]))
  | .nothing => .now (.ok (.parallel []))
  | .record => .saying .record value (.ok value)
  | .delay => .later value.pause (.ok value)
  | .failAfter => .later value.pause (.error (.builtin name value.show))

def Registry.rehearse (registry : Registry) (name : Identifier) (rehearsal : Rehearsal) :
    Registry :=
  registry.register name (rehearsal.action name)

end Runbook
