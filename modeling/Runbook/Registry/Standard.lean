import Runbook.Registry.Basic
import Runbook.Value.Merge

/-!
The primitives that are always there: those of the operators, and those of the standard registry.
-/
namespace Runbook

namespace Operator

/-- What an operator does with the results of its operands, which stand in a group: the first one,
all of them, or their merge. Any other value stays as it is. -/
def join : Operator → Value → Outcome
  | .waitEither, .parallel (first :: _) => .ok first
  | .combine, .parallel values => Value.mergeAll values
  | _, value => .ok value

def asPrimitive (operator : Operator) : Primitive :=
  ⟨operator.primitive, some operator, fun value => .now (operator.join value)⟩

end Operator

/-- The milliseconds that a value says: a number of them that is not negative, or a measure of
milliseconds or seconds. -/
def Value.milliseconds? : Value → Option Nat
  | .quantity (.number n) => if 0 ≤ n.toInt then some n.toInt.toNat else none
  | .quantity (.measure n symbol) =>
    if n.toInt < 0 then none
    else if symbol = "ms" then some n.toInt.toNat
    else if symbol = "s" then some (n.toInt.toNat * 1000)
    else none
  | _ => none

namespace Registry

/-- Tells a value to those who perform the runbook. -/
def task (value : Value) : Response := .saying .task value (.ok value)

def write (value : Value) : Response := .saying .write value (.ok .unit)

/-- Fails, for the reason that the text is. -/
def fail : Value → Response
  | .text text => .now (.error (.builtin "fail" text))
  | value => .now (.error (.builtin "fail" value.show))

/-- Waits for the time that the value is. -/
def sleep (value : Value) : Response :=
  match value.milliseconds? with
  | some delay => .later delay (.ok .unit)
  | none => .now (.error (.builtin "sleep" ("expected a duration, found " ++ value.show)))

def operators : Registry :=
  [Operator.waitEither, .waitBoth, .combine].foldl
    (fun registry operator => registry.insert operator.asPrimitive) ⟨[]⟩

/-- The primitives of the operators, and those to tell, write, fail and wait. -/
def standard : Registry :=
  (((operators.register "task" task).register "write" write).register "fail" fail).register
    "sleep" sleep

end Registry

end Runbook
