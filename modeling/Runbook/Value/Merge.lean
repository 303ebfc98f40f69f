import Runbook.Value.Basic
import Runbook.Word

/-!
The merging of two values: what `+` does with the results of its operands.
-/
namespace Runbook

def mergeFailure (detail : String) : Failure := .builtin Operator.combine.primitive detail

/-- The sum of two quantities of one unit. -/
def Quantity.add : Quantity → Quantity → Except Failure Quantity
  | .number a, .number b =>
    match Word.add? a b with
    | some sum => .ok (.number sum)
    | none => .error (mergeFailure "quantity overflow")
  | .measure a unit, .measure b other =>
    if unit = other then
      match Word.add? a b with
      | some sum => .ok (.measure sum unit)
      | none => .error (mergeFailure "quantity overflow")
    else
      .error (mergeFailure
        ("cannot combine " ++ (Quantity.measure a unit).show ++ " with "
          ++ (Quantity.measure b other).show))
  | a, b => .error (mergeFailure ("cannot combine " ++ a.show ++ " with " ++ b.show))

namespace Value

/-- Merges two values of one kind: texts, fields and results one after the other, quantities by
their sum. `()` leaves the other value as it is. -/
def merge : Value → Value → Outcome
  | .unit, other | other, .unit => .ok other
  | .text a, .text b => .ok (.text (a ++ b))
  | .quantity a, .quantity b => (a.add b).map .quantity
  | .tablet a, .tablet b => .ok (.tablet (a ++ b))
  | .parallel a, .parallel b => .ok (.parallel (a ++ b))
  | a, b => .error (mergeFailure ("cannot combine " ++ a.kind ++ " with " ++ b.kind))

def mergeAll (values : List Value) : Outcome := values.foldlM merge .unit

end Value

end Runbook
