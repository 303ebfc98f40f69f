import Runbook.Syntax.Json
import Runbook.Value.Basic

/-!
The JSON form of values, by the rules of the JSON form of documents.
-/
namespace Runbook

mutual

def Value.toJson : Value → Json
  | .unit => .str "Unit"
  | .text text => .tagged "Text" (.str text)
  | .quantity quantity => .tagged "Quantity" quantity.toJson
  | .tablet fields => .tagged "Tablet" (.arr (valueFieldsToJson fields))
  | .parallel values => .tagged "Parallel" (.arr (valuesToJson values))

def valueFieldsToJson : List (Label × Value) → List Json
  | [] => []
  | (label, value) :: fields => .arr [.str label, value.toJson] :: valueFieldsToJson fields

def valuesToJson : List Value → List Json
  | [] => []
  | value :: values => value.toJson :: valuesToJson values

end

def Failure.members (failure : Failure) : List (String × Json) :=
  ("message", .str failure.message) :: match failure with
    | .builtin name detail =>
      [("error", .str "Builtin"), ("builtin", .str name), ("detail", .str detail)]
    | .arity expected found =>
      [("error", .str "Destructure"), ("expected", .ofNat expected), ("found", .ofNat found)]
    | .cancelled => [("error", .str "Cancelled")]

mutual

def Value.ofJson? : Json → Option Value
  | .str "Unit" => some .unit
  | .obj [(tag, payload)] =>
    match tag, payload with
    | "Unit", .null => some .unit
    | "Text", .str text => some (.text text)
    | "Quantity", quantity => (Quantity.ofJson? quantity).map .quantity
    | "Tablet", .arr fields => (valueFieldsOfJson? fields).map .tablet
    | "Parallel", .arr values => (valuesOfJson? values).map .parallel
    | _, _ => none
  | _ => none

def valueFieldsOfJson? : List Json → Option (List (Label × Value))
  | [] => some []
  | .arr [.str label, value] :: fields => do
    some ((label, ← Value.ofJson? value) :: (← valueFieldsOfJson? fields))
  | _ :: _ => none

def valuesOfJson? : List Json → Option (List Value)
  | [] => some []
  | value :: values => do some ((← Value.ofJson? value) :: (← valuesOfJson? values))

end

end Runbook
