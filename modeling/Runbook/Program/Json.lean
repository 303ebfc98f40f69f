import Runbook.Json.Reader
import Runbook.Syntax.Json
import Runbook.Program.Basic

/-!
The JSON form of compiled routines, by the rules of the JSON form of documents. A library is an
object whose members are named by the routines' numbers.
-/
namespace Runbook

namespace Name

def toJson (name : Name) : Json :=
  .obj [("index", .ofNat name.index), ("identifier", .str name.identifier)]

def ofJson? (json : Json) : Option Name := do
  match ← json.fields? ["index", "identifier"] with
  | [index, identifier] => some ⟨← index.nat?, ← identifier.str?⟩
  | _ => none

end Name

mutual

def Literal.toJson : Literal → Json
  | .unit => .str "Unit"
  | .text text => .tagged "Text" (.str text)
  | .quantity quantity => .tagged "Quantity" quantity.toJson
  | .tablet fields => .tagged "Tablet" (.arr (stepFieldsToJson fields))

def Step.toJson : Step → Json
  | .literal literal => .tagged "Known" literal.toJson
  | .bind names step =>
    .tagged "Asynchronous" (.arr [.arr (names.map Name.toJson), step.toJson])
  | .call callee argument => .tagged "Invocation" (.arr [.ofNat callee, argument.toJson])
  | .invoke primitive argument => .tagged "External" (.arr [.str primitive, argument.toJson])
  | .tuple steps => .tagged "Tuple" (.arr (stepsToJson steps))
  | .read name => .tagged "Depends" name.toJson

def stepFieldsToJson : List (Label × Step) → List Json
  | [] => []
  | (label, step) :: fields => .arr [.str label, step.toJson] :: stepFieldsToJson fields

def stepsToJson : List Step → List Json
  | [] => []
  | step :: steps => step.toJson :: stepsToJson steps

end

mutual

def Literal.ofJson? : Json → Option Literal
  | .str "Unit" => some .unit
  | .obj [(tag, payload)] =>
    match tag, payload with
    | "Unit", .null => some .unit
    | "Text", .str text => some (.text text)
    | "Quantity", quantity => (Quantity.ofJson? quantity).map .quantity
    | "Tablet", .arr fields => (stepFieldsOfJson? fields).map .tablet
    | _, _ => none
  | _ => none

def Step.ofJson? : Json → Option Step
  | .obj [(tag, payload)] =>
    match tag, payload with
    | "Known", literal => (Literal.ofJson? literal).map .literal
    | "Asynchronous", .arr [names, step] => do
      some (.bind (← names.list? Name.ofJson?) (← Step.ofJson? step))
    | "Invocation", .arr [callee, argument] => do
      some (.call (← callee.nat?) (← Step.ofJson? argument))
    | "External", .arr [primitive, argument] => do
      some (.invoke (← primitive.str?) (← Step.ofJson? argument))
    | "Tuple", .arr steps => (stepsOfJson? steps).map .tuple
    | "Depends", name => (Name.ofJson? name).map .read
    | _, _ => none
  | _ => none

def stepFieldsOfJson? : List Json → Option (List (Label × Step))
  | [] => some []
  | .arr [.str label, step] :: fields => do
    some ((label, ← Step.ofJson? step) :: (← stepFieldsOfJson? fields))
  | _ :: _ => none

def stepsOfJson? : List Json → Option (List Step)
  | [] => some []
  | step :: steps => do some ((← Step.ofJson? step) :: (← stepsOfJson? steps))

end

namespace Sequence

/-- An entry is a pair of its setting and its step. -/
def toJson (sequence : Sequence) : Json :=
  .arr (sequence.map fun entry => .arr [entry.setting.toJson, entry.step.toJson])

def ofJson? (json : Json) : Option Sequence :=
  json.list? fun
    | .arr [setting, step] => do some ⟨← Setting.ofJson? setting, ← Step.ofJson? step⟩
    | _ => none

end Sequence

mutual

def Routine.toJson : Routine → Json
  | ⟨procedure, parameters, sequence, library⟩ =>
    .obj [("procedure", procedure.toJson), ("parameters", .arr (parameters.map Name.toJson)),
      ("sequence", sequence.toJson), ("library", .obj (libraryToJson library))]

def libraryToJson : List (Callee × Routine) → List (String × Json)
  | [] => []
  | (callee, routine) :: library =>
    (toString callee, routine.toJson) :: libraryToJson library

end

/-- The number that names a member of a library. -/
def callee? (name : String) : Option Callee :=
  match Json.numberAt name.toList with
  | some (number, []) => number.nat?
  | _ => none

/-- The values read so far from the members of a routine's object. -/
structure RoutineDraft where
  procedure : Option Procedure
  parameters : Option (List Name)
  sequence : Option Sequence
  library : Option Library

def RoutineDraft.finish? (draft : RoutineDraft) : Option Routine := do
  some ⟨← draft.procedure, ← draft.parameters, ← draft.sequence, ← draft.library⟩

mutual

def Routine.ofJson? : Json → Option Routine
  | .obj members => do (← routineDraft? members).finish?
  | .arr [procedure, parameters, sequence, .obj library] => do
    some ⟨← Procedure.ofJson? procedure, ← parameters.list? Name.ofJson?,
      ← Sequence.ofJson? sequence, ← libraryOfJson? library⟩
  | _ => none

/-- What the members of a routine's object say, the last of each name. -/
def routineDraft? : List (String × Json) → Option RoutineDraft
  | [] => some ⟨none, none, none, none⟩
  | (name, value) :: members => do
    let draft ← routineDraft? members
    match name, value with
    | "procedure", value =>
      some { draft with procedure := draft.procedure <|> some (← Procedure.ofJson? value) }
    | "parameters", value =>
      some { draft with parameters := draft.parameters <|> some (← value.list? Name.ofJson?) }
    | "sequence", value =>
      some { draft with sequence := draft.sequence <|> some (← Sequence.ofJson? value) }
    | "library", .obj library =>
      some { draft with library := draft.library <|> some (← libraryOfJson? library) }
    | "library", _ => none
    | _, _ => some draft

def libraryOfJson? : List (String × Json) → Option (List (Callee × Routine))
  | [] => some []
  | (name, value) :: members => do
    let routine ← Routine.ofJson? value
    let library ← libraryOfJson? members
    some (Library.insert library (← callee? name) routine)

end

end Runbook
