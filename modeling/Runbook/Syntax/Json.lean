import Runbook.Json.Basic
import Runbook.Syntax.Basic
import Runbook.Syntax.Expectation

/-!
The JSON form of documents and of reading failures.

An alternative is an object with its name as the only member, or only its name where it holds
nothing; what it holds stands in an array unless it is one thing. Records are objects. Each `toJson`
writes a form that the `ofJson?` beside it reads; that reader also takes a record's values as an
array, and ignores members that the record does not have.
-/
namespace Runbook

/-- The name of an alternative that holds nothing. -/
def Json.bare? : Json → Option String
  | .str tag => some tag
  | .obj [(tag, .null)] => some tag
  | _ => none

namespace Setting

def toJson : Setting → Json
  | .inherit => .str "Inherit"
  | .role name => .tagged "Role" (.str name)
  | .place name => .tagged "Place" (.str name)

def ofJson? : Json → Option Setting
  | .str "Inherit" => some .inherit
  | .obj [("Inherit", .null)] => some .inherit
  | .obj [("Role", .str name)] => some (.role name)
  | .obj [("Place", .str name)] => some (.place name)
  | _ => none

end Setting

namespace Quantity

def toJson : Quantity → Json
  | .number n => .tagged "Number" (.ofInt64 n)
  | .measure magnitude unit =>
    .tagged "Measure" (.obj [("magnitude", .ofInt64 magnitude), ("unit", .str unit)])

def ofJson? : Json → Option Quantity
  | .obj [("Number", n)] => n.int64?.map .number
  | .obj [("Measure", .obj members)] => do
    let magnitude ← ((Json.obj members).member? "magnitude").bind Json.int64?
    let unit ← ((Json.obj members).member? "unit").bind Json.str?
    some (.measure magnitude unit)
  | _ => none

end Quantity

namespace Operator

def tag : Operator → String
  | .waitEither => "WaitEither"
  | .waitBoth => "WaitBoth"
  | .combine => "Combine"

def toJson (operator : Operator) : Json := .str operator.tag

def ofJson? (json : Json) : Option Operator :=
  match json.bare? with
  | some "WaitEither" => some .waitEither
  | some "WaitBoth" => some .waitBoth
  | some "Combine" => some .combine
  | _ => none

end Operator

mutual

def Expression.toJson : Expression → Json
  | .application offset name argument =>
    .tagged "Application" (.arr [.ofNat offset, .str name, argument.toJson])
  | .unit offset => .tagged "None" (.ofNat offset)
  | .text offset text => .tagged "Text" (.arr [.ofNat offset, .str text])
  | .amount offset quantity => .tagged "Amount" (.arr [.ofNat offset, quantity.toJson])
  | .hole offset => .tagged "Undefined" (.ofNat offset)
  | .tablet offset fields => .tagged "Object" (.arr [.ofNat offset, .arr (fieldsToJson fields)])
  | .reference offset names => .tagged "Variable" (.arr [.ofNat offset, .ofStrings names])
  | .operation offset operator left right =>
    .tagged "Operation" (.arr [.ofNat offset, operator.toJson, left.toJson, right.toJson])
  | .grouping offset inner => .tagged "Grouping" (.arr [.ofNat offset, inner.toJson])
  | .restriction offset setting block =>
    .tagged "Restriction" (.arr [.ofNat offset, setting.toJson, .arr (blockToJson block)])

def Statement.toJson : Statement → Json
  | .assignment offset targets value =>
    .tagged "Assignment" (.arr [.ofNat offset, .ofStrings targets, value.toJson])
  | .execute offset value => .tagged "Execute" (.arr [.ofNat offset, value.toJson])
  | .declaration offset procedure =>
    .tagged "Declaration" (.arr [.ofNat offset, procedure.toJson])
  | .comment offset text => .tagged "Comment" (.arr [.ofNat offset, .str text])
  | .blank offset => .tagged "Blank" (.ofNat offset)
  | .series offset => .tagged "Series" (.ofNat offset)

def Procedure.toJson : Procedure → Json
  | ⟨offset, name, parameters, signature, block⟩ =>
    .obj [("offset", .ofNat offset), ("name", .str name), ("parameters", .ofStrings parameters),
      ("signature", (signature.map Json.str).getD .null), ("block", .arr (blockToJson block))]

/-- The fields of a tablet, each a pair. -/
def fieldsToJson : List (Label × Expression) → List Json
  | [] => []
  | (label, value) :: fields => .arr [.str label, value.toJson] :: fieldsToJson fields

def blockToJson : List Statement → List Json
  | [] => []
  | statement :: block => statement.toJson :: blockToJson block

end

/-- The values read so far from the members of a procedure's object. -/
structure ProcedureDraft where
  offset : Option Nat
  name : Option Identifier
  parameters : Option (List Identifier)
  signature : Option String
  block : Option Block

/-- The procedure, if nothing that it needs is absent. -/
def ProcedureDraft.finish? (draft : ProcedureDraft) : Option Procedure := do
  some ⟨← draft.offset, ← draft.name, ← draft.parameters, draft.signature, ← draft.block⟩

mutual

def Expression.ofJson? : Json → Option Expression
  | .obj [(tag, payload)] =>
    match tag, payload with
    | "Application", .arr [offset, name, argument] => do
      some (.application (← offset.nat?) (← name.str?) (← Expression.ofJson? argument))
    | "None", offset => offset.nat?.map .unit
    | "Text", .arr [offset, text] => do some (.text (← offset.nat?) (← text.str?))
    | "Amount", .arr [offset, quantity] => do
      some (.amount (← offset.nat?) (← Quantity.ofJson? quantity))
    | "Undefined", offset => offset.nat?.map .hole
    | "Object", .arr [offset, .arr fields] => do
      some (.tablet (← offset.nat?) (← fieldsOfJson? fields))
    | "Variable", .arr [offset, names] => do
      some (.reference (← offset.nat?) (← names.list? Json.str?))
    | "Operation", .arr [offset, operator, left, right] => do
      some (.operation (← offset.nat?) (← Operator.ofJson? operator) (← Expression.ofJson? left)
        (← Expression.ofJson? right))
    | "Grouping", .arr [offset, inner] => do
      some (.grouping (← offset.nat?) (← Expression.ofJson? inner))
    | "Restriction", .arr [offset, setting, .arr block] => do
      some (.restriction (← offset.nat?) (← Setting.ofJson? setting) (← blockOfJson? block))
    | _, _ => none
  | _ => none

def Statement.ofJson? : Json → Option Statement
  | .obj [(tag, payload)] =>
    match tag, payload with
    | "Assignment", .arr [offset, targets, value] => do
      some (.assignment (← offset.nat?) (← targets.list? Json.str?) (← Expression.ofJson? value))
    | "Execute", .arr [offset, value] => do
      some (.execute (← offset.nat?) (← Expression.ofJson? value))
    | "Declaration", .arr [offset, procedure] => do
      some (.declaration (← offset.nat?) (← Procedure.ofJson? procedure))
    | "Comment", .arr [offset, text] => do some (.comment (← offset.nat?) (← text.str?))
    | "Blank", offset => offset.nat?.map .blank
    | "Series", offset => offset.nat?.map .series
    | _, _ => none
  | _ => none

def Procedure.ofJson? : Json → Option Procedure
  | .obj members => do (← procedureDraft? members).finish?
  | .arr [offset, name, parameters, signature, .arr block] => do
    some ⟨← offset.nat?, ← name.str?, ← parameters.list? Json.str?, ← signature.optionalStr?,
      ← blockOfJson? block⟩
  | _ => none

/-- What the members of a procedure's object say, the last of each name. -/
def procedureDraft? : List (String × Json) → Option ProcedureDraft
  | [] => some ⟨none, none, none, none, none⟩
  | (name, value) :: members => do
    let draft ← procedureDraft? members
    match name, value with
    | "offset", value => some { draft with offset := draft.offset <|> some (← value.nat?) }
    | "name", value => some { draft with name := draft.name <|> some (← value.str?) }
    | "parameters", value =>
      some { draft with parameters := draft.parameters <|> some (← value.list? Json.str?) }
    | "signature", value =>
      some { draft with signature := draft.signature <|> (← value.optionalStr?) }
    | "block", .arr block => some { draft with block := draft.block <|> some (← blockOfJson? block) }
    | "block", _ => none
    | _, _ => some draft

def fieldsOfJson? : List Json → Option (List (Label × Expression))
  | [] => some []
  | .arr [.str label, value] :: fields => do
    some ((label, ← Expression.ofJson? value) :: (← fieldsOfJson? fields))
  | _ :: _ => none

def blockOfJson? : List Json → Option (List Statement)
  | [] => some []
  | statement :: block => do some ((← Statement.ofJson? statement) :: (← blockOfJson? block))

end

namespace Document

def toJson (document : Document) : Json :=
  .obj [("procedures", .arr (document.procedures.map Procedure.toJson))]

def ofJson? (json : Json) : Option Document := do
  match ← json.fields? ["procedures"] with
  | [procedures] => some ⟨← procedures.list? Procedure.ofJson?⟩
  | _ => none

end Document

namespace Item

def toJson : Item → Json
  | .tokens text => .tagged "Tokens" (.str text)
  | .label name => .tagged "Label" (.str name)
  | .endOfInput => .str "EndOfInput"

def ofJson? : Json → Option Item
  | .str "EndOfInput" => some .endOfInput
  | .obj [("EndOfInput", .null)] => some .endOfInput
  | .obj [("Tokens", .str text)] => some (.tokens text)
  | .obj [("Label", .str name)] => some (.label name)
  | _ => none

end Item

namespace ItemSet

def toJson (set : ItemSet) : Json := .arr (set.toList.map Item.toJson)

def ofJson? (json : Json) : Option ItemSet := (json.list? Item.ofJson?).map ofList

end ItemSet

namespace ParseError

def toJson (error : ParseError) : Json :=
  .obj [("offset", .ofNat error.offset), ("unexpected", error.unexpected.toJson),
    ("expected", error.expected.toJson)]

def ofJson? (json : Json) : Option ParseError := do
  match ← json.fields? ["offset", "unexpected", "expected"] with
  | [offset, unexpected, expected] =>
    some ⟨← offset.nat?, ← ItemSet.ofJson? unexpected, ← ItemSet.ofJson? expected⟩
  | _ => none

end ParseError

namespace ParseFailure

def toJson (failure : ParseFailure) : Json :=
  .obj [("errors", .arr (failure.errors.map ParseError.toJson))]

def ofJson? (json : Json) : Option ParseFailure := do
  match ← json.fields? ["errors"] with
  | [errors] => some ⟨← errors.list? ParseError.ofJson?⟩
  | _ => none

end ParseFailure

end Runbook
