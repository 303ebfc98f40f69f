/-!
The tree of a runbook: a document of procedures, their statements and expressions.

Every node but a quantity and a name carries the byte offset at which it begins in its text.
-/
namespace Runbook

abbrev Identifier := String

abbrev Label := String

def showLabel (label : Label) : String := "\"" ++ label ++ "\""

/-- By whom or where steps are performed. -/
inductive Setting where
  /-- As around it. -/
  | inherit
  /-- By the holder of a role. -/
  | role (name : Identifier)
  /-- At a place, or with a class of means. -/
  | place (name : Identifier)
  deriving DecidableEq, Repr, Inhabited

def Setting.show : Setting → String
  | .inherit => "@*"
  | .role name => "@" ++ name
  | .place name => "^" ++ name

/-- A whole number, with or without a unit of measure. -/
inductive Quantity where
  | number (value : Int64)
  | measure (magnitude : Int64) (unit : String)
  deriving DecidableEq, Repr

def Quantity.show : Quantity → String
  | .number n => toString n.toInt
  | .measure n unit => toString n.toInt ++ " " ++ unit

/-- The ways to join two operands that are performed at the same time. -/
inductive Operator where
  /-- `|`: whichever finishes first. -/
  | waitEither
  /-- `&`: both, as a pair. -/
  | waitBoth
  /-- `+`: both, merged. -/
  | combine
  deriving DecidableEq, Repr

def Operator.primitive : Operator → Identifier
  | .waitEither => "wait_either"
  | .waitBoth => "wait_both"
  | .combine => "combine"

mutual

inductive Expression where
  /-- A name before its argument. -/
  | application (offset : Nat) (name : Identifier) (argument : Expression)
  | unit (offset : Nat)
  | text (offset : Nat) (text : String)
  | amount (offset : Nat) (quantity : Quantity)
  /-- `?` or `undefined`: what is still to be written. -/
  | hole (offset : Nat)
  /-- `[ "label" = value, … ]`. -/
  | tablet (offset : Nat) (fields : List (Label × Expression))
  /-- One name, or several with commas between them. -/
  | reference (offset : Nat) (names : List Identifier)
  | operation (offset : Nat) (operator : Operator) (left right : Expression)
  | grouping (offset : Nat) (inner : Expression)
  /-- A block performed in a setting. -/
  | restriction (offset : Nat) (setting : Setting) (block : List Statement)

inductive Statement where
  /-- Names, `=`, and the expression whose value they get. -/
  | assignment (offset : Nat) (targets : List Identifier) (value : Expression)
  | execute (offset : Nat) (expression : Expression)
  /-- A procedure of the block's own. -/
  | declaration (offset : Nat) (procedure : Procedure)
  /-- `-- text`. -/
  | comment (offset : Nat) (text : String)
  | blank (offset : Nat)
  /-- `;` after a statement. -/
  | series (offset : Nat)

/-- A procedure: its name, the names of its parameters, a free remark on them, and its body. -/
structure Procedure where
  offset : Nat
  name : Identifier
  parameters : List Identifier
  signature : Option String
  block : List Statement

end

/-- The statements of a scope, in order. -/
abbrev Block := List Statement

/-- A file of procedures. The first is where it begins. -/
structure Document where
  procedures : List Procedure

/-- Comments take the end of their line with them. -/
def Statement.isComment : Statement → Bool
  | .comment .. => true
  | _ => false

/-- The procedures that a block declares itself, in order. -/
def declarations : Block → List Procedure
  | [] => []
  | .declaration _ procedure :: block => procedure :: declarations block
  | _ :: block => declarations block

end Runbook
