import Runbook.Syntax.Expectation
import Runbook.Syntax.Basic

/-!
What is wrong with a runbook, and where.
-/
namespace Runbook

/-- A text and the name of the file it is from. -/
structure Source where
  contents : String
  filename : String
  deriving DecidableEq, Repr

def Source.isEmpty (source : Source) : Bool := source.contents.isEmpty && source.filename.isEmpty

/-- Why a runbook cannot be compiled. -/
inductive Reason where
  /-- There is nothing to compile. -/
  | invalidSetup
  /-- The text cannot be read on. -/
  | unreadable (unexpected expected : ItemSet)
  /-- A variable of the same scope has that name. -/
  | variableInUse (name : Identifier)
  /-- A procedure of the same scope has that name. -/
  | procedureDeclared (name : Identifier)
  /-- Neither a procedure nor a primitive has that name. -/
  | unknownProcedure (name : Identifier)
  /-- No variable in scope has that name. -/
  | unknownVariable (name : Identifier)
  /-- Something is still to be written. -/
  | hole
  deriving DecidableEq, Repr

namespace Reason

def message : Reason → String
  | .invalidSetup => "Invalid setup! How did we get here?"
  | .unreadable unexpected expected =>
    let found := if unexpected.toList.isEmpty then [] else ["unexpected " ++ unexpected.describe]
    let wanted := if expected.toList.isEmpty then [] else ["expecting " ++ expected.describe]
    match found ++ wanted with
    | [] => "unknown parse error"
    | lines => String.intercalate "\n" lines
  | .variableInUse name => "Variable by the name of '" ++ name ++ "' already defined."
  | .procedureDeclared name => "Procedure by the name of '" ++ name ++ "' already declared."
  | .unknownProcedure name => "Call to unknown procedure '" ++ name ++ "'."
  | .unknownVariable name => "Variable '" ++ name ++ "' not in scope."
  | .hole => "Found an undefined symbol. Did you mean to leave this here?"

/-- The status with which a command ends for this reason. -/
def exitCode : Reason → Nat
  | .invalidSetup => 1
  | .unreadable .. => 2
  | .variableInUse _ => 3
  | .procedureDeclared _ => 4
  | .unknownProcedure _ => 5
  | .unknownVariable _ => 6
  | .hole => 7

def name? : Reason → Option Identifier
  | .variableInUse name | .procedureDeclared name | .unknownProcedure name
  | .unknownVariable name => some name
  | _ => none

/-- How many characters are marked: those of the name or of the first unexpected item, and at
least one. -/
def width : Reason → Nat
  | .invalidSetup | .hole => 1
  | .unreadable unexpected _ =>
    match unexpected.toList with
    | .tokens text :: _ | .label text :: _ => max text.length 1
    | _ => 1
  | .variableInUse name | .procedureDeclared name | .unknownProcedure name
  | .unknownVariable name => max name.length 1

end Reason

/-- A reason and the byte offset that it is found at. -/
structure Misuse where
  offset : Nat
  reason : Reason
  deriving DecidableEq, Repr

/-- What is wrong at a place of a text. -/
structure Diagnostic where
  source : Source
  offset : Nat
  reason : Reason
  deriving DecidableEq, Repr

def Misuse.of (source : Source) (misuse : Misuse) : Diagnostic :=
  ⟨source, misuse.offset, misuse.reason⟩

def ParseError.diagnostic (source : Source) (error : ParseError) : Diagnostic :=
  ⟨source, error.offset, .unreadable error.unexpected error.expected⟩

/-- The diagnostic of the first error of a reading; `none` if it holds no error. -/
def ParseFailure.diagnostic? (source : Source) (failure : ParseFailure) : Option Diagnostic :=
  failure.errors.head?.map (·.diagnostic source)

end Runbook
