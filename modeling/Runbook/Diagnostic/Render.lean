import Runbook.Text.Utf8
import Runbook.Text.Blank
import Runbook.Diagnostic.Basic

/-!
A diagnostic as it is shown: the position, the line, carets under what is wrong, and the reason.

An offset past the end stands for the end, and one inside a character for its beginning. Lines and
columns count from 1, columns by characters.
-/
namespace Runbook

/-- A place in a text by line and column. -/
structure Position where
  line : Nat
  column : Nat
  deriving DecidableEq, Repr

def lastLine (cs : List Char) : List Char := (cs.reverse.takeWhile (· != '\n')).reverse

def firstLine (cs : List Char) : List Char := cs.takeWhile (· != '\n')

def dropReturns (cs : List Char) : List Char := Text.dropWhileEnd (· == '\r') cs

namespace Source

def position (source : Source) (offset : Nat) : Position :=
  let before := (Text.splitBytes offset source.contents.toList).1
  ⟨before.count '\n' + 1, (lastLine before).length + 1⟩

/-- The line that a byte offset is on, without carriage returns before the offset and at the end. -/
def lineAt (source : Source) (offset : Nat) : List Char :=
  let (before, after) := Text.splitBytes offset source.contents.toList
  dropReturns (lastLine before) ++ dropReturns (firstLine after)

end Source

/-- Lines longer than this are cut off, unless the carets stand past it. -/
def maximumWidth : Nat := 77

/-- The line as it is shown when carets begin at `column`. -/
def cutLine (column : Nat) (line : List Char) : List Char :=
  if maximumWidth < line.length ∧ column ≤ maximumWidth then line.take maximumWidth ++ ['…']
  else line

def Diagnostic.render (diagnostic : Diagnostic) : String :=
  let position := diagnostic.source.position diagnostic.offset
  let line := cutLine position.column (diagnostic.source.lineAt diagnostic.offset)
  let carets :=
    List.replicate (position.column - 1) ' ' ++ List.replicate diagnostic.reason.width '^'
  diagnostic.source.filename ++ ":" ++ toString position.line ++ ":" ++ toString position.column
    ++ "\n\n" ++ String.ofList line ++ "\n" ++ String.ofList carets
    ++ "\n\n" ++ diagnostic.reason.message

end Runbook
