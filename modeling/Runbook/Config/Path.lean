import Runbook.Text.Utf8

/-!
Paths of files, as they are written: components with slashes between them.
-/
namespace Runbook.Path

/-- The components of a path. An empty one, or a dot, stands for the directory before it. -/
def components (path : String) : List String :=
  (path.toList.splitOnP (· == '/')).map String.ofList

/-- The most bytes of a path that can be followed. -/
def limit : Nat := 4095

/-- The most bytes of a component that can be followed. -/
def componentLimit : Nat := 255

/-- Can the path be followed from a directory on? It is not empty, begins there and not at the root
of all directories, holds no null character, and is not too long. -/
def isUsable (path : String) : Bool :=
  !path.toList.isEmpty && path.toList.head? != some '/' && !path.toList.contains '\x00'
    && Text.byteLength path.toList ≤ limit
    && (components path).all fun name => Text.byteLength name.toList ≤ componentLimit

/-- The path without the slashes and dots at its end that name nothing more, and its last component
apart; both reversed. -/
def splitLast (path : List Char) : List Char × List Char :=
  let reversed := dropNeutral path.reverse
  (reversed.dropWhile (· != '/'), reversed.takeWhile (· != '/'))
where
  /-- Drops slashes, and dots that are a component of their own, from a reversed path. -/
  dropNeutral : List Char → List Char
    | '/' :: path => dropNeutral path
    | '.' :: '/' :: path => dropNeutral path
    | path => path

/-- The path with another extension: what follows the last dot of its last component, which is not
the dot that the component begins with. A path that names no file stays as it is. What is left of a
component that begins with two dots and has no other dot is the directory above, which names no
file, unless the path goes on after the component. -/
def withExtension (extension path : String) : String :=
  let (before, name) := splitLast path.toList
  if name.isEmpty ∨ name = ['.'] ∨ name = ['.', '.'] then path
  else
    let stem := match name.dropWhile (· != '.') with
      | [] | ['.'] => name
      | _ :: stem => stem
    if stem = ['.'] ∧ path.toList.getLast? = name.head? then
      String.ofList (('.' :: stem ++ before).reverse)
    else String.ofList ((stem ++ before).reverse ++ '.' :: extension.toList)

end Runbook.Path
