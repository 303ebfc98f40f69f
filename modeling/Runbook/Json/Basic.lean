import Runbook.Word

/-!
JSON values.

Integers are numbers of their own; any other number keeps its spelling, since no tree of this
library holds one. An object keeps its members in order.
-/
namespace Runbook

inductive Json where
  | null
  | bool (value : Bool)
  | int (value : Int)
  /-- Any other number, by its spelling. -/
  | real (spelling : String)
  | str (value : String)
  | arr (items : List Json)
  | obj (members : List (String × Json))
  deriving Inhabited, Repr

namespace Json

/-- The number as an offset or index. -/
def nat? : Json → Option Nat
  | .int n => if 0 ≤ n then some n.toNat else none
  | _ => none

def int64? : Json → Option Int64
  | .int n => Word.signed? n
  | _ => none

def uint64? : Json → Option UInt64
  | .int n => if 0 ≤ n ∧ n < Word.limit then some (UInt64.ofNat n.toNat) else none
  | _ => none

def bool? : Json → Option Bool
  | .bool b => some b
  | _ => none

def str? : Json → Option String
  | .str s => some s
  | _ => none

/-- The text, or nothing where the value is `null`. -/
def optionalStr? : Json → Option (Option String)
  | .null => some none
  | .str s => some (some s)
  | _ => none

/-- Every item of an array, read by `read`. -/
def list? {α : Type} (read : Json → Option α) : Json → Option (List α)
  | .arr items => items.mapM read
  | _ => none

def member? (name : String) : Json → Option Json
  | .obj members => members.reverse.lookup name
  | _ => none

/-- The values of a record's fields, in the order of `names`: an object's members of those names,
or an array's items, which are then as many as the names. -/
def fields? (names : List String) : Json → Option (List Json)
  | .arr items => if items.length = names.length then some items else none
  | .obj members => names.mapM fun name => (Json.obj members).member? name
  | _ => none

def ofNat (n : Nat) : Json := .int n

def ofInt64 (n : Int64) : Json := .int n.toInt

def ofStrings (texts : List String) : Json := .arr (texts.map .str)

/-- A value under its tag. -/
def tagged (tag : String) (payload : Json) : Json := .obj [(tag, payload)]

end Json

end Runbook
