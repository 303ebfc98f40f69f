import Runbook.Json.Basic

/-!
The two written forms of a JSON value: on one line without blanks, and on indented lines.
-/
namespace Runbook.Json

def hexDigit (n : Nat) : Char := Nat.digitChar (n % 16)

def escapedChar (c : Char) : List Char :=
  if c = '"' then ['\\', '"']
  else if c = '\\' then ['\\', '\\']
  else if c = '\n' then ['\\', 'n']
  else if c = '\r' then ['\\', 'r']
  else if c = '\t' then ['\\', 't']
  else if c = '\x08' then ['\\', 'b']
  else if c = '\x0c' then ['\\', 'f']
  else if c.toNat < 0x20 then ['\\', 'u', '0', '0', hexDigit (c.toNat / 16), hexDigit c.toNat]
  else [c]

def stringChars (text : String) : List Char :=
  '"' :: text.toList.flatMap escapedChar ++ ['"']

def intChars (n : Int) : List Char :=
  if n < 0 then '-' :: Nat.toDigits 10 n.natAbs else Nat.toDigits 10 n.natAbs

/-- The value without arrays and objects that hold something. -/
def atomChars : Json → List Char
  | .null => ['n', 'u', 'l', 'l']
  | .bool true => ['t', 'r', 'u', 'e']
  | .bool false => ['f', 'a', 'l', 's', 'e']
  | .int n => intChars n
  | .real spelling => spelling.toList
  | .str s => stringChars s
  | .arr _ => ['[', ']']
  | .obj _ => ['\x7b', '\x7d']

mutual

def compactChars : Json → List Char
  | .arr (item :: items) => '[' :: compactChars item ++ compactItems items
  | .obj ((name, value) :: members) =>
    '\x7b' :: stringChars name ++ ':' :: compactChars value ++ compactMembers members
  | atom => atomChars atom

/-- The items after the first, and the end of the array. -/
def compactItems : List Json → List Char
  | [] => [']']
  | item :: items => ',' :: compactChars item ++ compactItems items

/-- The members after the first, and the end of the object. -/
def compactMembers : List (String × Json) → List Char
  | [] => ['\x7d']
  | (name, value) :: members =>
    ',' :: stringChars name ++ ':' :: compactChars value ++ compactMembers members

end

/-- A new line, indented by two blanks a level. -/
def newLine (depth : Nat) : List Char := '\n' :: List.replicate (2 * depth) ' '

mutual

/-- The value on indented lines; its own lines are at `depth`. -/
def prettyChars (depth : Nat) : Json → List Char
  | .arr (item :: items) =>
    '[' :: newLine (depth + 1) ++ prettyChars (depth + 1) item ++ prettyItems depth items
  | .obj ((name, value) :: members) =>
    '\x7b' :: newLine (depth + 1) ++ stringChars name ++ ':' :: ' ' ::
      prettyChars (depth + 1) value ++ prettyMembers depth members
  | atom => atomChars atom

/-- The items after the first, and the end of the array at `depth`. -/
def prettyItems (depth : Nat) : List Json → List Char
  | [] => newLine depth ++ [']']
  | item :: items =>
    ',' :: newLine (depth + 1) ++ prettyChars (depth + 1) item ++ prettyItems depth items

/-- The members after the first, and the end of the object at `depth`. -/
def prettyMembers (depth : Nat) : List (String × Json) → List Char
  | [] => newLine depth ++ ['\x7d']
  | (name, value) :: members =>
    ',' :: newLine (depth + 1) ++ stringChars name ++ ':' :: ' ' ::
      prettyChars (depth + 1) value ++ prettyMembers depth members

end

def compact (j : Json) : String := String.ofList (compactChars j)

def pretty (j : Json) : String := String.ofList (prettyChars 0 j)

end Runbook.Json
