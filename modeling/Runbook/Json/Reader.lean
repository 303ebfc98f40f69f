import Runbook.Json.Basic

/-!
Reading JSON text.

Each reader takes the text that is left and gives what it read with the text after it. Values
nest, so their readers count down from a bound; every level takes at least one character, and the
length of the text is bound enough.

An integer is a number of its own if it fits 64 bits; no tree holds a larger one.

A value that nobody asks for may be read leniently: then the escapes of its strings need not denote
characters.
-/
namespace Runbook.Json

/-- How strings are read: `lenient` text may hold escapes that denote no character. -/
inductive Strictness where
  | strict
  | lenient
  deriving DecidableEq, Repr

def skipWhite (cs : List Char) : List Char :=
  cs.dropWhile fun c => c == ' ' || c == '\n' || c == '\t' || c == '\r'

/-- The value of a hexadecimal digit of either case. -/
def hexValue? (c : Char) : Option Nat :=
  if c.isDigit then some (c.toNat - 48)
  else if 'a' ≤ c ∧ c ≤ 'f' then some (c.toNat - 87)
  else if 'A' ≤ c ∧ c ≤ 'F' then some (c.toNat - 55)
  else none

/-- The code that the letter of a short escape stands for. -/
def escapeCode? (c : Char) : Option Nat :=
  if c = '"' ∨ c = '\\' ∨ c = '/' then some c.toNat
  else if c = 'b' then some 8
  else if c = 'f' then some 12
  else if c = 'n' then some 10
  else if c = 'r' then some 13
  else if c = 't' then some 9
  else none

/-- The codes of a string up to its closing quote. Only escapes give surrogates. -/
def stringCodes : List Char → Option (List Nat × List Char)
  | [] => none
  | '"' :: cs => some ([], cs)
  | '\\' :: 'u' :: a :: b :: c :: d :: cs => do
    let a ← hexValue? a
    let b ← hexValue? b
    let c ← hexValue? c
    let d ← hexValue? d
    let (codes, rest) ← stringCodes cs
    some ((((a * 16 + b) * 16 + c) * 16 + d) :: codes, rest)
  | '\\' :: e :: cs => do
    let code ← escapeCode? e
    let (codes, rest) ← stringCodes cs
    some (code :: codes, rest)
  | c :: cs =>
    if c = '\\' ∨ c.toNat < 0x20 then none
    else do
      let (codes, rest) ← stringCodes cs
      some (c.toNat :: codes, rest)

/-- The characters of the codes, a pair of surrogates being one; `none` if one stands alone. -/
def characters? : List Nat → Option (List Char)
  | [] => some []
  | u :: v :: codes =>
    if 0xD800 ≤ u ∧ u < 0xDC00 then
      if 0xDC00 ≤ v ∧ v < 0xE000 then
        (characters? codes).map (Char.ofNat (0x10000 + (u - 0xD800) * 0x400 + (v - 0xDC00)) :: ·)
      else none
    else if 0xDC00 ≤ u ∧ u < 0xE000 then none
    else (characters? (v :: codes)).map (Char.ofNat u :: ·)
  | [u] => if 0xD800 ≤ u ∧ u < 0xE000 then none else some [Char.ofNat u]

/-- A string whose opening quote has been taken. -/
def stringAt (mode : Strictness) (cs : List Char) : Option (String × List Char) := do
  let (codes, rest) ← stringCodes cs
  match characters? codes, mode with
  | some text, _ => some (String.ofList text, rest)
  | none, .lenient => some ("", rest)
  | none, .strict => none

def digitsAt (cs : List Char) : Option (List Char × List Char) :=
  match cs.takeWhile Char.isDigit with
  | [] => none
  | ds => some (ds, cs.dropWhile Char.isDigit)

/-- Digits without a leading zero. -/
def wholeAt (cs : List Char) : Option (List Char × List Char) := do
  let (ds, rest) ← digitsAt cs
  match ds with
  | '0' :: _ :: _ => none
  | ds => some (ds, rest)

/-- The part after the point, if there is one. -/
def fractionAt : List Char → Option (List Char × List Char)
  | '.' :: cs => do
    let (ds, rest) ← digitsAt cs
    some ('.' :: ds, rest)
  | cs => some ([], cs)

def exponentAt : List Char → Option (List Char × List Char)
  | [] => some ([], [])
  | c :: cs =>
    if c = 'e' ∨ c = 'E' then
      match cs with
      | [] => none
      | s :: cs' =>
        if s = '+' ∨ s = '-' then do
          let (ds, rest) ← digitsAt cs'
          some (c :: s :: ds, rest)
        else do
          let (ds, rest) ← digitsAt cs
          some (c :: ds, rest)
    else some ([], c :: cs)

/-- The number with that spelling: an integer if it is one of 64 bits, which `-0` is not. -/
def numberOf (negative : Bool) (whole tail : List Char) : Json :=
  let n := Nat.ofDigitChars 10 whole 0
  let spelling := String.ofList ((if negative then ['-'] else []) ++ whole ++ tail)
  if ¬ tail.isEmpty then .real spelling
  else if negative then
    if 0 < n ∧ n ≤ Word.signedLimit then .int (-(n : Int)) else .real spelling
  else if n < Word.limit then .int n
  else .real spelling

def numberAt (cs : List Char) : Option (Json × List Char) := do
  let (negative, cs) := match cs with
    | '-' :: cs => (true, cs)
    | cs => (false, cs)
  let (whole, cs) ← wholeAt cs
  let (fraction, cs) ← fractionAt cs
  let (exponent, cs) ← exponentAt cs
  some (numberOf negative whole (fraction ++ exponent), cs)

mutual

/-- A value, with the white space before it. -/
def valueAt (mode : Strictness) : Nat → List Char → Option (Json × List Char)
  | 0, _ => none
  | bound + 1, cs =>
    match skipWhite cs with
    | 'n' :: 'u' :: 'l' :: 'l' :: rest => some (.null, rest)
    | 't' :: 'r' :: 'u' :: 'e' :: rest => some (.bool true, rest)
    | 'f' :: 'a' :: 'l' :: 's' :: 'e' :: rest => some (.bool false, rest)
    | '"' :: rest => do
      let (text, rest) ← stringAt mode rest
      some (.str text, rest)
    | '[' :: rest =>
      match skipWhite rest with
      | ']' :: rest => some (.arr [], rest)
      | rest => do
        let (items, rest) ← itemsAt mode bound rest
        some (.arr items, rest)
    | '\x7b' :: rest =>
      match skipWhite rest with
      | '\x7d' :: rest => some (.obj [], rest)
      | rest => do
        let (members, rest) ← membersAt mode mode bound rest
        some (.obj members, rest)
    | cs => numberAt cs

/-- The items of an array, at least one, and its end. -/
def itemsAt (mode : Strictness) : Nat → List Char → Option (List Json × List Char)
  | 0, _ => none
  | bound + 1, cs => do
    let (item, rest) ← valueAt mode bound cs
    match skipWhite rest with
    | ',' :: rest => do
      let (items, rest) ← itemsAt mode bound rest
      some (item :: items, rest)
    | ']' :: rest => some ([item], rest)
    | _ => none

/-- The members of an object, at least one, and its end; their names and their values may be read
in different ways. -/
def membersAt (names values : Strictness) :
    Nat → List Char → Option (List (String × Json) × List Char)
  | 0, _ => none
  | bound + 1, cs =>
    match skipWhite cs with
    | '"' :: rest => do
      let (name, rest) ← stringAt names rest
      match skipWhite rest with
      | ':' :: rest => do
        let (value, rest) ← valueAt values bound rest
        match skipWhite rest with
        | ',' :: rest => do
          let (members, rest) ← membersAt names values bound rest
          some ((name, value) :: members, rest)
        | '\x7d' :: rest => some ([(name, value)], rest)
        | _ => none
      | _ => none
    | _ => none

end

/-- A bound on the readings that begin in a text. -/
def bound (cs : List Char) : Nat := 2 * cs.length + 1

/-- What was read, if nothing but white space follows it. -/
def whole? : Option (Json × List Char) → Option Json
  | some (value, rest) => if (skipWhite rest).isEmpty then some value else none
  | none => none

/-- The value that `text` spells, with nothing but white space around it. -/
def parse? (text : String) : Option Json :=
  whole? (valueAt .strict (bound text.toList) text.toList)

/-- The record that `text` spells. Nothing but the names of its members is read strictly, since
some of them may be of no interest. -/
def parseRecord? (text : String) : Option Json :=
  let cs := skipWhite text.toList
  match cs with
  | '\x7b' :: rest =>
    match skipWhite rest with
    | '\x7d' :: rest => whole? (some (.obj [], rest))
    | rest => whole? ((membersAt .strict .lenient (bound rest) rest).map fun (members, rest) =>
        (.obj members, rest))
  | _ => whole? (valueAt .lenient (bound cs) cs)

end Runbook.Json
