import Runbook.Text.Unprintable

/-!
A text between double quotes, with the characters that do not print written as escapes.
-/
namespace Runbook.Text

/-- The written form of one character between double quotes; those of `marks` are written after a
backslash. -/
def quotedChar (marks : List Char) (c : Char) : List Char :=
  if c = '\\' ∨ c ∈ marks then ['\\', c]
  else if c = '\n' then ['\\', 'n']
  else if c = '\r' then ['\\', 'r']
  else if c = '\t' then ['\\', 't']
  else if c = '\x00' then ['\\', '0']
  else if isUnprintable c then ['\\', 'u', '\x7b'] ++ Nat.toDigits 16 c.toNat ++ ['\x7d']
  else [c]

/-- `text` between double quotes, in which those of `marks` are written after a backslash. -/
def quotedWith (marks : List Char) (text : String) : String :=
  String.ofList ('"' :: text.toList.flatMap (quotedChar marks) ++ ['"'])

/-- `text` between double quotes. -/
def quoted (text : String) : String := quotedWith ['"'] text

/-- The path of a file between double quotes; single quotes in it have a backslash too. -/
def quotedPath (path : String) : String := quotedWith ['"', '\''] path

end Runbook.Text
