/-!
Text as it is shown on a terminal: the characters that a terminal takes for commands are written as
escapes.
-/
namespace Runbook.Text

/-- Does a terminal take the character for the begin of a command, or for one? -/
def isCommand (c : Char) : Bool :=
  c == '\x07' || c == '\x08' || c == '\x0c' || c == '\x1b' || (0x7F ≤ c.toNat && c.toNat ≤ 0x9F)

def shownChar (c : Char) : List Char :=
  if isCommand c then
    if c.toNat < 0x80 then
      ['\\', 'x', Nat.digitChar (c.toNat / 16), Nat.digitChar (c.toNat % 16)]
    else ['\\', 'u', '\x7b'] ++ Nat.toDigits 16 c.toNat ++ ['\x7d']
  else [c]

def shown (text : String) : String := String.ofList (text.toList.flatMap shownChar)

end Runbook.Text
