/-!
White space, in the three senses that the formats of this library give it.
-/
namespace Runbook.Text

/-- A blank inside a line: space, tab or carriage return. -/
def isBlank (c : Char) : Bool := c == ' ' || c == '\t' || c == '\r'

/-- ASCII white space: the blanks of a line, the line feed and the form feed. -/
def isAsciiSpace (c : Char) : Bool := isBlank c || c == '\n' || c == '\x0c'

/-- The characters with the Unicode property White_Space. -/
def isWhite (c : Char) : Bool :=
  let n := c.toNat
  (9 ≤ n && n ≤ 13) || n == 0x20 || n == 0x85 || n == 0xA0 || n == 0x1680
    || (0x2000 ≤ n && n ≤ 0x200A) || n == 0x2028 || n == 0x2029 || n == 0x202F
    || n == 0x205F || n == 0x3000

/-- Drops what satisfies `p` from the end. -/
def dropWhileEnd (p : Char → Bool) (cs : List Char) : List Char :=
  (cs.reverse.dropWhile p).reverse

def trim (cs : List Char) : List Char := dropWhileEnd isWhite (cs.dropWhile isWhite)

end Runbook.Text
