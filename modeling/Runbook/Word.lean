/-!
The ranges of words of 64 bits, and what is done with signed ones.
-/
namespace Runbook.Word

/-- The first number that is no unsigned word. -/
def limit : Nat := 0x10000000000000000

/-- The first number that is no signed word; its negative is one. -/
def signedLimit : Nat := 0x8000000000000000

def signed? (n : Int) : Option Int64 :=
  if -(signedLimit : Int) ≤ n ∧ n < signedLimit then some (Int64.ofInt n) else none

def add? (a b : Int64) : Option Int64 := signed? (a.toInt + b.toInt)

end Runbook.Word
