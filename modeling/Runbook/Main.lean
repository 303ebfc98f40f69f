import Runbook.CommandLine.Execution

/-!
The program: it does what its arguments ask for.
-/
namespace Runbook

/-- Does an operation on files, and says whether it could be done. -/
def possible (operation : IO Unit) : IO Bool := do
  try
    operation
    pure true
  catch _ => pure false

def hostDisk : Disk IO where
  contains path := possible (discard (IO.FS.Handle.mk path .read))
  read? path := do
    try
      pure (some (← IO.FS.readFile path))
    catch _ => pure none
  create path := possible (discard (IO.FS.Handle.mk path .write))
  write path text := possible (IO.FS.writeFile path text)
  rename path target := possible (IO.FS.rename path target)

/-- Prints the log of a run, each entry at its moment, and waits for the end of the run. -/
def printLog (log : List Logged) (elapsed : Nat) : IO Unit := do
  let mut now := 0
  for entry in log do
    IO.sleep (entry.ms - now).toUInt32
    now := entry.ms
    IO.eprintln (toString entry.ms ++ "ms " ++ entry.text)
  IO.sleep (elapsed - now).toUInt32

/-- The moves that a run may make: more than can be made. -/
def unlimited : Nat := Word.signedLimit

/-- Prints what a command has come to, and gives the status that it ends with. -/
def printAnswer : Answer → IO UInt32
  | .ended output => do
    for notice in output.notices do IO.eprintln ("0ms " ++ notice)
    printLog output.log output.elapsed
    IO.print output.result
    IO.eprint output.error
    unless output.error.isEmpty || output.error.endsWith "\n" do IO.eprintln ""
    pure output.exitCode.toUInt32
  | .misused => do
    IO.eprint helpText
    pure 2
  | .unfinished => pure 1

end Runbook

def main (arguments : List String) : IO UInt32 := do
  let request := Runbook.Request.ofArguments arguments
  Runbook.printAnswer (← request.answer Runbook.hostDisk Runbook.unlimited)
