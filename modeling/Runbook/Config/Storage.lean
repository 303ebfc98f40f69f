import Runbook.Text.Quoted
import Runbook.Config.Basic
import Runbook.Config.FileStore

/-!
The configuration in a file.

It is written to a second file first, which then takes the place of the first one, so that the
configuration is never half written. What a disk can do is the record `Disk`; `FileStore.disk` is
the disk of a store, and `FileStore.faultyDisk` one that may fail beyond what the store rules out.
-/
namespace Runbook

/-- Why a configuration is not to be had or not to be kept. -/
inductive StorageError where
  | unreadable (path : String)
  /-- The text is no configuration. -/
  | malformed
  /-- The second file cannot be made. -/
  | uncreatable (path : String)
  /-- The second file cannot be filled. -/
  | unwritable (path : String)
  /-- The second file cannot take the place of the first one. -/
  | irreplaceable (path : String)
  deriving DecidableEq, Repr

def StorageError.message : StorageError → String
  | .unreadable path => "Failed to read file: " ++ Text.quotedPath path
  | .malformed => "Failed to deserialize config"
  | .uncreatable path => "Failed to create " ++ Text.quotedPath path
  | .unwritable path => "Failed to write " ++ Text.quotedPath path
  | .irreplaceable path => "Failed to replace " ++ Text.quotedPath path

/-- What a disk can do. Every operation says whether it could be done. -/
structure Disk (m : Type → Type) where
  contains : String → m Bool
  read? : String → m (Option String)
  /-- Makes an empty file, instead of one that stands there. -/
  create : String → m Bool
  write : String → String → m Bool
  rename : String → String → m Bool

/-- Changes a store, if that can be done. -/
def FileStore.attempt (change? : FileStore → Option FileStore) : StateM FileStore Bool := do
  match change? (← get) with
  | some store =>
    set store
    pure true
  | none => pure false

/-- What a disk refuses to do although its files and directories would allow it. -/
structure Faults where
  uncreatable : FileStore → String → Bool
  /-- What stands in a file if the text cannot be written to it; `none` if it can. -/
  torn? : FileStore → String → String → Option String
  irreplaceable : FileStore → String → String → Bool

def Faults.none : Faults := ⟨fun _ _ => false, fun _ _ _ => .none, fun _ _ _ => false⟩

namespace FileStore

def faultyDisk (faults : Faults) : Disk (StateM FileStore) where
  contains path := return (← get).contains path
  read? path := return (← get).read? path
  create path := attempt fun store =>
    if faults.uncreatable store path then none else store.write? path ""
  write path text := do
    match faults.torn? (← get) path text with
    | none => attempt fun store => store.write? path text
    | some kept =>
      let _ ← attempt fun store => store.write? path kept
      pure false
  rename path target := attempt fun store =>
    if faults.irreplaceable store path target then none else store.rename? path target

def disk : Disk (StateM FileStore) := faultyDisk .none

end FileStore

def Disk.readFile {m : Type → Type} [Monad m] (disk : Disk m) (path : String) :
    ExceptT StorageError m String := do
  match ← disk.read? path with
  | some text => pure text
  | none => throw (.unreadable path)

namespace Config

variable {m : Type → Type} [Monad m]

def load (disk : Disk m) (path : String) : ExceptT StorageError m Config := do
  match ofText? (← disk.readFile path) with
  | some config => pure config
  | none => throw .malformed

/-- Where a configuration is written before it takes its place. -/
def draftPath (path : String) : String := Path.withExtension "partial" path

def save (disk : Disk m) (path : String) (config : Config) : ExceptT StorageError m Unit := do
  if ← disk.create (draftPath path) then
    if ← disk.write (draftPath path) config.toText then
      if ← disk.rename (draftPath path) path then pure ()
      else throw (.irreplaceable path)
    else throw (.unwritable (draftPath path))
  else throw (.uncreatable (draftPath path))

/-- Reads the configuration of a file, or writes the default one where nothing exists. -/
def loadOrSave (disk : Disk m) (path : String) : ExceptT StorageError m Config := do
  if ← disk.contains path then load disk path
  else
    save disk path default
    pure default

end Config

end Runbook
