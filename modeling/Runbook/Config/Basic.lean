import Runbook.Json.Reader
import Runbook.Json.Writer

/-!
The configuration of a run, and its text: a JSON object on indented lines.

A text may leave members out, which then have their defaults, and hold others, which are ignored.
-/
namespace Runbook

structure Config where
  /-- The threads to run on; 0 is one for each core. -/
  workerThreads : UInt64
  debug : Bool
  deriving DecidableEq, Repr

namespace Config

/-- What holds where nothing is configured. -/
def default : Config := ⟨0, false⟩

def logLevel (config : Config) : String := if config.debug then "debug" else "info"

def toJson (config : Config) : Json :=
  .obj [("worker_threads", .ofNat config.workerThreads.toNat), ("debug", .bool config.debug)]

/-- The value of a member that may be absent but not be repeated. -/
def optional? {α : Type} (read : Json → Option α) (absent : α) (name : String)
    (members : List (String × Json)) : Option α :=
  match members.filter fun member => member.1 == name with
  | [] => some absent
  | [(_, value)] => read value
  | _ => none

/-- The configuration of an object, or of an array of the values. -/
def ofJson? : Json → Option Config
  | .obj members => do
    some ⟨← optional? Json.uint64? default.workerThreads "worker_threads" members,
      ← optional? Json.bool? default.debug "debug" members⟩
  | .arr [] => some default
  | .arr [workerThreads] => do some ⟨← workerThreads.uint64?, default.debug⟩
  | .arr [workerThreads, debug] => do some ⟨← workerThreads.uint64?, ← debug.bool?⟩
  | _ => none

def toText (config : Config) : String := config.toJson.pretty

def ofText? (text : String) : Option Config := (Json.parseRecord? text).bind ofJson?

end Config

end Runbook
