import Runbook.Evaluation.Report
import Runbook.Value.Json

/-!
The JSON form of what a run reports.
-/
namespace Runbook

namespace Channel

def name : Channel → String
  | .task => "task"
  | .write => "write"
  | .record => "record"

end Channel

def Event.members : Event → List (String × Json)
  | .said channel value => [("event", .str channel.name), ("value", .str value.show)]
  | .entered procedure => [("event", .str "span procedure"), ("name", .str procedure)]
  | .finished ok => [("event", .str "procedure finished"), ("ok", .bool ok)]
  | .starting index setting =>
    [("event", .str "starting step"), ("step", .ofNat index), ("attribute", .str setting.show)]
  | .binding names setting =>
    [("event", .str "span binding"),
      ("names", .str (String.intercalate ", " (names.map Name.show))),
      ("attribute", .str setting.show)]
  | .invoking primitive => [("event", .str "invoking builtin"), ("builtin", .str primitive)]

def Logged.toJson (logged : Logged) : Json :=
  .obj (("ms", .ofNat logged.ms) :: logged.event.members)

/-- The log of a report, with the events that are of interest only to a trace if `trace` holds. -/
def Report.logToJson (report : Report) (trace : Bool) : Json :=
  .arr ((report.log.filter fun logged => trace || !logged.event.isTrace).map Logged.toJson)

def outcomeMembers : Outcome → List (String × Json)
  | .ok value => [("ok", value.toJson), ("display", .str value.show)]
  | .error failure => failure.members

end Runbook
