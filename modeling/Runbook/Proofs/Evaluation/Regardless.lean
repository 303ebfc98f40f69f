import Runbook.Proofs.Lowering.Unset
import Runbook.Proofs.Evaluation.Reordered

/-!
Who performs a step has no influence on the run.

A routine without settings is the routine under a translation that takes them away, and settings are
shown in traces only.
-/
namespace Runbook

theorem Entry.translate_unsetting (entry : Entry) : entry.translate .unsetting = entry.unset := by
  rw [translate, Translation.unsetting, Step.renumber_identity]
  rfl

theorem Routine.script_unset (routine : Routine) :
    routine.unset.script = routine.script.translate .unsetting := by
  obtain ⟨procedure, parameters, sequence, library⟩ := routine
  rw [Routine.unset, script, script, Script.translate, funext Entry.translate_unsetting,
    Procedure.unset_name]
  exact congrArg (Script.mk procedure.name · _) (Renumbering.map_name_identity parameters).symm

theorem Machine.translates_unsetting (registry : Registry) (library : Library) :
    Machine.Translates .unsetting ⟨registry, library⟩ ⟨registry, libraryUnset library⟩ where
  registry := rfl
  library callee := by
    have found := Library.unset_get? library callee
    change (Library.get? (libraryUnset library) callee).map Routine.script = _
    rw [found, Option.map_map]
    exact congrArg (Option.map · (library.get? callee)) (funext Routine.script_unset)

/-- A routine without settings is heard to do what the routine does, and breaks down for the same
defect. -/
theorem Routine.perform?_unset (routine : Routine) (registry : Registry) (argument : Value)
    (drain fuel : Nat) :
    (routine.unset.perform? registry argument drain fuel).map (Except.map Report.heard) =
      (routine.perform? registry argument drain fuel).map (Except.map Report.heard) := by
  have script := routine.script_unset
  have prompt : Translation.unsetting.late = 0 := rfl
  obtain ⟨procedure, parameters, sequence, library⟩ := routine
  rw [perform?_translate prompt script registry (Machine.translates_unsetting registry library),
    Option.map_map]
  refine congrArg (Option.map · _) (funext fun result => ?_)
  cases result with
  | error defect => exact congrArg Except.error defect.renumber_identity
  | ok report => exact congrArg Except.ok (report.heard_translate prompt)

/-- Settings have no influence on what happens. Routines that differ in the settings of their
entries, or of entries in their libraries, break down for the same defect, or have the same outcome
at the same moment and are heard to do the same before and after. Documents that differ in the
settings of restrictions are refused for the same reason at the same place, or compile to such
routines. -/
theorem Document.compile_regardless :
    (∀ routine other : Routine, other.unset = routine.unset →
      ∀ registry argument drain fuel,
        (other.perform? registry argument drain fuel).map (Except.map Report.heard) =
          (routine.perform? registry argument drain fuel).map (Except.map Report.heard)) ∧
    ∀ document other : Document, other.unset = document.unset → ∀ source primitives,
      (∀ diagnostic, document.compile source primitives = .error diagnostic →
        other.compile source primitives = .error diagnostic) ∧
      ∀ routine, document.compile source primitives = .ok routine →
        ∃ again, other.compile source primitives = .ok again ∧ again.unset = routine.unset ∧
          ∀ registry argument drain fuel,
            (again.perform? registry argument drain fuel).map (Except.map Report.heard) =
              (routine.perform? registry argument drain fuel).map (Except.map Report.heard) := by
  have performs (routine other : Routine) (same : other.unset = routine.unset)
      (registry : Registry) (argument : Value) (drain fuel : Nat) :
      (other.perform? registry argument drain fuel).map (Except.map Report.heard) =
        (routine.perform? registry argument drain fuel).map (Except.map Report.heard) := by
    rw [← other.perform?_unset, same, routine.perform?_unset]
  refine ⟨performs, fun document other same source primitives => ?_⟩
  have compiles := document.compile_unset source primitives
  rw [← same, other.compile_unset source primitives] at compiles
  refine ⟨fun diagnostic refused => ?_, fun routine compiled => ?_⟩
  · rw [refused] at compiles
    cases again : other.compile source primitives with
    | error diagnostic' =>
        rw [again] at compiles
        exact congrArg Except.error (Except.error.inj compiles)
    | ok routine =>
        rw [again] at compiles
        cases compiles
  · rw [compiled] at compiles
    cases again : other.compile source primitives with
    | error diagnostic =>
        rw [again] at compiles
        cases compiles
    | ok routine' =>
        rw [again] at compiles
        have unsets := Except.ok.inj compiles
        exact ⟨routine', rfl, unsets, performs routine routine' unsets⟩

/-- A routine of a cook, which calls one of a baker. -/
def Document.baking (cook baker : Setting) : Document where
  procedures := [
    ⟨0, "main", ["x"], none, [
      .execute 0 (.restriction 0 cook [
        .declaration 0 ⟨0, "bake", ["y"], none, [
          .execute 0 (.restriction 0 baker [
            .execute 0 (.application 0 "task" (.reference 0 ["y"]))])]⟩,
        .execute 0 (.application 0 "bake" (.reference 0 ["x"]))])]⟩]

/-- The settings are there, and whoever cooks and bakes, the same happens. -/
theorem Document.compile_regardless_baking : ∃ routine again,
    (baking (.role "cook") (.place "oven")).compile ⟨"", ""⟩ ["task"] = .ok routine ∧
    (baking .inherit (.role "baker")).compile ⟨"", ""⟩ ["task"] = .ok again ∧
    routine.sequence.map Entry.setting = [.role "cook"] ∧
    again.sequence.map Entry.setting = [.inherit] ∧
    again.unset = routine.unset ∧
    ∀ registry argument drain fuel,
      (again.perform? registry argument drain fuel).map (Except.map Report.heard) =
        (routine.perform? registry argument drain fuel).map (Except.map Report.heard) := by
  obtain ⟨runs, compiles⟩ := compile_regardless
  have compiled : ∃ routine,
      (baking (.role "cook") (.place "oven")).compile ⟨"", ""⟩ ["task"] = .ok routine ∧
        routine.sequence.map Entry.setting = [.role "cook"] := ⟨_, rfl, rfl⟩
  obtain ⟨routine, made, setting⟩ := compiled
  obtain ⟨_, success⟩ := compiles (baking (.role "cook") (.place "oven"))
    (baking .inherit (.role "baker")) rfl ⟨"", ""⟩ ["task"]
  obtain ⟨again, remade, unsets, _⟩ := success routine made
  have other : ((baking .inherit (.role "baker")).compile ⟨"", ""⟩ ["task"]).map
      (fun routine => List.map Entry.setting routine.sequence) = .ok [.inherit] := rfl
  rw [remade] at other
  exact ⟨routine, again, made, remade, setting, Except.ok.inj other, unsets,
    runs routine again unsets⟩

end Runbook
