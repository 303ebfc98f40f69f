import Runbook.Proofs.Evaluation.Translated
import Runbook.Proofs.Lowering.Reordering

/-!
Runs under other numbers.

A routine with other numbers is performed as the routine is, which nothing but the traces shows. So
the order in which a document declares its procedures does not matter.
-/
namespace Runbook

/-- The report of a run that is not traced. -/
def Report.heard (report : Report) : Report :=
  ⟨report.outcome, report.elapsed, Runbook.heard report.log⟩

/-- What an untraced run shows: its report, or `none` that it breaks down. -/
def Routine.heard? (routine : Routine) (registry : Registry) (argument : Value)
    (drain fuel : Nat) : Option (Option Report) :=
  (routine.perform? registry argument drain fuel).map fun result => result.toOption.map Report.heard

theorem heard_translate {t : Translation} (prompt : t.late = 0) (log : List Logged) :
    heard (log.map (Logged.translate t)) = heard log := by
  induction log with
  | nil => rfl
  | cons logged log ih =>
      obtain ⟨ms, event⟩ := logged
      cases event with
      | said channel value =>
          have same : Logged.translate t ⟨ms, .said channel value⟩ = ⟨ms, .said channel value⟩ :=
            congrArg (Logged.mk · _) (by rw [prompt, Nat.add_zero])
          rw [List.map_cons, same]
          exact congrArg (⟨ms, .said channel value⟩ :: ·) ih
      | _ => exact ih

/-- A report that is translated is heard to tell the same. -/
theorem Report.heard_translate {t : Translation} (prompt : t.late = 0) (report : Report) :
    (report.translate t).heard = report.heard := by
  rw [heard, heard, translate, Runbook.heard_translate prompt, prompt, Nat.add_zero]

/-- Other numbers are not heard. -/
theorem Routine.Renumbers.heard? {numbers : Renumbering} {routine other : Routine}
    (renumbers : routine.Renumbers numbers other) (registry : Registry) (argument : Value)
    (drain fuel : Nat) :
    other.heard? registry argument drain fuel = routine.heard? registry argument drain fuel := by
  let t : Translation := .renumbering numbers renumbers.injective
  have performs := perform?_translate (rfl : t.late = 0) renumbers.script registry
    ⟨rfl, renumbers.library⟩ argument drain fuel
  rw [Routine.heard?, Routine.heard?, performs, Option.map_map]
  congr 1
  funext result
  cases result with
  | error defect => rfl
  | ok report => exact congrArg some (report.heard_translate (rfl : t.late = 0))

/-- A document that compiles does so in each order of its procedures after the first, and of those
that its blocks declare; and it is performed alike, whatever the host does. -/
theorem Document.compile_reordered {document other : Document} (reorders : document.Reorders other)
    {source elsewhere : Source} {primitives : List Identifier} {routine : Routine}
    (compiled : document.compile source primitives = .ok routine) :
    ∃ again, other.compile elsewhere primitives = .ok again ∧
      ∀ registry argument drain fuel, again.heard? registry argument drain fuel =
        routine.heard? registry argument drain fuel := by
  obtain ⟨numbers, again, made, renumbers⟩ :=
    @Lowering.document_reorders ⟨source.contents.toList, primitives⟩
      ⟨elsewhere.contents.toList, primitives⟩ document other routine rfl reorders
      (compile_eq_ok.mp compiled)
  exact ⟨again, compile_eq_ok.mpr made, renumbers.heard?⟩

/-- Procedures that call each other, in a file and in a block of it. -/
def Document.washing : Document where
  procedures := [
    ⟨0, "main", ["x"], none, [
      .execute 0 (.restriction 0 (.role "cook") [
        .declaration 0 ⟨0, "boil", ["y"], none, [
          .execute 0 (.application 0 "stir" (.reference 0 ["y"]))]⟩,
        .execute 0 (.application 0 "boil" (.reference 0 ["x"])),
        .declaration 0 ⟨0, "stir", ["z"], none, [
          .execute 0 (.application 0 "wash" (.reference 0 ["z"]))]⟩])]⟩,
    ⟨0, "wash", ["a"], none, [.execute 0 (.application 0 "dry" (.reference 0 ["a"]))]⟩,
    ⟨0, "dry", ["b"], none, [.execute 0 (.application 0 "task" (.reference 0 ["b"]))]⟩]

/-- The same procedures in other orders. -/
def Document.drying : Document where
  procedures := [
    ⟨0, "main", ["x"], none, [
      .execute 0 (.restriction 0 (.role "cook") [
        .declaration 0 ⟨0, "stir", ["z"], none, [
          .execute 0 (.application 0 "wash" (.reference 0 ["z"]))]⟩,
        .execute 0 (.application 0 "boil" (.reference 0 ["x"])),
        .declaration 0 ⟨0, "boil", ["y"], none, [
          .execute 0 (.application 0 "stir" (.reference 0 ["y"]))]⟩])]⟩,
    ⟨0, "dry", ["b"], none, [.execute 0 (.application 0 "task" (.reference 0 ["b"]))]⟩,
    ⟨0, "wash", ["a"], none, [.execute 0 (.application 0 "dry" (.reference 0 ["a"]))]⟩]

theorem Document.washing_reorders : washing.Reorders drying :=
  have applied : StatementsReorder [_] [_] := .execute (.application .reference) .nil
  .intro (.intro (.execute (.restriction applied .swap) .nil) .nil) .swap

theorem Document.compile_reordered_washing : ∃ routine again,
    washing.compile ⟨"", ""⟩ ["task"] = .ok routine ∧
    drying.compile ⟨"", ""⟩ ["task"] = .ok again ∧
    (routine.library.map fun entry => (entry.1, entry.2.procedure.name)) =
      [(0, "main"), (1, "wash"), (2, "dry"), (3, "boil"), (4, "stir")] ∧
    (again.library.map fun entry => (entry.1, entry.2.procedure.name)) =
      [(0, "main"), (1, "dry"), (2, "wash"), (3, "stir"), (4, "boil")] ∧
    ∀ registry argument drain fuel,
      again.heard? registry argument drain fuel = routine.heard? registry argument drain fuel := by
  have first : (washing.compile ⟨"", ""⟩ ["task"]).toOption.map (fun routine =>
      routine.library.map fun entry => (entry.1, entry.2.procedure.name)) =
      some [(0, "main"), (1, "wash"), (2, "dry"), (3, "boil"), (4, "stir")] := by decide +kernel
  have second : (drying.compile ⟨"", ""⟩ ["task"]).toOption.map (fun routine =>
      routine.library.map fun entry => (entry.1, entry.2.procedure.name)) =
      some [(0, "main"), (1, "dry"), (2, "wash"), (3, "stir"), (4, "boil")] := by decide +kernel
  cases compiled : washing.compile ⟨"", ""⟩ ["task"] with
  | error diagnostic =>
      rw [compiled] at first
      cases first
  | ok routine =>
      obtain ⟨again, made, heard⟩ :=
        @compile_reordered _ _ washing_reorders _ ⟨"", ""⟩ _ _ compiled
      rw [compiled] at first
      rw [made] at second
      exact ⟨routine, again, rfl, made, Option.some.inj first, Option.some.inj second, heard⟩

end Runbook
