import Runbook.Proofs.Evaluation.Tandem

/-!
Runs that begin later.

Nothing that a run does depends on the moment in which it begins: one that begins later does the
same later.
-/
namespace Runbook

/-- The works of all tasks are those of a run that began that much later. -/
def Ties.delayed (late : Nat) : Ties := fun _ one two => two = one.translate (.delaying late)

section
variable {machine : Machine} {told : List Logged} {late : Nat} {world other : World}

/-- A work that has ended is the same in a run that began later. -/
theorem Work.ended?_delayed (work : Work) :
    (work.translate (.delaying late)).ended? = work.ended? := by
  cases work with
  | broken defect => exact congrArg (some ∘ Work.broken) defect.renumber_identity
  | _ => rfl

/-- Every task moves in the same way in a run that began later. -/
theorem World.Tied.step?_delayed {task : TaskId} {one two : Work}
    (tied : World.Tied (.delayed late) told late world other)
    (same : two = one.translate (.delaying late)) :
    Option.Rel (Change.Tied (.delayed late) task world.tasks.length) (machine.step? world one)
      (machine.step? other two) := by
  have ends (task : TaskId) : other.tasks[task]?.bind Work.ended? =
      (world.tasks[task]?.bind Work.ended?).map (Work.translate (.delaying late)) := by
    have tied := tied.tasks task
    generalize world.tasks[task]? = one at tied ⊢
    generalize other.tasks[task]? = two at tied ⊢
    cases tied with
    | none => rfl
    | some same => exact same ▸ Work.ended?_translate _ _
  rw [same, Machine.step?_translate (machine.translates_delaying late)
    ⟨tied.clock, tied.tasks.length_eq, ends⟩ one]
  cases machine.step? world one with
  | none => exact .none
  | some change =>
      refine .some ⟨rfl, fun index => ?_, told_translate _ change.events, rfl⟩
      rw [Change.translate, List.getElem?_map]
      cases change.started[index]? with
      | none => exact .none
      | some work => exact .some rfl

theorem Ties.delayed_lawful (machine : Machine) (told : List Logged) (late : Nat) :
    (Ties.delayed late).Lawful machine machine told late where
  ended? same := same ▸ Work.ended?_delayed _
  wakes same := same ▸ Work.wakes_translate _ _
  meet same := same ▸ Work.meet_translate _ _
  beside tied _ _ same := tied.step?_delayed same

/-- A run that begins later is the same later. -/
theorem Tandem.delayed (machine : Machine) (told : List Logged) (late : Nat) :
    Tandem machine machine told late fun world other =>
      True ∧ World.Tied (.delayed late) told late world other :=
  (Ties.delayed_lawful machine told late).tandem (fun _ _ => trivial)
    fun _ tied _ same => tied.step?_delayed same

end

end Runbook
