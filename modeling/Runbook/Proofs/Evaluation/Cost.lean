import Runbook.Proofs.Evaluation.Sequential
import Runbook.Proofs.Evaluation.Sound

/-!
How many moves works are good for.

A call costs what its level and its callee say, which is no less than the routine costs at the level
inside. Where levels end there are such prices. A step costs at least what is made of it when it is
set up, and that is all that a run can ever do for it.
-/
namespace Runbook

mutual

/-- What a step costs, where calls have those prices. -/
def Step.cost (price : Callee → Nat) : Step → Nat
  | .literal literal => literal.cost price
  | .bind _ step => step.cost price + 3
  | .call callee argument => argument.cost price + price callee + 1
  | .invoke _ argument => argument.cost price + 6
  | .tuple steps => stepsCost price steps + 1
  | .read _ => 2

def Literal.cost (price : Callee → Nat) : Literal → Nat
  | .tablet fields => fieldsCost price fields + 1
  | _ => 0

def stepsCost (price : Callee → Nat) : List Step → Nat
  | [] => 0
  | step :: steps => step.cost price + stepsCost price steps

def fieldsCost (price : Callee → Nat) : List (Label × Step) → Nat
  | [] => 0
  | (_, step) :: fields => step.cost price + fieldsCost price fields

end

def entriesCost (price : Callee → Nat) (entries : List Entry) : Nat :=
  stepsCost price (entries.map Entry.step) + entries.length

def Routine.cost (price : Callee → Nat) (routine : Routine) : Nat :=
  routine.parameters.length + 2 + entriesCost price routine.sequence

theorem fieldsCost_eq (price : Callee → Nat) (fields : List (Label × Step)) :
    fieldsCost price fields = stepsCost price (fields.map Prod.snd) := by
  induction fields with
  | nil => rfl
  | cons field fields ih => simp only [fieldsCost, List.map_cons, stepsCost, ih]

/-- What the routines of a library cost together. -/
def Library.cost (price : Callee → Nat) : Library → Nat
  | [] => 0
  | (_, routine) :: library => routine.cost price + cost price library

/-- The price of a call in which calls are nested at most so deep: that of all routines. -/
def Library.price (library : Library) : Nat → Nat
  | 0 => 0
  | depth + 1 => library.cost fun _ => library.price depth

theorem Library.cost_le {library : Library} {callee : Callee} {routine : Routine}
    (found : library.get? callee = some routine) (price : Callee → Nat) :
    routine.cost price ≤ library.cost price := by
  induction library with
  | nil => cases found
  | cons entry library ih =>
      obtain ⟨other, kept⟩ := entry
      rw [cost]
      rw [get?] at found
      split at found
      · obtain rfl := Option.some.inj found
        exact Nat.le_add_right _ _
      · exact Nat.le_add_left_of_le (ih found)

variable {host : Host} {depths : Depths host} (price : depths.Level → Callee → Nat)

/-- A call costs as much as the routine that it can enter. -/
def Depths.Prices (depths : Depths host) (price : depths.Level → Callee → Nat) : Prop :=
  ∀ level inner callee routine, depths.inside level = some inner →
    host.library.get? callee = some routine → routine.cost (price inner) ≤ price level callee

/-- What is done with a value costs so much. -/
def Continuation.cost (level : depths.Level) : Continuation → Nat
  | .pick _ _ => 0
  | .call callee => price level callee
  | .invoke _ | .join _ => 1

theorem Depths.limited_prices (host : Host) :
    (Depths.limited host).Prices fun depth _ => host.library.price depth := by
  intro level inner callee routine inside found
  cases level with
  | zero => cases inside
  | succ depth =>
      obtain rfl := Option.some.inj inside
      exact Library.cost_le found _

mutual

/-- The number of moves that a work and the tasks that it starts are good for. -/
def Work.cost (level : depths.Level) : Work → Nat
  | .done _ | .broken _ => 0
  | .fresh work => work.cost level + 1
  | .wait _ | .race _ _ | .sleep _ _ => 1
  | .after source next => source.cost level + next.cost price level + 1
  | .gather _ members => costAll level members + 1
  | .body frame current _ entries => frame.bindings.length + 2 +
    match depths.inside level with
    | some inner => current.cost inner + entriesCost (price inner) entries
    | none => 0
  | .settle bindings _ => bindings.length + 1

def Work.costAll (level : depths.Level) : List Work → Nat
  | [] => 0
  | work :: works => work.cost level + costAll level works

end

variable {price} {machine : Machine} {level : depths.Level}

theorem Work.costAll_append (first rest : List Work) :
    costAll price level (first ++ rest) = costAll price level first + costAll price level rest := by
  induction first with
  | nil => rw [List.nil_append, costAll, Nat.zero_add]
  | cons work works ih => rw [List.cons_append, costAll, costAll, ih, Nat.add_assoc]

theorem Work.cost_fresh (work : Work) :
    (Work.fresh work).cost price level = work.cost price level + 1 := by
  rw [cost]

theorem Work.cost_body {inner : depths.Level} (inside : depths.inside level = some inner)
    (frame : Frame) (current : Work) (index : Nat) (entries : List Entry) :
    (Work.body frame current index entries).cost price level =
      frame.bindings.length + 2 +
        (current.cost price inner + entriesCost (price inner) entries) := by
  rw [cost, inside]

theorem Frame.length_observe (frame : Frame) (name : Name) :
    (frame.observe name).bindings.length = frame.bindings.length := by
  have same := congrArg List.length (frame.observe_map name).1
  rwa [List.length_map, List.length_map] at same

theorem Frame.length_add (frame : Frame) (binding : Binding) :
    (frame.add binding).bindings.length = frame.bindings.length + 1 := List.length_append

theorem Operator.await_cost (operator : Operator) (left right : TaskId) :
    (operator.await left right).cost price level ≤ 3 := by
  cases operator <;> simp [await, Work.cost, Work.costAll]

/-- Steps cost at least what they are set up to. -/
theorem SetsUp.cost_le {registry : Registry} {frame after : Frame} {next : TaskId}
    {steps : List Step} {works started : List Work}
    (sets : SetsUp registry frame next steps works started after) :
    Work.costAll price level works + Work.costAll price level started + after.bindings.length ≤
      stepsCost (price level) steps + frame.bindings.length := by
  induction sets with
  | nil => simp [Work.costAll, stepsCost]
  | cons _ _ first rest =>
      simp only [Work.costAll, Work.costAll_append, stepsCost] at first rest ⊢
      omega
  | @constant _ _ literal value constant => simp [Work.costAll, Work.cost]
  | tablet _ ih =>
      simp only [Work.costAll, Work.cost, stepsCost, Step.cost, Literal.cost, fieldsCost_eq] at ih ⊢
      omega
  | bind _ ih =>
      simp only [Work.costAll, Work.costAll_append, Work.cost, stepsCost, Step.cost,
        Frame.length_add] at ih ⊢
      omega
  | call _ ih =>
      simp only [Work.costAll, Work.cost, Continuation.cost, stepsCost, Step.cost] at ih ⊢
      omega
  | invoke _ _ ih =>
      simp only [Work.costAll, Work.cost, Continuation.cost, stepsCost, Step.cost] at ih ⊢
      omega
  | @operands _ next _ _ _ _ operator _ _ started others _ _ _ _ _ _ first second =>
      have awaits := @Operator.await_cost _ _ price level operator (next + started.length)
        (next + started.length + 1 + others.length)
      simp only [Work.costAll, Work.costAll_append, Work.cost, Continuation.cost, stepsCost,
        Step.cost] at first second ⊢
      omega
  | tuple _ ih =>
      simp only [Work.costAll, Work.cost, stepsCost, Step.cost] at ih ⊢
      omega
  | parameter _ => simp [Work.costAll, Work.cost]
  | read _ =>
      simp [Work.costAll, Work.cost, Continuation.cost, stepsCost, Step.cost, Frame.length_observe]

theorem SetsUpEntry.cost_le {registry : Registry} {frame after : Frame} {next : TaskId}
    {isLast : Bool} {step : Step} {work : Work} {started : List Work}
    (sets : SetsUpEntry registry frame next isLast step work started after) :
    work.cost price level + Work.costAll price level started + after.bindings.length ≤
      stepsCost (price level) [step] + frame.bindings.length := by
  cases sets with
  | bind sets =>
      have le := @SetsUp.cost_le _ _ price level _ _ _ _ _ _ _ sets
      simp only [Work.costAll, Work.costAll_append, stepsCost, Step.cost, Work.cost_fresh,
        Frame.length_add] at le ⊢
      cases isLast with
      | true => simp only [if_true, Work.cost]; omega
      | false => simp only [Bool.false_eq_true, if_false, Work.cost]; omega
  | other _ sets => exact sets.cost_le

/-- The number of moves that tasks are good for which are numbered from there on. -/
def Work.costFrom (price : depths.Level → Callee → Nat) (levels : TaskId → depths.Level)
    (next : Nat) : List Work → Nat
  | [] => 0
  | work :: works => work.cost price (levels next) + costFrom price levels (next + 1) works

namespace Work

variable {levels others : TaskId → depths.Level}

theorem costFrom_append (next : Nat) (first rest : List Work) :
    costFrom price levels next (first ++ rest) =
      costFrom price levels next first + costFrom price levels (next + first.length) rest := by
  induction first generalizing next with
  | nil => rw [List.nil_append, costFrom, Nat.zero_add, List.length_nil, Nat.add_zero]
  | cons work works ih =>
      have count : next + 1 + works.length = next + (works.length + 1) := by omega
      rw [List.cons_append, costFrom, costFrom, ih, List.length_cons, count, Nat.add_assoc]

theorem costFrom_congr {next : Nat} {works : List Work}
    (same : ∀ task < next + works.length, levels task = others task) :
    costFrom price levels next works = costFrom price others next works := by
  induction works generalizing next with
  | nil => rfl
  | cons work works ih =>
      rw [List.length_cons] at same
      rw [costFrom, costFrom, same next (by omega), ih fun task below => same task (by omega)]

theorem costFrom_eq {next : Nat} {works : List Work} (same : ∀ task ≥ next, levels task = level) :
    costFrom price levels next works = costAll price level works := by
  induction works generalizing next with
  | nil => rfl
  | cons work works ih =>
      rw [costFrom, costAll, same next (Nat.le_refl _), ih fun task above => same task (by omega)]

theorem costFrom_set {next index : Nat} {works : List Work} {work other : Work}
    (there : works[index]? = some work) :
    costFrom price levels next (works.set index other) + work.cost price (levels (next + index)) =
      costFrom price levels next works + other.cost price (levels (next + index)) := by
  induction works generalizing next index with
  | nil => cases there
  | cons first works ih =>
      cases index with
      | zero =>
          obtain rfl := Option.some.inj there
          rw [List.set_cons_zero, costFrom, costFrom]
          simp only [Nat.add_zero]
          omega
      | succ index =>
          have later := @ih (next + 1) index there
          rw [List.set_cons_succ, costFrom, costFrom]
          rw [Nat.add_right_comm, Nat.add_assoc next] at later
          omega

end Work

end Runbook
