import Runbook.Proofs.Evaluation.Sound
import Runbook.Proofs.Evaluation.Waits
import Mathlib.Data.List.TakeWhile

/-!
Runs in which tasks wait for each other in order do not get stuck.

A work that has not ended and cannot move waits for a task that has not ended, or for a moment.
Where the tasks that a task waits for are its own ones or earlier ones beside it, there is always a
task that waits for a moment if none can move.
-/
namespace Runbook

variable {machine : Machine} {footing : Footing machine} {world : World}

namespace Work

/-- A work that has ended without a value has failed. -/
theorem failed?_ne_none {work : Work} (ended : work.ended? ≠ none) (none : work.value? = none) :
    work.failed? ≠ Option.none := by
  cases work with
  | done outcome =>
      cases outcome with
      | ok value => cases none
      | error failure => nofun
  | broken defect => nofun
  | _ => exact absurd rfl ended

theorem mapM_value? {members : List Work} (all : ∀ member ∈ members, member.value? ≠ none) :
    members.mapM value? ≠ none := by
  induction members with
  | nil => nofun
  | cons member members ih =>
      rw [List.forall_mem_cons] at all
      obtain ⟨value, first⟩ := Option.ne_none_iff_exists'.mp all.1
      obtain ⟨values, rest⟩ := Option.ne_none_iff_exists'.mp (ih all.2)
      rw [List.mapM_cons, first, rest]
      nofun

theorem ended?_eq_none {work : Work} (value : ∀ value, work = .done (.ok value) → False)
    (failure : ∀ failure, work = .done (.error failure) → False)
    (defect : ∀ defect, work = .broken defect → False) : work.ended? = none := by
  cases work with
  | done outcome =>
      cases outcome with
      | ok result => exact (value result rfl).elim
      | error cause => exact (failure cause rfl).elim
  | broken cause => exact (defect cause rfl).elim
  | _ => rfl

/-- Works are gathered when all of them have ended. -/
theorem exists_going {members : List Work} (whole : spoiled? members = none)
    (uncollected : members.mapM value? = none) : ∃ member ∈ members, member.ended? = none := by
  by_contra ended
  push Not at ended
  obtain ⟨member, inside, none⟩ : ∃ member ∈ members, member.value? = none := by
    by_contra all
    push Not at all
    exact mapM_value? all uncollected
  rw [spoiled?] at whole
  split at whole
  · rw [List.findSome?_eq_none_iff] at whole
    exact failed?_ne_none (ended member inside) none (whole member inside)
  · split at whole
    · cases whole
    · -- the first work that has no value is the one that is looked at
      cases first : members.dropWhile (·.value?.isSome) with
      | nil =>
          have value := List.dropWhile_eq_nil_iff.mp first member inside
          rw [none] at value
          cases value
      | cons other rest =>
          have missing := List.head?_dropWhile_not (fun work => (value? work).isSome) members
          rw [first] at whole missing
          have among : other ∈ members :=
            (List.dropWhile_sublist _).subset (first ▸ List.mem_cons_self)
          have valueless : other.value?.isSome = false := missing
          rw [Option.isSome_eq_false_iff, Option.isNone_iff_eq_none] at valueless
          exact failed?_ne_none (ended other among) valueless whole

end Work

namespace Machine

theorem stepFirst?_eq_none {members : List Work} {context : List Work → Work}
    (still : stepFirst? machine world context members = none) :
    ∀ member ∈ members, step? machine world member = none := by
  induction members generalizing context with
  | nil => exact List.forall_mem_nil _
  | cons member members ih =>
      rw [stepFirst?] at still
      split at still
      · cases still
      · exact List.forall_mem_cons.mpr ⟨‹_›, ih still⟩

theorem step?_after {source : Work} (next : Continuation) (going : source.ended? = none) :
    step? machine world (.after source next) =
      (step? machine world source).map (·.within (.after · next)) := by
  conv_lhs => unfold step?
  split
  · cases going
  · cases going
  · cases going
  · rfl

theorem step?_body {current : Work} (frame : Frame) (index : Nat) (entries : List Entry)
    (going : current.ended? = none) :
    step? machine world (.body frame current index entries) =
      (step? machine world current).map (·.within (.body frame · index entries)) := by
  conv_lhs => unfold step?
  split
  · cases going
  · cases going
  · cases going
  · rfl

theorem step?_after_eq_none {source : Work} {next : Continuation}
    (still : step? machine world (.after source next) = none) :
    source.ended? = none ∧ step? machine world source = none := by
  unfold step? at still
  split at still
  · cases still
  · cases still
  · cases still
  · rename_i value failure defect
    exact ⟨Work.ended?_eq_none value failure defect, Option.map_eq_none_iff.mp still⟩

theorem step?_body_eq_none {frame : Frame} {current : Work} {index : Nat} {entries : List Entry}
    (still : step? machine world (.body frame current index entries) = none) :
    current.ended? = none ∧ step? machine world current = none := by
  unfold step? at still
  split at still
  · split at still <;> cases still
  · cases still
  · cases still
  · rename_i value failure defect
    exact ⟨Work.ended?_eq_none value failure defect, Option.map_eq_none_iff.mp still⟩

theorem step?_gather_eq_none {shape : Shape} {members : List Work}
    (still : step? machine world (.gather shape members) = none) :
    (∃ member ∈ members, member.ended? = none) ∧
      ∀ member ∈ members, step? machine world member = none := by
  rw [step?] at still
  split at still
  · cases still
  · cases still
  · rename_i whole uncollected
    exact ⟨Work.exists_going whole uncollected, stepFirst?_eq_none still⟩

theorem settle_eq_none {count : Nat} {bindings : List (TaskId × Nat)} {result : Value} {work : Work}
    (still : settle count bindings result work = none) : work.ended? = none := by
  refine Work.ended?_eq_none ?_ ?_ ?_
  · intro value same
    rw [same, settle] at still
    split at still <;> cases still
  · intro failure same
    rw [same] at still
    cases still
  · intro defect same
    rw [same] at still
    cases still

mutual

/-- A work that cannot move and has not ended waits. -/
theorem stuck : ∀ work : Work, step? machine world work = none → work.ended? = none →
    (∃ task ∈ work.awaits, world.tasks[task]?.bind Work.ended? = none) ∨ work.wakes ≠ []
  | .done _, _, going => nomatch going
  | .broken _, _, going => nomatch going
  | .fresh work, still, _ => by cases still
  | .wait task, still, _ => by
      rw [step?, Option.map_eq_none_iff] at still
      exact .inl ⟨task, List.mem_cons_self, still⟩
  | .race left right, still, _ => by
      rw [step?, Option.map_eq_none_iff, race] at still
      split at still
      · split at still <;> cases still
      · split at still <;> cases still
      · exact .inl ⟨left, List.mem_cons_self, ‹_›⟩
  | .sleep wake outcome, _, _ => .inr (List.cons_ne_nil _ _)
  | .after source next, still, _ => by
      obtain ⟨going, part⟩ := step?_after_eq_none still
      exact stuck source part going
  | .gather shape members, still, _ => by
      obtain ⟨going, parts⟩ := step?_gather_eq_none still
      exact stuckAll members parts going
  | .body frame current index entries, still, _ => by
      obtain ⟨going, part⟩ := step?_body_eq_none still
      exact stuck current part going
  | .settle [] result, still, _ => by
      rw [step?] at still
      cases still
  | .settle ((task, count) :: bindings) result, still, _ => by
      rw [step?, Option.map_eq_none_iff] at still
      refine .inl ⟨task, List.mem_cons_self, ?_⟩
      rw [Option.bind_eq_none_iff] at still ⊢
      exact fun work there => settle_eq_none (still work there)

theorem stuckAll : ∀ works : List Work, (∀ work ∈ works, step? machine world work = none) →
    (∃ work ∈ works, work.ended? = none) →
      (∃ task ∈ Work.awaitsOfAll works, world.tasks[task]?.bind Work.ended? = none) ∨
        Work.wakesOfAll works ≠ []
  | [], _, going => by
      obtain ⟨work, member, _⟩ := going
      cases member
  | work :: works, still, going => by
      rw [List.forall_mem_cons] at still
      rw [List.exists_mem_cons_iff] at going
      rw [Work.awaitsOfAll, Work.wakesOfAll, Ne, List.append_eq_nil_iff, not_and_or]
      rcases going with here | later
      · refine (stuck work still.1 here).imp (fun waits => ?_) .inl
        obtain ⟨task, mem, unfinished⟩ := waits
        exact ⟨task, List.mem_append_left _ mem, unfinished⟩
      · refine (stuckAll works still.2 later).imp (fun waits => ?_) .inr
        obtain ⟨task, mem, unfinished⟩ := waits
        exact ⟨task, List.mem_append_right _ mem, unfinished⟩

end

mutual

/-- A work whose moment has come moves. -/
theorem due {moment : Nat} (come : moment ≤ world.clock) : ∀ work : Work, moment ∈ work.wakes →
    step? machine world work ≠ none
  | .fresh work, _ => by
      rw [step?]
      exact Option.some_ne_none _
  | .sleep wake outcome, member => by
      obtain rfl := List.mem_singleton.mp member
      rw [step?, if_pos come]
      exact Option.some_ne_none _
  | .after source next, member => by
      intro still
      exact due come source member (step?_after_eq_none still).2
  | .gather shape members, member => by
      intro still
      exact dueAll come members member (step?_gather_eq_none still).2
  | .body frame current index entries, member => by
      intro still
      exact due come current member (step?_body_eq_none still).2

theorem dueAll {moment : Nat} (come : moment ≤ world.clock) : ∀ works : List Work,
    moment ∈ Work.wakesOfAll works → ¬∀ work ∈ works, step? machine world work = none
  | work :: works, member => by
      intro still
      rw [List.forall_mem_cons] at still
      rcases List.mem_append.mp member with here | later
      · exact due come work here still.1
      · exact dueAll come works later still.2

end

end Machine

mutual

theorem Work.sound_awaits {waits own : TaskId → Prop} : ∀ work : Work,
    work.Sound footing waits own → ∀ task ∈ work.awaits, waits task
  | .done _, _ | .broken _, _ | .sleep _ _, _ => nofun
  | .fresh work, sound => sound_awaits work sound
  | .wait _, sound => List.forall_mem_singleton.mpr sound
  | .race _ _, sound =>
      List.forall_mem_cons.mpr ⟨sound.2.1, List.forall_mem_singleton.mpr sound.2.2⟩
  | .after source _, sound => sound_awaits source sound.1
  | .gather _ members, sound => soundAll_awaits members sound
  | .body _ current _ _, sound => sound_awaits current sound.2.1
  | .settle _ _, sound => List.forall_mem_map.mpr sound

theorem Work.soundAll_awaits {waits own : TaskId → Prop} : ∀ works : List Work,
    soundAll footing waits own works → ∀ task ∈ awaitsOfAll works, waits task
  | [], _ => nofun
  | work :: works, sound =>
      List.forall_mem_append.mpr ⟨sound_awaits work sound.1, soundAll_awaits works sound.2⟩

end

theorem Work.mem_wakesOfAll {works : List Work} {moment : Nat} :
    moment ∈ wakesOfAll works ↔ ∃ work ∈ works, moment ∈ work.wakes := by
  induction works with
  | nil => exact iff_of_false nofun fun ⟨_, member, _⟩ => nomatch member
  | cons work works ih => rw [wakesOfAll, List.mem_append, ih, List.exists_mem_cons_iff]

namespace World

variable {next : World} {parent : Nat → Nat}

theorem not_awake (asleep : machine.awake world = []) (task : Nat) :
    machine.stepTask? world task = none := by
  by_contra moves
  have member := Machine.mem_awake.mpr (Option.isSome_iff_ne_none.mpr moves)
  rw [asleep] at member
  cases member

/-- A world stops when no task can move and none waits for a moment. -/
theorem step?_eq_none (still : world.step? machine = none) :
    machine.awake world = [] ∧ Work.wakesOfAll world.tasks = [] := by
  rw [step?] at still
  split at still
  · cases still
  · split at still
    · cases still
    · rename_i asleep
      rw [Option.map_eq_none_iff, wake?, List.min?_eq_none_iff] at still
      exact ⟨Machine.awake_eq_nil asleep, still⟩

/-- A task waits only for its own tasks, or for earlier ones beside it. -/
structure Ordered (world : World) (parent : Nat → Nat) : Prop where
  parents : ∀ task, parent task ≤ task
  awaits : ∀ (task : Nat) (work : Work), world.tasks[task]? = some work →
    ∀ other ∈ work.awaits, world.MayWait parent task other

/-- A world does not stop before all tasks have ended. -/
theorem Ordered.ended (ordered : world.Ordered parent) (still : world.step? machine = none)
    (task : Nat) (work : Work) (there : world.tasks[task]? = some work) : work.ended? ≠ none := by
  obtain ⟨asleep, moments⟩ := step?_eq_none still
  intro going
  have moves : Machine.step? machine world work = none := by
    have none := not_awake asleep task
    rwa [Machine.stepTask?, there] at none
  rcases Machine.stuck work moves going with waits | wakes
  · obtain ⟨other, mem, unfinished⟩ := waits
    have waiting := ordered.awaits task work there other mem
    have found := List.getElem?_eq_getElem waiting.lt
    rw [found] at unfinished
    exact ordered.ended still other _ found unfinished
  · obtain ⟨moment, rest, same⟩ := List.exists_cons_of_ne_nil wakes
    have member : moment ∈ Work.wakesOfAll world.tasks :=
      Work.mem_wakesOfAll.mpr ⟨work, List.mem_of_getElem? there, same ▸ List.mem_cons_self⟩
    rw [moments] at member
    cases member
termination_by (world.tasks.length - parent task, task)
decreasing_by
  have own := ordered.parents task
  have others := ordered.parents other
  rcases waiting with ⟨inside, owned⟩ | ⟨inside, before, beside⟩
  · exact Prod.Lex.left _ _ (by omega)
  · rw [beside]
    exact Prod.Lex.right _ before

/-- A world stops only when the run has its outcome. -/
theorem Ordered.outcome?_ne_none (ordered : world.Ordered parent) (begun : 0 < world.tasks.length)
    (still : world.step? machine = none) : world.outcome? ≠ none := by
  obtain ⟨first, others, same⟩ := List.exists_cons_of_length_pos begun
  have ended := ordered.ended still 0 first (by rw [same]; rfl)
  rw [outcome?, same]
  cases first with
  | done outcome => exact Option.some_ne_none _
  | broken defect => exact Option.some_ne_none _
  | _ => exact absurd rfl ended

/-- A run in which each step leaves less to be done comes to its outcome. -/
theorem toOutcome?_of_lighter {holds : Nat → World → Prop}
    (step : ∀ {weight : Nat} {world : World}, holds weight world → world.outcome? = none →
      ∃ next less, world.step? machine = some next ∧ less < weight ∧ holds less next)
    {weight : Nat} (start : holds weight world) :
    ∃ fuel outcome last, world.toOutcome? machine fuel = some (outcome, last) ∧
      ∃ left, holds left last := by
  induction weight using Nat.strong_induction_on generalizing world with
  | _ weight ih =>
      cases ends : world.outcome? with
      | some outcome =>
          refine ⟨1, outcome, world, ?_, weight, start⟩
          rw [toOutcome?, ends]
      | none =>
          obtain ⟨next, less, stepped, below, kept⟩ := step start ends
          obtain ⟨fuel, outcome, last, found, rest⟩ := ih less below kept
          refine ⟨fuel + 1, outcome, last, ?_, rest⟩
          rw [toOutcome?, ends, stepped]
          exact found

theorem Sound.ordered (sound : world.Sound footing parent) : world.Ordered parent where
  parents := sound.parents
  awaits task work there := Work.sound_awaits work (sound.works task work there)

/-- After the clock has moved, a task can. -/
theorem awake_after_tick (wakes : world.wake? = some next.clock) (same : next.tasks = world.tasks) :
    machine.awake next ≠ [] := by
  intro asleep
  obtain ⟨work, inside, moment⟩ := Work.mem_wakesOfAll.mp (List.min?_mem wakes)
  obtain ⟨task, there⟩ := List.mem_iff_getElem?.mp inside
  have still := not_awake asleep task
  rw [Machine.stepTask?, same, there] at still
  exact Machine.due (Nat.le_refl _) work moment still

end World

end Runbook
