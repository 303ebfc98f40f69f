import Runbook.Proofs.Evaluation.Moments
import Runbook.Proofs.Evaluation.Order

/-!
Where failures come from.

A run fails with what a primitive of its registry has answered, or because some value does not have a
part for each name. So it never fails because a task has been given up: none is.
-/
namespace Runbook

/-- The failures that a run can come to. -/
inductive Registry.May (registry : Registry) : Failure → Prop
  | answered {primitive : Primitive} {value : Value} {failure : Failure} :
      primitive ∈ registry.primitives → (primitive.action value).outcome = .error failure →
      May registry failure
  | arity (expected found : Nat) : May registry (.arity expected found)

/-- The outcome is a value, or a failure that a run can come to. -/
def Registry.Yields (registry : Registry) (outcome : Outcome) : Prop :=
  ∀ failure, outcome = .error failure → registry.May failure

def Continuation.Known (registry : Registry) : Continuation → Prop
  | .invoke primitive | .join primitive => primitive ∈ registry.primitives
  | _ => True

/-- Wherever an outcome stands in the work, or a primitive, it is of the registry. -/
inductive Work.Known (registry : Registry) : Work → Prop
  | done {outcome : Outcome} : registry.Yields outcome → Known registry (.done outcome)
  | broken (defect : Defect) : Known registry (.broken defect)
  | fresh {work : Work} : Known registry work → Known registry (.fresh work)
  | wait (task : TaskId) : Known registry (.wait task)
  | race (left right : TaskId) : Known registry (.race left right)
  | sleep {moment : Nat} {outcome : Outcome} : registry.Yields outcome →
      Known registry (.sleep moment outcome)
  | after {source : Work} {next : Continuation} : Known registry source → next.Known registry →
      Known registry (.after source next)
  | gather {shape : Shape} {members : List Work} : (∀ member ∈ members, Known registry member) →
      Known registry (.gather shape members)
  | body {frame : Frame} {current : Work} {index : Nat} {entries : List Entry} :
      Known registry current → Known registry (.body frame current index entries)
  | settle (bindings : List (TaskId × Nat)) (result : Value) :
      Known registry (.settle bindings result)

variable {registry : Registry}

theorem Registry.yields_ok (registry : Registry) (value : Value) : registry.Yields (.ok value) := by
  intro failure same
  cases same

theorem Registry.May.yields {failure : Failure} (may : registry.May failure) :
    registry.Yields (.error failure) := by
  intro other same
  cases same
  exact may

/-- A value that does not have a part for each name. -/
theorem Value.split_may (registry : Registry) {value : Value} {count : Nat} {failure : Failure}
    (fails : value.split count = .error failure) : registry.May failure := by
  unfold split at fails
  split at fails
  · cases fails
  · split at fails
    · split at fails
      · cases fails
      · cases fails
        exact .arity _ _
    · split at fails
      · cases fails
      · cases fails
        exact .arity _ _
    · cases fails
      exact .arity _ _

theorem Work.Known.meet {work : Work} (known : work.Known registry) : work.meet.Known registry := by
  cases known with
  | broken defect => exact .broken .met
  | done yields => exact .done yields
  | fresh inner => exact .fresh inner
  | wait task => exact .wait task
  | race left right => exact .race left right
  | sleep yields => exact .sleep yields
  | after source next => exact .after source next
  | gather members => exact .gather members
  | body current => exact .body current
  | settle bindings result => exact .settle bindings result

theorem Work.Known.after_applied {source : Work} {use : Continuation}
    (known : source.Known registry) (applies : use.Applies registry) :
    (Work.after source use).Known registry := by
  refine .after known ?_
  cases use with
  | pick names place => exact applies.elim
  | call callee => trivial
  | invoke primitive => exact applies
  | join primitive => exact applies

/-- Works that are set up are known, and so are those that are started with them. -/
def SetUp.Upkeep.knowing (registry : Registry) : Upkeep registry where
  holds state := ∀ work ∈ state.started, work.Known registry
  grows _ _ := True
  fits _ := Work.Known registry
  known _ _ := True
  refl _ := trivial
  trans _ _ := trivial
  fits_later _ fits := fits
  known_later _ _ := trivial
  report _ known := ⟨known, trivial⟩
  start known fits := ⟨List.forall_mem_append.mpr
    ⟨known, List.forall_mem_singleton.mpr (.fresh fits)⟩, trivial, trivial⟩
  register _ _ _ known fits := ⟨List.forall_mem_append.mpr
    ⟨known, List.forall_mem_singleton.mpr (.fresh fits)⟩, trivial, trivial⟩
  read known _ := ⟨known, trivial, .after (.wait _) trivial⟩
  done _ value := .done (registry.yields_ok value)
  wait _ := .wait _
  after := .after_applied
  gather _ _ := .gather
  await operator left right _ _ := by
    cases operator with
    | waitEither => exact .race left right
    | _ =>
        refine .gather (List.forall_mem_cons.mpr ⟨.wait left, ?_⟩)
        exact List.forall_mem_singleton.mpr (.wait right)

/-- The work of a change, and those that it starts. -/
def Change.Known (registry : Registry) (change : Change) : Prop :=
  change.work.Known registry ∧ ∀ work ∈ change.started, work.Known registry

theorem Change.Known.become {work : Work} (known : work.Known registry) :
    (Change.become work).Known registry := ⟨known, List.forall_mem_nil _⟩

theorem enter_known (registry : Registry) (routine : Routine) (argument : Value) :
    (enter routine argument).Known registry := by
  rw [enter]
  split
  · exact .become (.body (.done (registry.yields_ok _)))
  · split
    · exact .become (.body (.done (registry.yields_ok _)))
    · exact .become (.done (Value.split_may _ ‹_›).yields)

theorem Machine.goOn_known {machine : Machine} {clock : Nat} {value : Value} {next : Continuation}
    (known : next.Known machine.registry) :
    (machine.goOn clock value next).Known machine.registry := by
  have performs {primitive : Primitive} {events : List Event}
      (inside : primitive ∈ machine.registry.primitives) :
      (Machine.goOn.perform clock value primitive events).Known machine.registry := by
    have yields : machine.registry.Yields (primitive.action value).outcome :=
      fun failure same => .answered inside same
    refine ⟨?_, List.forall_mem_nil _⟩
    simp only [Machine.goOn.perform]
    split
    · exact .done yields
    · exact .sleep yields
  cases next with
  | pick names place =>
      rw [Machine.goOn]
      split
      · exact .become (.done (Registry.yields_ok _ _))
      · exact .become (.done (Value.split_may _ ‹_›).yields)
  | call callee =>
      rw [Machine.goOn]
      split
      · exact enter_known _ _ _
      · exact .become (.broken _)
  | invoke primitive => exact performs known
  | join primitive => exact performs known

theorem Work.eq_of_failed? {work failed : Work} (fails : work.failed? = some failed) :
    failed = work := by
  cases work with
  | done outcome =>
      cases outcome with
      | ok value => cases fails
      | error failure => exact (Option.some.inj fails).symm
  | broken defect => exact (Option.some.inj fails).symm
  | _ => cases fails

/-- Each work of the world is known. -/
def World.Known (registry : Registry) (world : World) : Prop :=
  ∀ (task : TaskId) (work : Work), world.tasks[task]? = some work → work.Known registry

/-- What has ended, or has won a race, has an outcome that is known. -/
theorem World.Known.race {world : World} (known : world.Known registry) {left right : TaskId}
    {winner : Work} (won : Machine.race world.tasks[left]? world.tasks[right]? = some winner) :
    winner.Known registry := by
  have first {task : TaskId} {ended : Work}
      (found : world.tasks[task]?.bind Work.ended? = some ended) : ended.Known registry := by
    obtain ⟨work, there, ends⟩ := Option.bind_eq_some_iff.mp found
    rw [Machine.ended?_eq ends]
    exact known task work there
  obtain ⟨ended, found, ⟨value, rfl, rfl⟩ | ⟨_, rfl⟩⟩ := Machine.race_cases won
  · exact .done (registry.yields_ok _)
  · exact found.elim first first

/-- A binding that is settled fails as its task has, or because it does not have a part for each of
its names. -/
theorem Machine.settle_known {count : Nat} {bindings : List (TaskId × Nat)} {result : Value}
    {other : Work} {change : Change} (known : other.Known registry)
    (settles : Machine.settle count bindings result other = some change) :
    change.Known registry := by
  cases known with
  | @done outcome yields =>
      cases outcome with
      | ok value =>
          rw [Machine.settle] at settles
          split at settles
          · cases settles
            exact .become (.settle bindings result)
          · cases settles
            exact .become (.done (Value.split_may registry ‹_›).yields)
      | error failure =>
          cases settles
          exact .become (.done yields)
  | broken defect =>
      cases settles
      exact .become (.broken defect)
  | _ => cases settles

/-- Moves keep works known. -/
theorem Moves.known {machine : Machine} {world : World} {work : Work} {change : Change}
    (moves : Moves machine world work change) (others : world.Known machine.registry)
    (known : work.Known machine.registry) : change.Known machine.registry := by
  induction moves with
  | fresh =>
      cases known with
      | fresh inner => exact .become inner
  | wait there _ => exact .become (others _ _ there)
  | race won => exact .become (others.race won)
  | wake _ =>
      cases known with
      | sleep yields => exact .become (.done yields)
  | goOn =>
      cases known with
      | after _ next => exact Machine.goOn_known next
  | fail =>
      cases known with
      | after source _ => exact .become source
  | breaks => exact .become (.broken _)
  | source _ ih =>
      cases known with
      | after source next =>
          obtain ⟨inner, started⟩ := ih source
          exact ⟨.after inner next, started⟩
  | spoil spoiled =>
      cases known with
      | gather members =>
          obtain ⟨member, inside, fails⟩ := Moves.spoiled_mem spoiled
          rw [Work.eq_of_failed? fails]
          exact .become (members member inside)
  | collect _ => exact .become (.done (Registry.yields_ok _ _))
  | @member shape before member after change _ ih =>
      cases known with
      | gather members =>
          obtain ⟨before, rest⟩ := List.forall_mem_append.mp members
          obtain ⟨member, after⟩ := List.forall_mem_cons.mp rest
          obtain ⟨inner, started⟩ := ih member
          refine ⟨.gather ?_, started⟩
          exact List.forall_mem_append.mpr ⟨before, List.forall_mem_cons.mpr ⟨inner, after⟩⟩
  | last => exact .become (.settle _ _)
  | @begin frame value index entry entries =>
      let keeping := SetUp.Upkeep.knowing machine.registry
      have vacant : keeping.holds ⟨frame, world.tasks.length, [], []⟩ := List.forall_mem_nil _
      obtain ⟨result, state, run, started, _, fits⟩ :=
        SetUp.setUpEntry_keeps keeping index entries.isEmpty entry vacant
      rw [Machine.begin, run]
      cases result with
      | error defect => exact ⟨.broken _, started⟩
      | ok work => exact ⟨.body (fits work rfl), started⟩
  | bodyFails =>
      cases known with
      | body current => exact .become current
  | bodyBreaks => exact .become (.broken _)
  | current _ ih =>
      cases known with
      | body current =>
          obtain ⟨inner, started⟩ := ih current
          exact ⟨.body inner, started⟩
  | settled => exact .become (.done (Registry.yields_ok _ _))
  | settle there settles =>
      have settled := Machine.settle_known (others _ _ there) settles
      exact ⟨settled.1, settled.2⟩

/-- In a run each work is known. -/
theorem Routine.known {routine : Routine} {registry : Registry} {argument : Value} {world : World}
    (reaches : (World.start routine argument).Reaches ⟨registry, routine.library⟩ world) :
    world.Known registry :=
  reaches.works (enter_known registry routine argument).1 (fun _ known => known.meet)
    fun _ others there moves => moves.known others (others _ _ there)

/-- A run comes to no failure but those of the primitives of its registry, or of values that do not
have a part for each name. -/
theorem Routine.outcome_yields {routine : Routine} {registry : Registry} {argument : Value}
    {drain fuel : Nat} {report : Report}
    (reports : routine.perform? registry argument drain fuel = some (.ok report)) :
    registry.Yields report.outcome := by
  obtain ⟨outcome, first, found, rfl⟩ := perform?_eq_ok.mp reports
  obtain ⟨reaches, ends⟩ := World.toOutcome?_reaches found
  have known := Routine.known reaches 0 _ (World.outcome?_eq_ok.mp ends)
  cases known with
  | done yields => exact yields

end Runbook
