import Runbook.Proofs.Evaluation.Operands

/-!
What a run makes of the outcomes that it waits for.

A run that only waits has come to one of few works, in each of which it has no outcome that the tasks
it waits for do not give. When no task can move, it has taken what there is: it has its outcome, or
what it still waits for has none.
-/
namespace Runbook

namespace World

variable {machine : Machine} {world next : World} {task : TaskId}

def Has (world : World) (task : TaskId) (outcome : Outcome) : Prop :=
  world.tasks[task]? = some (.done outcome)

def Breaks (world : World) (task : TaskId) : Prop :=
  ∃ defect, world.tasks[task]? = some (.broken defect)

theorem Goes.breaks (goes : world.Goes machine next) (breaks : world.Breaks task) :
    next.Breaks task := by
  obtain ⟨defect, there⟩ := breaks
  rcases goes.ended there rfl with same | met
  · exact ⟨defect, same⟩
  · exact ⟨.met, met⟩

theorem Has.not_breaks {outcome : Outcome} (has : world.Has task outcome) : ¬world.Breaks task := by
  intro breaks
  obtain ⟨defect, there⟩ := breaks
  cases there.symm.trans has

theorem Has.unique {outcome other : Outcome} (has : world.Has task outcome)
    (again : world.Has task other) : outcome = other := by
  cases has.symm.trans again
  rfl

end World

/-- What is known of a run that waits: which works it waits with, which outcomes it then can have, and
whether it can have broken down. -/
structure Awaiting where
  pending : World → Work → Prop
  gives : World → Outcome → Prop
  broken : World → Prop

namespace Awaiting

/-- A run that has set up its last entry, and waits with its work. -/
inductive Comes (awaiting : Awaiting) (world : World) : Work → Prop
  | body {frame : Frame} {current : Work} {index : Nat} : frame.unobserved = [] →
      awaiting.pending world current → Comes awaiting world (.body frame current index [])
  | ended {frame : Frame} {outcome : Outcome} {index : Nat} : frame.unobserved = [] →
      awaiting.gives world outcome → Comes awaiting world (.body frame (.done outcome) index [])
  | breaks {frame : Frame} {defect : Defect} {index : Nat} : awaiting.broken world →
      Comes awaiting world (.body frame (.broken defect) index [])
  | settle {value : Value} : awaiting.gives world (.ok value) →
      Comes awaiting world (.settle [] value)
  | done {outcome : Outcome} : awaiting.gives world outcome → Comes awaiting world (.done outcome)
  | broken {defect : Defect} : awaiting.broken world → Comes awaiting world (.broken defect)

/-- Works that wait go on so, or have what they can have; and that does not change. -/
structure Lawful (awaiting : Awaiting) (machine : Machine) : Prop where
  pending : ∀ {world next : World} {work : Work}, world.Goes machine next →
    awaiting.pending world work → awaiting.pending next work
  gives : ∀ {world next : World} {outcome : Outcome}, world.Goes machine next →
    awaiting.gives world outcome → awaiting.gives next outcome
  broken : ∀ {world next : World}, world.Goes machine next → awaiting.broken world →
    awaiting.broken next
  going : ∀ {world : World} {work : Work}, awaiting.pending world work → work.ended? = none
  moves : ∀ {world : World} {work : Work} {change : Change}, awaiting.pending world work →
    Moves machine world work change →
      awaiting.pending world change.work ∨
      (∃ outcome, change.work = .done outcome ∧ awaiting.gives world outcome) ∨
      ∃ defect, change.work = .broken defect ∧ awaiting.broken world

/-- The run itself waits so. -/
def Stands (awaiting : Awaiting) (world : World) : Prop :=
  ∃ work, world.tasks[0]? = some work ∧ awaiting.Comes world work

variable {awaiting : Awaiting} {machine : Machine} {world next : World} {work : Work}
  {change : Change}

namespace Comes

theorem later (comes : awaiting.Comes world work) (lawful : awaiting.Lawful machine)
    (goes : world.Goes machine next) : awaiting.Comes next work := by
  cases comes with
  | body none pending => exact .body none (lawful.pending goes pending)
  | ended none gives => exact .ended none (lawful.gives goes gives)
  | breaks broken => exact .breaks (lawful.broken goes broken)
  | settle gives => exact .settle (lawful.gives goes gives)
  | done gives => exact .done (lawful.gives goes gives)
  | broken broken => exact .broken (lawful.broken goes broken)

theorem meet (comes : awaiting.Comes world work) : awaiting.Comes world work.meet := by
  cases comes with
  | broken broken => exact .broken broken
  | body none pending => exact .body none pending
  | ended none gives => exact .ended none gives
  | breaks broken => exact .breaks broken
  | settle gives => exact .settle gives
  | done gives => exact .done gives

theorem moves (comes : awaiting.Comes world work) (lawful : awaiting.Lawful machine)
    (moves : Moves machine world work change) : awaiting.Comes world change.work := by
  have inside {frame : Frame} {current : Work} {index : Nat} {change : Change}
      (none : frame.unobserved = []) (pending : awaiting.pending world current)
      (inner : Moves machine world current change) :
      awaiting.Comes world (.body frame change.work index []) := by
    rcases lawful.moves pending inner with still | ⟨outcome, same, gives⟩ | ⟨defect, same, broken⟩
    · exact .body none still
    · rw [same]
      exact .ended none gives
    · rw [same]
      exact .breaks broken
  cases comes with
  | body none pending =>
      cases moves with
      | current inner => exact inside none pending inner
      | last => cases lawful.going pending
      | bodyFails => cases lawful.going pending
      | bodyBreaks => cases lawful.going pending
  | ended none gives =>
      cases moves with
      | last =>
          rw [Change.become, none]
          exact .settle gives
      | bodyFails => exact .done gives
      | current inner => cases inner
  | breaks broken =>
      cases moves with
      | bodyBreaks => exact .broken broken
      | current inner => cases inner
  | settle gives =>
      cases moves with
      | settled => exact .done gives
  | done _ => cases moves
  | broken _ => cases moves

end Comes

theorem Stands.reaches {last : World} (stands : awaiting.Stands world)
    (lawful : awaiting.Lawful machine) (orderly : world.Orderly machine)
    (reaches : world.Reaches machine last) : awaiting.Stands last := by
  induction reaches with
  | refl => exact stands
  | @tail middle last before stepped ih =>
      have goes := World.step?_goes stepped
      obtain ⟨main, there, comes⟩ := ih
      rcases (orderly.reaches before).cases stepped with ⟨task, work, change, rest, move⟩ | tick
      · by_cases zero : task = 0
        · rw [zero] at move
          obtain rfl := Option.some.inj (there.symm.trans move.there)
          have later := (comes.moves lawful move.moves).later lawful goes
          rcases move.getElem?_moved with same | met
          · exact ⟨_, same, later⟩
          · exact ⟨_, met, later.meet⟩
        · obtain ⟨before, found, after⟩ := World.Kept.move move there (Ne.symm zero)
          obtain rfl := Option.some.inj (found.symm.trans there)
          rcases after with same | met
          · exact ⟨_, same, comes.later lawful goes⟩
          · exact ⟨_, met, (comes.later lawful goes).meet⟩
      · refine ⟨main, ?_, comes.later lawful goes⟩
        rw [tick.tasks]
        exact there

/-- If the run itself cannot move, it has an outcome, or still waits, or has broken down. -/
theorem Stands.still (stands : awaiting.Stands world) (asleep : machine.ready world 0 = false) :
    (∃ outcome, world.outcome? = some (.ok outcome) ∧ awaiting.gives world outcome) ∨
      (world.outcome? = none ∧ ∃ work, awaiting.pending world work ∧
        Machine.step? machine world work = none) ∨
      (∃ defect, world.outcome? = some (.error defect)) ∧ awaiting.broken world := by
  obtain ⟨main, there, comes⟩ := stands
  have stuck : Machine.step? machine world main = none := by
    rw [Machine.ready, Machine.stepTask?, there, Option.bind_some] at asleep
    rw [← Option.not_isSome_iff_eq_none, asleep]
    exact Bool.false_ne_true
  cases comes with
  | @body frame current index none pending =>
      refine .inr (.inl ⟨?_, current, pending, (Machine.step?_body_eq_none stuck).2⟩)
      exact World.outcome?_eq_none there rfl
  | ended _ _ => cases (Machine.step?_body_eq_none stuck).1
  | breaks _ => cases (Machine.step?_body_eq_none stuck).1
  | settle gives => cases stuck
  | done gives => exact .inl ⟨_, World.outcome?_eq_ok.mpr there, gives⟩
  | broken broken => exact .inr (.inr ⟨⟨_, World.outcome?_eq_error.mpr there⟩, broken⟩)

end Awaiting

/-- The run of a step alone waits for its task. -/
def Awaiting.alone (task : TaskId) : Awaiting where
  pending _ work := work = .wait task
  gives world outcome := world.Has task outcome
  broken world := world.Breaks task

theorem Awaiting.alone_lawful (machine : Machine) (task : TaskId) :
    (Awaiting.alone task).Lawful machine where
  pending _ same := same
  gives goes has := goes.done has
  broken goes breaks := goes.breaks breaks
  going := by
    rintro _ _ rfl
    rfl
  moves := by
    rintro world _ change rfl moves
    cases moves with
    | @wait _ ended there ends =>
        cases ended with
        | done outcome => exact .inr (.inl ⟨outcome, rfl, there⟩)
        | broken defect => exact .inr (.inr ⟨defect, rfl, defect, there⟩)
        | _ => cases ends

/-- If it cannot move and has not broken down, its outcome is that of the task. -/
theorem Awaiting.alone_still {machine : Machine} {world : World} {task : TaskId}
    (stands : (Awaiting.alone task).Stands world) (asleep : machine.ready world 0 = false)
    (whole : ∀ defect, world.outcome? ≠ some (.error defect)) :
    (∀ outcome, world.Has task outcome ↔ world.outcome? = some (.ok outcome)) ∧
      ¬world.Breaks task := by
  rcases stands.still asleep with ⟨outcome, ends, has⟩ | ⟨none, work, rfl, stuck⟩ | ⟨⟨defect, ends⟩, _⟩
  · have has : world.Has task outcome := has
    refine ⟨fun other => ?_, has.not_breaks⟩
    rw [ends]
    constructor
    · intro again
      rw [has.unique again]
    · intro same
      cases same
      exact has
  · rw [Machine.step?, Option.map_eq_none_iff] at stuck
    refine ⟨fun outcome => iff_of_false (fun has => ?_) (fun ends => ?_), fun breaks => ?_⟩
    · rw [has] at stuck
      cases stuck
    · cases none.symm.trans ends
    · obtain ⟨defect, there⟩ := breaks
      rw [there] at stuck
      cases stuck
  · exact absurd ends (whole defect)

/-- An operand is waited for, or has been taken. -/
inductive World.Taken (world : World) (task : TaskId) : Work → Prop
  | wait : Taken world task (.wait task)
  | done {outcome : Outcome} : world.Has task outcome → Taken world task (.done outcome)
  | broken {defect : Defect} : world.Breaks task → Taken world task (.broken defect)

namespace World.Taken

variable {machine : Machine} {world next : World} {task : TaskId} {work : Work} {change : Change}

theorem later (taken : world.Taken task work) (goes : world.Goes machine next) :
    next.Taken task work := by
  cases taken with
  | wait => exact .wait
  | done has => exact .done (goes.done has)
  | broken breaks => exact .broken (goes.breaks breaks)

theorem moves (taken : world.Taken task work) (moves : Moves machine world work change) :
    world.Taken task change.work := by
  cases taken with
  | wait =>
      cases moves with
      | @wait _ ended there ends =>
          cases ended with
          | done outcome => exact .done there
          | broken defect => exact .broken ⟨defect, there⟩
          | _ => cases ends
  | done _ => cases moves
  | broken _ => cases moves

/-- What cannot move has been taken, if there is an outcome. -/
theorem eq_done {outcome : Outcome} (taken : world.Taken task work)
    (stuck : Machine.step? machine world work = none) (has : world.Has task outcome) :
    work = .done outcome := by
  cases taken with
  | wait =>
      rw [Machine.step?, has] at stuck
      cases stuck
  | done other => rw [other.unique has]
  | broken breaks => exact absurd breaks has.not_breaks

theorem failed {failed : Work} (taken : world.Taken task work)
    (fails : work.failed? = some failed) :
    (∃ failure, failed = .done (.error failure) ∧ world.Has task (.error failure)) ∨
      ∃ defect, failed = .broken defect ∧ world.Breaks task := by
  cases taken with
  | wait => cases fails
  | @done outcome has =>
      cases outcome with
      | ok value => cases fails
      | error failure =>
          cases fails
          exact .inl ⟨failure, rfl, has⟩
  | broken breaks =>
      cases fails
      exact .inr ⟨_, rfl, breaks⟩

theorem value {value : Value} (taken : world.Taken task work) (found : work.value? = some value) :
    world.Has task (.ok value) := by
  cases taken with
  | wait => cases found
  | @done outcome has =>
      cases outcome with
      | ok other =>
          cases found
          exact has
      | error failure => cases found
  | broken _ => cases found

end World.Taken

namespace Operator

variable {machine : Machine} {operator : Operator} {world next : World} {left right : TaskId}

/-- What the operator has of its operands when it joins them: the first value, or both. -/
def Gathers (operator : Operator) (world : World) (left right : TaskId) (value : Value) : Prop :=
  match operator with
  | .waitEither => ∃ first, value = .parallel [first] ∧
      (world.Has left (.ok first) ∨ world.Has right (.ok first))
  | _ => ∃ first second, value = .parallel [first, second] ∧ world.Has left (.ok first) ∧
      world.Has right (.ok second)

/-- What has become of the operands when the operator goes on. -/
def Makes (operator : Operator) (world : World) (left right : TaskId) : Outcome → Prop
  | .ok value => operator.Gathers world left right value
  | .error failure => world.Has left (.error failure) ∨ world.Has right (.error failure)

/-- An outcome that the operator can have. -/
def Gives (operator : Operator) (world : World) (left right : TaskId) (outcome : Outcome) : Prop :=
  ∃ made, operator.Makes world left right made ∧ outcome = made.bind operator.join

/-- The works with which the run of an operator waits for its operands. -/
inductive Pends (operator : Operator) (world : World) (left right : TaskId) : Work → Prop
  | race : operator = .waitEither →
      Pends operator world left right (.after (.race left right) (.join operator.asPrimitive))
  | gather {one two : Work} : operator ≠ .waitEither → world.Taken left one →
      world.Taken right two → Pends operator world left right
        (.after (.gather .operands [one, two]) (.join operator.asPrimitive))
  | made {outcome : Outcome} : operator.Makes world left right outcome →
      Pends operator world left right (.after (.done outcome) (.join operator.asPrimitive))
  | broken {defect : Defect} : world.Breaks left ∨ world.Breaks right →
      Pends operator world left right (.after (.broken defect) (.join operator.asPrimitive))

/-- The operands do not yet have what the operator goes on with. -/
def Waits (operator : Operator) (world : World) (left right : TaskId) : Prop :=
  match operator with
  | .waitEither => ∀ outcome, ¬world.Has left outcome ∧ ¬world.Has right outcome
  | _ => (∀ failure, ¬world.Has left (.error failure) ∧ ¬world.Has right (.error failure)) ∧
      ∀ first second, world.Has left (.ok first) → ¬world.Has right (.ok second)

theorem Gathers.later {value : Value} (gathers : operator.Gathers world left right value)
    (goes : world.Goes machine next) : operator.Gathers next left right value := by
  cases operator with
  | waitEither =>
      obtain ⟨first, same, has⟩ := gathers
      exact ⟨first, same, has.imp goes.done goes.done⟩
  | _ =>
      obtain ⟨first, second, same, has, has'⟩ := gathers
      exact ⟨first, second, same, goes.done has, goes.done has'⟩

theorem Makes.later {outcome : Outcome} (makes : operator.Makes world left right outcome)
    (goes : world.Goes machine next) : operator.Makes next left right outcome := by
  cases outcome with
  | ok value => exact Gathers.later makes goes
  | error failure => exact Or.imp goes.done goes.done makes

theorem await_pends (operator : Operator) (world : World) (left right : TaskId) :
    operator.Pends world left right
      (.after (operator.await left right) (.join operator.asPrimitive)) := by
  cases operator with
  | waitEither => exact .race rfl
  | _ => exact .gather nofun .wait .wait

/-- What wins a race has come of one of the operands. -/
theorem race_makes {winner : Work}
    (won : Machine.race world.tasks[left]? world.tasks[right]? = some winner) :
    (∃ outcome, winner = .done outcome ∧ Makes .waitEither world left right outcome) ∨
      ∃ defect, winner = .broken defect ∧ (world.Breaks left ∨ world.Breaks right) := by
  have first {task : TaskId} {ended : Work}
      (found : world.tasks[task]?.bind Work.ended? = some ended) :
      (∃ outcome, ended = .done outcome ∧ world.Has task outcome) ∨
        ∃ defect, ended = .broken defect ∧ world.Breaks task := by
    obtain ⟨work, there, ends⟩ := Option.bind_eq_some_iff.mp found
    cases work with
    | done outcome =>
        cases ends
        exact .inl ⟨outcome, rfl, there⟩
    | broken defect =>
        cases ends
        exact .inr ⟨defect, rfl, defect, there⟩
    | _ => cases ends
  obtain ⟨ended, found, prize⟩ := Machine.race_cases won
  have ends : (∃ outcome, ended = .done outcome ∧ (world.Has left outcome ∨ world.Has right outcome)) ∨
      ∃ defect, ended = .broken defect ∧ (world.Breaks left ∨ world.Breaks right) := by
    rcases found with found | found
    · exact (first found).imp (fun ⟨outcome, same, has⟩ => ⟨outcome, same, .inl has⟩)
        fun ⟨defect, same, breaks⟩ => ⟨defect, same, .inl breaks⟩
    · exact (first found).imp (fun ⟨outcome, same, has⟩ => ⟨outcome, same, .inr has⟩)
        fun ⟨defect, same, breaks⟩ => ⟨defect, same, .inr breaks⟩
  rcases ends with ⟨outcome, rfl, has⟩ | ⟨defect, rfl, breaks⟩
  · rcases prize with ⟨value, same, rfl⟩ | ⟨other, rfl⟩
    · cases same
      exact .inl ⟨_, rfl, value, rfl, has⟩
    · cases outcome with
      | ok value => exact absurd rfl (other value)
      | error failure => exact .inl ⟨_, rfl, has⟩
  · rcases prize with ⟨_, same, _⟩ | ⟨_, rfl⟩
    · cases same
    · exact .inr ⟨defect, rfl, breaks⟩

/-- What two members make together has come of both operands. -/
theorem collect_gathers {one two : Work} {values : List Value} (several : operator ≠ .waitEither)
    (first : world.Taken left one) (second : world.Taken right two)
    (collected : [one, two].mapM Work.value? = some values) :
    operator.Gathers world left right (Shape.operands.collect values) := by
  rw [List.mapM_cons, List.mapM_cons, List.mapM_nil] at collected
  obtain ⟨a, here, rest⟩ := Option.bind_eq_some_iff.mp collected
  obtain ⟨others, later, same⟩ := Option.bind_eq_some_iff.mp rest
  obtain ⟨b, there, last⟩ := Option.bind_eq_some_iff.mp later
  cases last
  cases same
  cases operator with
  | waitEither => exact absurd rfl several
  | _ => exact ⟨a, b, rfl, first.value here, second.value there⟩

end Operator

/-- The run of an operator waits for its operands. -/
def Awaiting.operands (operator : Operator) (left right : TaskId) : Awaiting where
  pending world work := operator.Pends world left right work
  gives world outcome := operator.Gives world left right outcome
  broken world := world.Breaks left ∨ world.Breaks right

theorem Awaiting.operands_lawful (machine : Machine) (operator : Operator) (left right : TaskId) :
    (Awaiting.operands operator left right).Lawful machine where
  pending goes pends := by
    cases pends with
    | race either => exact .race either
    | gather several first second => exact .gather several (first.later goes) (second.later goes)
    | made makes => exact .made (makes.later goes)
    | broken breaks => exact .broken (breaks.imp goes.breaks goes.breaks)
  gives goes gives := gives.imp fun _ made => ⟨made.1.later goes, made.2⟩
  broken goes breaks := breaks.imp goes.breaks goes.breaks
  going pends := by
    cases pends <;> rfl
  moves := by
    intro world work change pends moves
    cases pends with
    | race either =>
        cases moves with
        | source inner =>
            cases inner with
            | race won =>
                rcases Operator.race_makes won with ⟨outcome, rfl, makes⟩ | ⟨defect, rfl, breaks⟩
                · rw [← either] at makes
                  exact .inl (.made makes)
                · exact .inl (.broken breaks)
    | @gather one two several first second =>
        cases moves with
        | source inner =>
            generalize members : [one, two] = works at inner
            cases inner with
            | spoil spoiled =>
                obtain ⟨member, inside, fails⟩ := Moves.spoiled_mem spoiled
                have taken : ∃ task, (task = left ∨ task = right) ∧ world.Taken task member := by
                  rw [← members] at inside
                  rcases List.mem_pair.mp inside with rfl | rfl
                  · exact ⟨left, .inl rfl, first⟩
                  · exact ⟨right, .inr rfl, second⟩
                obtain ⟨task, among, taken⟩ := taken
                rcases taken.failed fails with ⟨failure, rfl, has⟩ | ⟨defect, rfl, breaks⟩
                · refine .inl (.made ?_)
                  rcases among with rfl | rfl
                  · exact .inl has
                  · exact .inr has
                · refine .inl (.broken ?_)
                  rcases among with rfl | rfl
                  · exact .inl breaks
                  · exact .inr breaks
            | collect collected =>
                subst members
                exact .inl (.made (Operator.collect_gathers several first second collected))
            | @member _ before member after change moves =>
                cases before with
                | nil =>
                    cases members
                    exact .inl (.gather several (first.moves moves) second)
                | cons other before =>
                    cases before with
                    | nil =>
                        cases members
                        exact .inl (.gather several first (second.moves moves))
                    | cons another before => cases before <;> cases members
    | @made outcome makes =>
        cases moves with
        | goOn => exact .inr (.inl ⟨_, rfl, _, makes, rfl⟩)
        | fail => exact .inr (.inl ⟨_, rfl, _, makes, rfl⟩)
        | source inner => cases inner
    | broken breaks =>
        cases moves with
        | breaks => exact .inr (.inr ⟨_, rfl, breaks⟩)
        | source inner => cases inner

/-- If the run of an operator cannot move, its operands do not yet have what it goes on with. -/
theorem Operator.Pends.still {machine : Machine} {operator : Operator} {world : World}
    {left right : TaskId} {work : Work} (pends : operator.Pends world left right work)
    (stuck : Machine.step? machine world work = none) : operator.Waits world left right := by
  have idle {task : TaskId} {outcome : Outcome} (has : world.Has task outcome)
      (none : world.tasks[task]?.bind Work.ended? = none) : False := by
    rw [has] at none
    cases none
  cases pends with
  | race either =>
      have apart := (Machine.step?_after_eq_none stuck).2
      rw [Machine.step?, Option.map_eq_none_iff, Machine.race] at apart
      subst either
      split at apart
      · split at apart <;> cases apart
      · split at apart <;> cases apart
      · exact fun outcome => ⟨fun has => idle has ‹_›, fun has => idle has ‹_›⟩
  | @gather one two several first second =>
      have together := (Machine.step?_after_eq_none stuck).2
      obtain ⟨⟨member, inside, going⟩, apart⟩ := Machine.step?_gather_eq_none together
      have stuck₁ := apart one List.mem_cons_self
      have stuck₂ := apart two (List.mem_cons_of_mem _ List.mem_cons_self)
      have sound : Work.spoiled? [one, two] = none := by
        rw [Machine.step?] at together
        split at together
        · cases together
        · cases together
        · assumption
      have unfailed : ∀ work ∈ [one, two], work.failed? = none := by
        have few : [one, two].length ≤ Work.gatheredAtOnce := Nat.le_add_right 2 28
        rw [Work.spoiled?, if_pos few, List.findSome?_eq_none_iff] at sound
        exact sound
      have waits : (∀ failure, ¬world.Has left (.error failure) ∧
          ¬world.Has right (.error failure)) ∧
          ∀ a b, world.Has left (.ok a) → ¬world.Has right (.ok b) := by
        refine ⟨fun failure => ⟨fun has => ?_, fun has => ?_⟩, fun a b has has' => ?_⟩
        · have fails := unfailed one List.mem_cons_self
          rw [first.eq_done stuck₁ has] at fails
          cases fails
        · have fails := unfailed two (List.mem_cons_of_mem _ List.mem_cons_self)
          rw [second.eq_done stuck₂ has] at fails
          cases fails
        · rcases List.mem_pair.mp inside with rfl | rfl
          · rw [first.eq_done stuck₁ has] at going
            cases going
          · rw [second.eq_done stuck₂ has'] at going
            cases going
      cases operator with
      | waitEither => exact absurd rfl several
      | _ => exact waits
  | made _ => cases (Machine.step?_after_eq_none stuck).1
  | broken _ => cases (Machine.step?_after_eq_none stuck).1

end Runbook
