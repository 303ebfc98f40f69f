import Runbook.Proofs.Evaluation.Doubled

/-!
Runs of routines of which the one waits twice.

The works of each task go together. A work that has handed over the value of its operands, and one
that has them still to hand, go with the same work of the other run; in between lies the silent step
in which nothing starts, nothing is heard and nothing ends.
-/
namespace Runbook

/-- Changes after which the works go together, and so do the tasks that are started. -/
structure Change.Doubles (change other : Change) : Prop where
  work : change.work.Doubles other.work
  started : List.Forall₂ Work.Doubles change.started other.started
  told : told other.events = told change.events
  met : other.met = change.met

namespace Change.Doubles

variable {change other : Change}

theorem refl (change : Change) : change.Doubles change :=
  ⟨.refl change.work, worksDouble_refl change.started, rfl, rfl⟩

theorem within {context context' : Work → Work} (doubles : change.Doubles other)
    (keeps : ∀ {one two : Work}, one.Doubles two → (context one).Doubles (context' two)) :
    (change.within context).Doubles (other.within context') :=
  ⟨keeps doubles.work, doubles.started, doubles.told, doubles.met⟩

end Change.Doubles

/-- The routines do the same, but that steps of the one wait twice. -/
structure Routine.Doubles (one other : Routine) : Prop where
  name : other.procedure.name = one.procedure.name
  parameters : other.parameters = one.parameters
  sequence : List.Forall₂ Entry.Doubles one.sequence other.sequence

/-- The procedures do the same, but that steps of the one wait twice. -/
structure Machine.Doubles (machine machine' : Machine) : Prop where
  registry : machine'.registry = machine.registry
  joins : machine.registry.Joins
  routines : ∀ callee, Option.Rel Routine.Doubles (machine.library.get? callee)
    (machine'.library.get? callee)

theorem enter_doubles {one other : Routine} (doubles : one.Doubles other) (argument : Value) :
    (enter one argument).Doubles (enter other argument) := by
  obtain ⟨procedure, parameters, sequence, library⟩ := one
  obtain ⟨procedure', parameters', sequence', library'⟩ := other
  obtain ⟨name, same, double⟩ := doubles
  obtain rfl : parameters' = parameters := same
  have begins (frame : Frame) : Work.Doubles (.body frame (.done (.ok .unit)) 0 sequence)
      (.body frame (.done (.ok .unit)) 0 sequence') :=
    .body frame 0 (.done _) double
  rw [enter, enter, name]
  split
  · exact ⟨begins _, .nil, rfl, rfl⟩
  · dsimp only
    split
    · exact ⟨begins _, .nil, rfl, rfl⟩
    · exact .refl _

/-- What works take notice of is the same in both worlds. -/
structure World.Outwardly (world other : World) : Prop where
  clock : other.clock = world.clock
  count : other.tasks.length = world.tasks.length
  ends : ∀ task : TaskId,
    other.tasks[task]?.bind Work.ended? = world.tasks[task]?.bind Work.ended?

/-- What a move of the other work does, the one does in a move, or in a silent one and one more. -/
inductive Work.Strides (machine machine' : Machine) (world other : World) (one two : Work) : Prop
  | together : Option.Rel Change.Doubles (machine.step? world one) (machine'.step? other two) →
      Strides machine machine' world other one two
  | silent {later : Work} {change change' : Change} :
      machine.step? world one = some (.become later) → later.ended? = none → later.Doubles two →
      machine.step? world later = some change → machine'.step? other two = some change' →
      change.Doubles change' → Strides machine machine' world other one two

/-- The same of works, of which the first that can move does so. -/
inductive Work.StrideFirst (machine machine' : Machine) (world other : World)
    (context context' : List Work → Work) (ones others : List Work) : Prop
  | together : Option.Rel Change.Doubles (machine.stepFirst? world context ones)
        (machine'.stepFirst? other context' others) →
      StrideFirst machine machine' world other context context' ones others
  | silent {later : List Work} {change change' : Change} :
      machine.stepFirst? world context ones = some (.become (context later)) →
      List.Forall₂ Work.Doubles later others →
      machine.stepFirst? world context later = some change →
      machine'.stepFirst? other context' others = some change' → change.Doubles change' →
      StrideFirst machine machine' world other context context' ones others

namespace Machine

variable {machine machine' : Machine} {world other : World}

theorem goOn_doubles (machines : machine.Doubles machine') (clock : Nat) (value : Value)
    (next : Continuation) :
    (machine.goOn clock value next).Doubles (machine'.goOn clock value next) := by
  cases next with
  | call callee =>
      have found := machines.routines callee
      rw [goOn, goOn]
      generalize machine.library.get? callee = one at found ⊢
      generalize machine'.library.get? callee = two at found ⊢
      cases found with
      | none => exact .refl _
      | some doubles => exact enter_doubles doubles value
  | _ => exact .refl _

/-- Waiting for both operands gives their values, in silence. -/
theorem goOn_waitBoth (machine : Machine) (clock : Nat) (value : Value) :
    machine.goOn clock value (.join Operator.waitBoth.asPrimitive) =
      .become (.done (.ok value)) := by
  cases value <;> rfl

/-- What waiting for both operands has given is handed over. -/
theorem step?_handOver (machine : Machine) (world : World) (primitive : Primitive) {ended : Work}
    (ends : ended.ended? = some ended) :
    machine.step? world
        (.after (.after ended (.join Operator.waitBoth.asPrimitive)) (.invoke primitive)) =
      some (.become (.after ended (.invoke primitive))) := by
  cases ended with
  | done outcome =>
      cases outcome with
      | ok value =>
          rw [step?_after _ rfl, step?, goOn_waitBoth]
          rfl
      | error failure => rfl
  | broken defect => rfl
  | _ => cases ends

/-- That a primitive is performed on one argument is only traced. -/
theorem goOn_invoke_doubles (machine machine' : Machine) (clock : Nat) (value : Value)
    (primitive : Primitive) :
    (machine.goOn clock value (.invoke primitive)).Doubles
      (machine'.goOn clock value (.join primitive)) := by
  rw [goOn, goOn]
  exact ⟨.refl _, .nil, rfl, rfl⟩

theorem begin_doubles (machines : machine.Doubles machine') (next : TaskId) (frame : Frame)
    (index : Nat) {entry entry' : Entry} {entries entries' : List Entry}
    (first : entry.Doubles entry') (rest : List.Forall₂ Entry.Doubles entries entries') :
    (machine.begin next frame index entry entries).Doubles
      (machine'.begin next frame index entry' entries') := by
  have last : entries'.isEmpty = entries.isEmpty := by cases rest <;> rfl
  have start : SetUp.State.Doubles ⟨frame, next, [], []⟩ ⟨frame, next, [], []⟩ :=
    ⟨rfl, rfl, .nil, rfl⟩
  have ends := setUpEntry_doubles machines.joins index entries.isEmpty first _ _ start
  rw [begin, begin, machines.registry, last]
  generalize (setUpEntry machine.registry index entries.isEmpty entry).run.run _ = made at ends ⊢
  generalize (setUpEntry machine.registry index entries.isEmpty entry').run.run _ = made' at ends ⊢
  cases ends with
  | breaks defect states => exact ⟨.broken defect, states.started, states.told, rfl⟩
  | gives work states =>
      refine ⟨?_, states.started, states.told, rfl⟩
      dsimp only
      rw [states.frame]
      exact .body _ _ work rest

theorem rel_refl (moved : Option Change) : Option.Rel Change.Doubles moved moved := by
  cases moved with
  | none => exact .none
  | some change => exact .some (.refl change)

end Machine

namespace Work.Strides

variable {machine machine' : Machine} {world other : World} {one two : Work}

/-- A part of a work that goes on with it strides as the part does. -/
theorem within (context context' : Work → Work)
    (strides : Strides machine machine' world other one two) (going : one.ended? = none)
    (going' : two.ended? = none)
    (moves : ∀ {work : Work}, work.ended? = none →
      machine.step? world (context work) = (machine.step? world work).map (·.within context))
    (moves' : ∀ {work : Work}, work.ended? = none →
      machine'.step? other (context' work) = (machine'.step? other work).map (·.within context'))
    (lasts : ∀ work, (context work).ended? = none)
    (keeps : ∀ {one two : Work}, one.Doubles two → (context one).Doubles (context' two)) :
    Strides machine machine' world other (context one) (context' two) := by
  cases strides with
  | together both =>
      refine .together ?_
      rw [moves going, moves' going']
      exact Machine.rel_map both fun changes => changes.within keeps
  | silent stepped still same onward stepped' changes =>
      refine .silent ?_ (lasts _) (keeps same) ?_ ?_ (changes.within keeps)
      · rw [moves going, stepped]
        rfl
      · rw [moves still, onward, Option.map_some]
      · rw [moves' going', stepped', Option.map_some]

end Work.Strides

theorem Machine.stepFirst?_later {machine : Machine} {world : World} {member : Work}
    (context : List Work → Work) (members : List Work)
    (still : machine.step? world member = none) :
    machine.stepFirst? world context (member :: members) =
      machine.stepFirst? world (fun later => context (member :: later)) members := by
  rw [stepFirst?, still]

theorem Machine.stepFirst?_here {machine : Machine} {world : World} {member : Work}
    {change : Change} (context : List Work → Work) (members : List Work)
    (moves : machine.step? world member = some change) :
    machine.stepFirst? world context (member :: members) =
      some (change.within fun work => context (work :: members)) := by
  rw [stepFirst?, moves]

theorem Machine.step?_gather_open {machine : Machine} {world : World} {members : List Work}
    (shape : Shape) (whole : Work.spoiled? members = none)
    (uncollected : members.mapM Work.value? = none) :
    machine.step? world (.gather shape members) =
      machine.stepFirst? world (.gather shape) members := by
  rw [step?, whole, uncollected]

namespace Work.StrideFirst

open Machine

variable {machine machine' : Machine} {world other : World} {one two : Work}
  {ones others : List Work} {context context' : List Work → Work}

/-- Works stride with the first that can, or with those after it if it cannot. -/
theorem cons (first : Strides machine machine' world other one two) (double : one.Doubles two)
    (doubles : List.Forall₂ Work.Doubles ones others)
    (rest : StrideFirst machine machine' world other (fun later => context (one :: later))
      (fun later => context' (two :: later)) ones others)
    (keeps : ∀ {ones others : List Work}, List.Forall₂ Work.Doubles ones others →
      (context ones).Doubles (context' others)) :
    StrideFirst machine machine' world other context context' (one :: ones) (two :: others) := by
  cases first with
  | together both =>
      cases stepped : machine.step? world one with
      | none =>
          rw [stepped] at both
          generalize stepped' : machine'.step? other two = moved at both
          cases both
          cases rest with
          | together both =>
              rw [← stepFirst?_later context ones stepped,
                ← stepFirst?_later context' others stepped'] at both
              exact .together both
          | @silent later change change' moves same onward moves' changes =>
              rw [← stepFirst?_later context ones stepped] at moves
              rw [← stepFirst?_later context later stepped] at onward
              rw [← stepFirst?_later context' others stepped'] at moves'
              exact .silent moves (.cons double same) onward moves' changes
      | some change =>
          rw [stepped] at both
          generalize stepped' : machine'.step? other two = moved at both
          cases both with
          | some changes =>
              refine .together ?_
              rw [stepFirst?_here context ones stepped,
                stepFirst?_here context' others stepped']
              exact .some (changes.within fun double => keeps (.cons double doubles))
  | @silent later change change' stepped still same onward stepped' changes =>
      have moves : machine.stepFirst? world context (one :: ones) =
          some (.become (context (later :: ones))) :=
        stepFirst?_here context ones stepped
      exact .silent moves (.cons same doubles) (stepFirst?_here context ones onward)
        (stepFirst?_here context' others stepped')
        (changes.within fun double => keeps (.cons double doubles))

/-- What gathers works strides with them. -/
theorem gather {shape : Shape} (doubles : List.Forall₂ Work.Doubles ones others)
    (strides : StrideFirst machine machine' world other (.gather shape) (.gather shape) ones
      others) :
    Strides machine machine' world other (.gather shape ones) (.gather shape others) := by
  have spoils := worksDouble_spoiled? doubles
  have values := worksDouble_value? doubles
  cases whole : Work.spoiled? ones with
  | some failed =>
      refine .together ?_
      rw [step?, step?, spoils, whole]
      exact .some (.refl _)
  | none =>
      cases uncollected : ones.mapM Work.value? with
      | some collected =>
          refine .together ?_
          rw [step?, step?, spoils, values, whole, uncollected]
          exact .some (.refl _)
      | none =>
          have moves' : machine'.step? other (.gather shape others) = _ :=
            step?_gather_open shape (spoils.trans whole) (values.trans uncollected)
          cases strides with
          | together both =>
              refine .together ?_
              rw [step?_gather_open shape whole uncollected, moves']
              exact both
          | @silent later change change' stepped same onward stepped' changes =>
              refine .silent ((step?_gather_open shape whole uncollected).trans stepped) rfl
                (.gather shape same) ?_ (moves'.trans stepped') changes
              rw [step?_gather_open shape, onward]
              · exact (worksDouble_spoiled? same).symm.trans (spoils.trans whole)
              · exact (worksDouble_value? same).symm.trans (values.trans uncollected)

end Work.StrideFirst

namespace Machine

variable {machine machine' : Machine} {world other : World}

mutual

/-- Works that go together move together, or the one moves silently and then together with the
other. -/
theorem step?_doubles (machines : machine.Doubles machine') (same : world.Outwardly other) :
    ∀ {one two : Work}, one.Doubles two → Work.Strides machine machine' world other one two
  | _, _, .done _ | _, _, .broken _ => .together .none
  | _, _, .fresh inner => .together (.some ⟨inner, .nil, rfl, rfl⟩)
  | _, _, .wait task => by
      refine .together ?_
      rw [step?, step?, same.ends]
      exact rel_refl _
  | _, _, .race left right => by
      refine .together ?_
      rw [step?, step?, race, race, same.ends, same.ends]
      exact rel_refl _
  | _, _, .sleep wake outcome => by
      refine .together ?_
      rw [step?, step?, same.clock]
      exact rel_refl _
  | _, _, .after next inner => by
      rcases inner.cases_ended with ⟨going, going'⟩ | ⟨failure | value, rfl, rfl⟩ |
        ⟨defect, rfl, rfl⟩
      · exact (step?_doubles machines same inner).within (.after · next) (.after · next) going
          going' (step?_after next) (step?_after next) (fun _ => rfl) (.after next)
      · exact .together (rel_refl _)
      · refine .together ?_
        rw [step?, step?, same.clock]
        exact .some (goOn_doubles machines world.clock _ next)
      · exact .together (rel_refl _)
  | _, _, .gather shape members =>
      (stepFirst?_doubles machines same members fun members => .gather shape members).gather members
  | _, _, .body frame index inner rest => by
      rcases inner.cases_ended with ⟨going, going'⟩ | ⟨failure | value, rfl, rfl⟩ |
        ⟨defect, rfl, rfl⟩
      · exact (step?_doubles machines same inner).within (.body frame · index _)
          (.body frame · index _) going going' (step?_body frame index _) (step?_body frame index _)
          (fun _ => rfl) (fun inner => .body frame index inner rest)
      · exact .together (rel_refl _)
      · refine .together ?_
        cases rest with
        | nil => exact .some ⟨.settle _ _, .nil, rfl, rfl⟩
        | cons first rest =>
            rw [step?, step?, same.count]
            exact .some (begin_doubles machines _ frame index first rest)
      · exact .together (rel_refl _)
  | _, _, .settle [] result => .together (rel_refl _)
  | _, _, .settle ((task, count) :: bindings) result => by
      refine .together ?_
      rw [step?, step?, settle_ended? count bindings result other.tasks[task]?, same.ends,
        ← settle_ended?]
      exact rel_refl _
  | _, _, .again primitive inner => by
      rcases inner.cases_ended with ⟨going, going'⟩ | ⟨failure | value, rfl, rfl⟩ |
        ⟨defect, rfl, rfl⟩
      · refine (step?_doubles machines same inner).within
          (fun work => .after (.after work (.join Operator.waitBoth.asPrimitive))
            (.invoke primitive))
          (.after · (.join primitive)) going going' (fun going => ?_) (step?_after _) (fun _ => rfl)
          (.again primitive)
        rw [step?_after _ rfl, step?_after _ going, Option.map_map]
        rfl
      · exact .silent (step?_handOver machine world primitive rfl) rfl (.last primitive rfl) rfl rfl
          (.refl _)
      · refine .silent (step?_handOver machine world primitive rfl) rfl (.last primitive rfl)
          rfl rfl ?_
        rw [same.clock]
        exact goOn_invoke_doubles machine machine' world.clock value primitive
      · exact .silent (step?_handOver machine world primitive rfl) rfl (.last primitive rfl) rfl rfl
          (.refl _)
  | _, _, @Work.Doubles.last ended primitive ends => by
      refine .together ?_
      cases ended with
      | done outcome =>
          cases outcome with
          | ok value =>
              rw [step?, step?, same.clock]
              exact .some (goOn_invoke_doubles machine machine' world.clock value primitive)
          | error failure => exact rel_refl _
      | broken defect => exact rel_refl _
      | _ => cases ends

theorem stepFirst?_doubles (machines : machine.Doubles machine') (same : world.Outwardly other) :
    ∀ {ones others : List Work}, List.Forall₂ Work.Doubles ones others →
    ∀ {context context' : List Work → Work}, (∀ {ones others : List Work},
      List.Forall₂ Work.Doubles ones others → (context ones).Doubles (context' others)) →
      Work.StrideFirst machine machine' world other context context' ones others
  | _, _, .nil, _, _, _ => .together .none
  | _, _, .cons first rest, _, _, keeps =>
      .cons (step?_doubles machines same first) first rest
        (stepFirst?_doubles machines same rest fun members => keeps (.cons first members)) keeps

end

end Machine

/-! Worlds in which the works of all tasks go together. -/

/-- The works of each task go together. -/
def Ties.doubles : Ties := fun _ one two => one.Doubles two

namespace World.Tied

variable {machine machine' : Machine} {world other : World}

theorem outwardly (tied : World.Tied .doubles [] 0 world other) : world.Outwardly other :=
  ⟨tied.clock, tied.tasks.length_eq, tied.tasks.ends fun {_ _ _} double => double.ended?⟩

theorem step?_doubles (machines : machine.Doubles machine')
    (tied : World.Tied .doubles [] 0 world other) {one two : Work} (double : one.Doubles two) :
    Work.Strides machine machine' world other one two :=
  Machine.step?_doubles machines tied.outwardly double

end World.Tied

theorem Work.Strides.isSome {machine machine' : Machine} {world other : World} {one two : Work}
    (strides : Work.Strides machine machine' world other one two) :
    (machine'.step? other two).isSome = (machine.step? world one).isSome := by
  cases strides with
  | together both => exact rel_isSome both
  | silent stepped _ _ _ stepped' _ => rw [stepped, stepped']; rfl

theorem worksDouble_getElem? {ones others : List Work}
    (doubles : List.Forall₂ Work.Doubles ones others)
    (index : Nat) : Option.Rel Work.Doubles ones[index]? others[index]? := by
  induction doubles generalizing index with
  | nil => exact .none
  | cons first _ ih =>
      cases index with
      | zero => exact .some first
      | succ index => exact ih index

theorem Change.Doubles.tied {change other : Change} (doubles : change.Doubles other)
    (task next : TaskId) : Change.Tied .doubles task next change other where
  work := doubles.work
  started := worksDouble_getElem? doubles.started
  told := doubles.told
  met := doubles.met

theorem Ties.doubles_sound {machine machine' : Machine} (machines : machine.Doubles machine') :
    Ties.doubles.Sound machine machine' [] 0 where
  ended? double := double.ended?
  wakes {_ one _} double := by
    rw [double.wakes]
    exact (List.map_id _).symm
  meet double := double.meet
  moves tied _ _ double := (tied.step?_doubles machines double).isSome

/-- Turns of the same task, which has the silent move before its own in the one run, or not. -/
inductive Machine.TurnsStride (machine : Machine) (world : World) :
    Option (TaskId × Change × List TaskId) → Option (TaskId × Change × List TaskId) → Prop
  | none : TurnsStride machine world none none
  | together {task : TaskId} {change change' : Change} {queue : List TaskId} :
      change.Doubles change' →
      TurnsStride machine world (some (task, change, queue)) (some (task, change', queue))
  | silent {task : TaskId} {one later : Work} {change change' : Change} {queue : List TaskId} :
      world.tasks[task]? = some one → one.ended? = none → later.ended? = none →
      machine.step? world later = some change → change.Doubles change' →
      TurnsStride machine world (some (task, .become later, queue)) (some (task, change', queue))

namespace World

variable {machine machine' : Machine} {world other : World}

theorem Tied.turn?_stride (machines : machine.Doubles machine')
    (tied : World.Tied .doubles [] 0 world other) (queue : List TaskId) :
    machine.TurnsStride world (machine.turn? world queue) (machine'.turn? other queue) := by
  induction queue with
  | nil => exact .none
  | cons task queue ih =>
      have works := tied.tasks task
      rw [Machine.turn?, Machine.turn?, Machine.stepTask?, Machine.stepTask?]
      cases there : world.tasks[task]? with
      | none =>
          rw [there] at works
          generalize other.tasks[task]? = found at works ⊢
          cases works
          exact ih
      | some one =>
          rw [there] at works
          generalize other.tasks[task]? = found at works ⊢
          cases works with
          | some double =>
              rw [Option.bind_some, Option.bind_some]
              cases tied.step?_doubles machines double with
              | together both =>
                  generalize machine.step? world one = moved at both ⊢
                  generalize machine'.step? other _ = moved' at both ⊢
                  cases both with
                  | none => exact ih
                  | some changes => exact .together changes
              | silent stepped still same onward stepped' changes =>
                  rw [stepped, stepped']
                  exact .silent there (double.ended?.symm.trans (same.ended?.trans still)) still
                    onward changes

/-- The world after a silent move of a task, which keeps the turn. -/
def turnOf (world : World) (task : TaskId) (later : Work) (queue : List TaskId) : World :=
  { world with tasks := world.tasks.set task later, queue := task :: queue }

section
variable {task : TaskId} {one later : Work} {queue : List TaskId}
  (there : world.tasks[task]? = some one) (going : one.ended? = none) (still : later.ended? = none)
include still

theorem afterTurn_become : world.afterTurn machine (task, .become later, queue) =
    world.turnOf task later queue := by
  have open' : ¬ (Change.become later).work.ended?.isSome := by
    rw [Change.become, still]
    exact Bool.false_ne_true
  rw [World.afterTurn, if_neg open', World.apply, turnOf]
  simp only [Change.become, Option.elim_none, List.append_nil, List.map_nil, List.length_nil,
    List.range'_zero]

include there going

theorem turnOf_outwardly : world.Outwardly (world.turnOf task later queue) where
  clock := rfl
  count := List.length_set
  ends other := by
    change (world.tasks.set task later)[other]?.bind Work.ended? = _
    rw [List.getElem?_set]
    split
    · rename_i same
      rw [if_pos (List.getElem?_eq_some_iff.mp there).1, ← same, there, Option.bind_some,
        Option.bind_some, going, still]
    · rfl

theorem turnOf_outcome? : (world.turnOf task later queue).outcome? = world.outcome? := by
  have length := (List.getElem?_eq_some_iff.mp there).1
  cases task with
  | zero =>
      have there' : (world.turnOf 0 later queue).tasks[0]? = some later :=
        List.getElem?_set_self length
      rw [outcome?_eq_none there' still, outcome?_eq_none there going]
  | succ task =>
      obtain ⟨clock, tasks, _, log⟩ := world
      cases tasks with
      | nil => cases there
      | cons first works => cases first <;> rfl

/-- After a silent move, a task moves as if it had not made it. -/
theorem turnOf_step? {change : Change} (moves : machine.step? world later = some change) :
    (world.turnOf task later queue).step? machine =
      some (world.afterTurn machine (task, change, queue)) := by
  have same : world.Outwardly (world.turnOf task later queue) := turnOf_outwardly there going still
  have length := (List.getElem?_eq_some_iff.mp there).1
  have here : (world.turnOf task later queue).tasks[task]? = some later :=
    List.getElem?_set_self length
  have turn : machine.turn? (world.turnOf task later queue) (task :: queue) =
      some (task, change, queue) := by
    rw [Machine.turn?, Machine.stepTask?, here, Option.bind_some,
      Machine.step?_congr same.clock same.count same.ends, moves]
  have applied : (world.turnOf task later queue).apply task change queue =
      world.apply task change queue := by
    simp only [apply, turnOf, List.set_set, List.length_set]
  have queued : (world.turnOf task later queue).queue = task :: queue := rfl
  rw [World.step?, queued, turn]
  dsimp only
  rw [World.afterTurn, World.afterTurn, applied]

end

/-- The worlds stride if the turns of their tasks do. -/
theorem Tied.strides_of_turns (machines : machine.Doubles machine')
    (tied : World.Tied .doubles [] 0 world other)
    {turn turn' : Option (TaskId × Change × List TaskId)}
    (turns : machine.TurnsStride world turn turn')
    (stepped : world.step? machine = turn.map (world.afterTurn machine))
    (stepped' : other.step? machine' = turn'.map (other.afterTurn machine')) :
    Strides machine machine' (World.Tied .doubles [] 0) world other := by
  have sound := Ties.doubles_sound machines
  cases turns with
  | none =>
      refine .together ?_
      rw [stepped, stepped']
      exact .none
  | together changes =>
      refine .together ?_
      rw [stepped, stepped']
      exact .some (tied.afterTurn sound (.intro (changes.tied _ _)))
  | @silent task one later change change' queue there going still onward changes =>
      have taken : world.step? machine = some (world.turnOf task later queue) := by
        rw [stepped, Option.map_some, afterTurn_become still]
      refine .silent taken (turnOf_outcome? there going still) rfl
        (turnOf_step? there going still onward) (afterTurn_eq machine world _ _ _).1 stepped' ?_
      exact tied.afterTurn sound (.intro (changes.tied _ _))

theorem Tied.strides (machines : machine.Doubles machine')
    (tied : World.Tied .doubles [] 0 world other) :
    Strides machine machine' (World.Tied .doubles [] 0) world other := by
  have awake : machine'.awake other = machine.awake world := tied.awake_eq fun task =>
    tied.stepTask?_isSome fun _ double => (tied.step?_doubles machines double).isSome
  have queued := tied.turn?_stride machines world.queue
  have woken := tied.turn?_stride machines (machine.awake world)
  cases first : machine.turn? world world.queue with
  | some turn =>
      refine tied.strides_of_turns machines queued ?_ ?_
      · rw [World.step?, first]
        rfl
      · rw [first] at queued
        rw [World.step?, tied.queue]
        generalize machine'.turn? other world.queue = moved at queued ⊢
        cases queued <;> rfl
  | none =>
      rw [first] at queued
      generalize none' : machine'.turn? other world.queue = turn at queued
      cases queued
      cases second : machine.turn? world (machine.awake world) with
      | some turn =>
          refine tied.strides_of_turns machines woken ?_ ?_
          · rw [World.step?, first, second]
            rfl
          · rw [second] at woken
            rw [World.step?, tied.queue, none', awake]
            generalize machine'.turn? other (machine.awake world) = moved at woken ⊢
            cases woken <;> rfl
      | none =>
          rw [second] at woken
          generalize asleep' : machine'.turn? other (machine.awake world) = turn at woken
          cases woken
          refine .together ?_
          have wake := tied.wake?_eq (Ties.doubles_sound machines)
          rw [World.step?, World.step?, first, second, tied.queue, none', awake, asleep', wake]
          cases world.wake? with
          | none => exact .none
          | some moment => exact .some ⟨rfl, rfl, tied.tasks, tied.log⟩

/-- A run that waits twice trails the one that does not. -/
theorem Trails.doubles (machines : machine.Doubles machine') :
    Trails machine machine' (World.Tied .doubles [] 0) where
  step tied := tied.strides machines
  clock tied := tied.clock
  ends tied := tied.outwardly.ends
  log tied := tied.log.trans (List.map_id _)

end World

theorem World.start_doubles {one other : Routine} (doubles : one.Doubles other) (argument : Value) :
    World.Tied .doubles [] 0 (World.start one argument) (World.start other argument) := by
  have enters := enter_doubles doubles argument
  refine ⟨rfl, rfl, fun task => ?_, ?_⟩
  · cases task with
    | zero => exact .some enters.work
    | succ task => exact .none
  · change heard ((enter other argument).events.map (⟨0, ·⟩)) =
      [] ++ (heard ((enter one argument).events.map (⟨0, ·⟩))).map (Logged.later 0)
    rw [heard_map, heard_map, enters.told, List.map_map]
    rfl

namespace Routine

variable {registry : Registry}

/-- Any number of operations may wait twice, wherever they stand. -/
theorem heardAlike_of_doubles (joins : registry.Joins) {one other : Routine}
    (main : one.Doubles other) (procedures : ∀ callee, Option.Rel Routine.Doubles
      (Library.get? one.library callee) (Library.get? other.library callee))
    (argument : Value) : one.HeardAlike other registry argument :=
  heardAlike_of_trails (.doubles ⟨rfl, joins, procedures⟩) (World.start_doubles main argument)

theorem Doubles.refl (routine : Routine) : routine.Doubles routine :=
  ⟨rfl, rfl, sequenceDoubles_refl routine.sequence⟩

/-- Whether an operation is performed on its two operands, or on what waiting for both of them
gives, makes no difference: wherever it stands in a program, whatever its operands are and whatever
the primitives of the host do, all tasks come to the same at the same moments, and the same is
heard. -/
theorem revise_afterBoth (joins : registry.Joins) {operator : Operator}
    (both : operator ≠ .waitEither) (left right : Step) (program : Routine) (callee : Callee)
    (site : Site) (argument : Value) :
    (program.revise callee (site.sequence (operator.afterBoth left right))).HeardAlike
      (program.revise callee (site.sequence (operator.step left right))) registry argument := by
  have sequences := site.sequence_doubles (.again both (.refl left) (.refl right))
  have main : (program.revise callee (site.sequence (operator.afterBoth left right))).Doubles
      (program.revise callee (site.sequence (operator.step left right))) := by
    refine ⟨rfl, rfl, ?_⟩
    rw [revise, revise]
    dsimp only
    split
    · exact sequences
    · exact sequenceDoubles_refl _
  refine heardAlike_of_doubles joins main (fun asked => ?_) argument
  · rw [revise, revise, Library.get?_revise, Library.get?_revise]
    cases Library.get? program.library asked with
    | none => exact .none
    | some routine =>
        refine .some ?_
        split
        · exact ⟨rfl, rfl, sequences⟩
        · exact .refl routine

/-- A site whose value is told. -/
def Site.told : Site := ⟨[], .inherit, .invoke "task" .here, []⟩

theorem Registry.standard_joins : Registry.standard.Joins :=
  ⟨Registry.standard_own .waitBoth, Registry.standard_own .combine⟩

theorem revise_afterBoth_napping :
    let twice := (lone .tea).revise 0 (Site.told.sequence (Operator.combine.afterBoth .tea .nap))
    let once := (lone .tea).revise 0 (Site.told.sequence (Operator.combine.step .tea .nap))
    let tells : List Logged := [⟨5, .said .task (.text "tea")⟩]
    Registry.standard.Joins ∧ Operator.combine ≠ .waitEither ∧
      (∃ log, twice.perform? .standard .unit 0 30 = some (.ok ⟨.ok (.text "tea"), 5, log⟩) ∧
        heard log = tells) ∧
      ∃ enough, ∀ more, enough ≤ more → ∃ log,
        once.perform? .standard .unit 0 more = some (.ok ⟨.ok (.text "tea"), 5, log⟩) ∧
        tells <+: heard log := by
  intro twice once tells
  have both : Operator.combine ≠ .waitEither := by decide
  have performed : (twice.heard? .standard .unit 0 30).map (Option.map fun report =>
      (report.outcome, report.elapsed, report.log)) =
        some (some (.ok (.text "tea"), 5, tells)) := by decide +kernel
  obtain ⟨shown, found, same⟩ := Option.map_eq_some_iff.mp performed
  obtain ⟨result, reports, rfl⟩ := Option.map_eq_some_iff.mp found
  cases result with
  | error defect => cases same
  | ok report =>
      obtain ⟨outcome, elapsed, log⟩ := report
      obtain ⟨rfl, rfl, heard⟩ : outcome = .ok (.text "tea") ∧ elapsed = 5 ∧ heard log = tells := by
        simpa [Except.toOption, Report.heard] using same
      have echoes := (@revise_afterBoth .standard Registry.standard_joins .combine both .tea .nap
        (lone .tea) 0 Site.told .unit).onward
      refine ⟨Registry.standard_joins, both, ⟨log, reports, heard⟩, ?_⟩
      rw [← heard]
      exact echoes.reports reports

end Routine

end Runbook
