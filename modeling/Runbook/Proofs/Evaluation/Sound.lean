import Runbook.Proofs.Evaluation.SetUp
import Runbook.Proofs.Evaluation.Moves

/-!
Works whose needs are met.

A sound work has not met a defect and will meet none: each entry that is still to be set up is
supported after the names that its frame has by then. It waits for tasks that its own task has
started, or for ones that were started beside its own task and before it; so tasks do not wait for
each other in a circle. Moves keep all that.
-/
namespace Runbook

/-- What routines of a machine may need, all of which is at hand. -/
structure Footing (machine : Machine) where
  allowed : Need → Prop
  /-- May works wait for the first of two tasks? -/
  races : Prop
  hosts : machine.registry.Hosts allowed
  racing : ∀ name primitive, allowed (.primitive name) →
    machine.registry.lookup name = some primitive → primitive.operator = some .waitEither → races
  routines : ∀ callee, allowed (.routine callee) →
    ∃ routine, machine.library.get? callee = some routine ∧ routine.Supported allowed

variable {machine : Machine} (footing : Footing machine)

/-- The routine that the value is given to is at hand. -/
def Continuation.Sound : Continuation → Prop
  | .call callee => footing.allowed (.routine callee)
  | _ => True

mutual

/-- The work has all that it needs. It waits only for certain tasks, and the frames in it are
filled by tasks of its own. -/
def Work.Sound (waits own : TaskId → Prop) : Work → Prop
  | .done _ | .sleep _ _ => True
  | .broken _ => False
  | .fresh work => work.Sound waits own
  | .wait task => waits task
  | .race left right => footing.races ∧ waits left ∧ waits right
  | .after source next => source.Sound waits own ∧ next.Sound footing
  | .gather _ members => soundAll waits own members
  | .body frame current _ entries =>
    (∀ task ∈ frame.tasks, own task) ∧ current.Sound waits own ∧
      Supported footing.allowed frame.names (entries.map Entry.step)
  | .settle bindings _ => ∀ binding ∈ bindings, waits binding.1

def Work.soundAll (waits own : TaskId → Prop) : List Work → Prop
  | [] => True
  | work :: works => work.Sound waits own ∧ soundAll waits own works

end

namespace Work

variable {footing} {waits own : TaskId → Prop}

theorem soundAll_iff {works : List Work} :
    soundAll footing waits own works ↔ ∀ work ∈ works, work.Sound footing waits own := by
  induction works with
  | nil => exact iff_of_true trivial nofun
  | cons work works ih => rw [soundAll, ih, List.forall_mem_cons]

mutual

theorem sound_mono {more others : TaskId → Prop} (le : ∀ task, waits task → more task)
    (among : ∀ task, own task → others task) :
    ∀ work : Work, work.Sound footing waits own → work.Sound footing more others
  | .done _, _ | .sleep _ _, _ => trivial
  | .broken _, sound => sound.elim
  | .fresh work, sound => sound_mono le among work sound
  | .wait task, sound => le task sound
  | .race left right, sound => ⟨sound.1, le left sound.2.1, le right sound.2.2⟩
  | .after source _, sound => ⟨sound_mono le among source sound.1, sound.2⟩
  | .gather _ members, sound => soundAll_mono le among members sound
  | .body _ current _ _, sound =>
      ⟨fun task member => among task (sound.1 task member), sound_mono le among current sound.2.1,
        sound.2.2⟩
  | .settle _ _, sound => fun binding member => le binding.1 (sound binding member)

theorem soundAll_mono {more others : TaskId → Prop} (le : ∀ task, waits task → more task)
    (among : ∀ task, own task → others task) :
    ∀ works : List Work, soundAll footing waits own works → soundAll footing more others works
  | [], _ => trivial
  | work :: works, sound =>
      ⟨sound_mono le among work sound.1, soundAll_mono le among works sound.2⟩

end

/-- A sound work may wait for more tasks. -/
theorem Sound.mono {more others : TaskId → Prop} {work : Work}
    (sound : work.Sound footing waits own) (le : ∀ task, waits task → more task)
    (among : ∀ task, own task → others task) : work.Sound footing more others :=
  sound_mono le among work sound

/-- The works are started as tasks from a number on, and each waits for tasks before it. -/
def Orderly (footing : Footing machine) (waits : TaskId → Prop) (next : Nat)
    (started : List Work) : Prop :=
  ∀ (index : Nat) (work : Work), started[index]? = some work → ∀ own,
    work.Sound footing (fun task : Nat => waits task ∧ task < next + index) own

theorem Orderly.append {next : Nat} {first second : List Work}
    (earlier : Orderly footing waits next first)
    (later : Orderly footing waits (next + first.length) second) :
    Orderly footing waits next (first ++ second) := by
  intro index work found own
  rcases Nat.lt_or_ge index first.length with below | above
  · rw [List.getElem?_append_left below] at found
    exact earlier index work found own
  · rw [List.getElem?_append_right above] at found
    have sound := later _ work found own
    have same : next + first.length + (index - first.length) = next + index := by omega
    rwa [same] at sound

theorem orderly_singleton {next : Nat} {work : Work}
    (sound : ∀ own, work.Sound footing (fun task : Nat => waits task ∧ task < next) own) :
    Orderly footing waits next [work] := by
  intro index other found own
  cases index with
  | zero =>
      obtain rfl := Option.some.inj found
      exact sound own
  | succ index => cases found

end Work

/-- What setting up gives: a frame that is filled by tasks before the next one, works that wait for
such tasks, and orderly tasks. -/
structure Prepared (footing : Footing machine) (waits : TaskId → Prop) (next : Nat)
    (works started : List Work) (after : Frame) : Prop where
  filled : ∀ task : Nat, task ∈ after.tasks → waits task ∧ task < next + started.length
  sound : ∀ own, Work.soundAll footing
    (fun task : Nat => waits task ∧ task < next + started.length) own works
  orderly : Work.Orderly footing waits next started

variable {footing}

theorem Frame.mem_tasks {frame : Frame} {names : List Name} {task : TaskId} {observed : Bool}
    (member : Binding.started names task observed ∈ frame.bindings) : task ∈ frame.tasks :=
  List.mem_filterMap.mpr ⟨_, member, rfl⟩

namespace Prepared

variable {waits : TaskId → Prop} {next : Nat} {works started : List Work} {after : Frame}

/-- What works of the set up steps are made of is sound after more is set up. -/
theorem cons {work : Work} {rest : List Work} {middle : Frame}
    (first : Prepared footing waits next [work] started middle)
    (second : Prepared footing waits (next + started.length) works rest after) :
    Prepared footing waits next (work :: works) (started ++ rest) after where
  filled := by
    rw [List.length_append, ← Nat.add_assoc]
    exact second.filled
  sound own := by
    rw [List.length_append, ← Nat.add_assoc]
    refine ⟨(first.sound own).1.mono ?_ fun _ => id, second.sound own⟩
    intro task waiting
    exact ⟨waiting.1, Nat.lt_of_lt_of_le waiting.2 (Nat.le_add_right _ _)⟩
  orderly := first.orderly.append second.orderly

theorem start {work : Work} (prepared : Prepared footing waits next [work] started after) :
    Work.Orderly footing waits next (started ++ [.fresh work]) :=
  prepared.orderly.append (Work.orderly_singleton fun own => (prepared.sound own).1)

/-- A binding whose task is started comes into the frame. -/
theorem bind {work : Work} (prepared : Prepared footing waits next [work] started after)
    (names : List Name) (observed : Bool) (later : ∀ task : Nat, next ≤ task → waits task) :
    Prepared footing waits next [] (started ++ [.fresh work])
      (after.add (.started names (next + started.length) observed)) where
  filled task member := by
    rw [Frame.tasks_add] at member
    rw [List.length_append, List.length_singleton]
    rcases List.mem_append.mp member with member | member
    · obtain ⟨waiting, below⟩ := prepared.filled task member
      exact ⟨waiting, by omega⟩
    · have same : task = next + started.length := List.mem_singleton.mp member
      exact ⟨later task (by omega), by omega⟩
  sound _ := trivial
  orderly := prepared.start

end Prepared

theorem Operator.await_sound {operator : Operator} {left right : TaskId}
    {waits own : TaskId → Prop} (racing : operator = .waitEither → footing.races)
    (first : waits left) (second : waits right) :
    (operator.await left right).Sound footing waits own := by
  cases operator with
  | waitEither => exact ⟨racing rfl, first, second⟩
  | waitBoth => exact ⟨first, second, trivial⟩
  | combine => exact ⟨first, second, trivial⟩

theorem Frame.unobserved_tasks {frame : Frame} {binding : TaskId × Nat}
    (member : binding ∈ frame.unobserved) : binding.1 ∈ frame.tasks := by
  obtain ⟨bound, inside, unobserved⟩ := List.mem_filterMap.mp member
  cases bound with
  | parameter name value => cases unobserved
  | started names task observed =>
      cases observed with
      | true => cases unobserved
      | false =>
          obtain rfl := Option.some.inj unobserved
          exact mem_tasks inside

/-- Setting steps up whose needs are met. -/
theorem SetsUp.prepared {frame after : Frame} {next : Nat} {steps : List Step}
    {works started : List Work} {waits : TaskId → Prop}
    (sets : SetsUp machine.registry frame next steps works started after)
    (needs : ∀ need ∈ stepsNeeds steps, footing.allowed need)
    (filled : ∀ task : Nat, task ∈ frame.tasks → waits task ∧ task < next)
    (later : ∀ task : Nat, next ≤ task → waits task) :
    Prepared footing waits next works started after := by
  induction sets with
  | nil => exact ⟨filled, fun _ => trivial, nofun⟩
  | cons _ _ first rest =>
      rw [stepsNeeds_cons, List.forall_mem_append] at needs
      have one := first needs.1 filled later
      exact one.cons (rest needs.2 one.filled fun task above => later task (by omega))
  | constant _ => exact ⟨filled, fun _ => ⟨trivial, trivial⟩, nofun⟩
  | tablet _ ih =>
      rw [stepsNeeds_tablet] at needs
      have prepared := ih needs filled later
      exact ⟨prepared.filled, fun own => ⟨prepared.sound own, trivial⟩, prepared.orderly⟩
  | bind _ ih =>
      rename_i next names step work started after _
      have bound := (ih needs filled later).bind names true later
      refine ⟨bound.filled, fun _ => ⟨⟨later _ (Nat.le_add_right _ _), ?_⟩, trivial⟩, bound.orderly⟩
      rw [List.length_append, List.length_singleton]
      exact Nat.lt_succ_self _
  | call _ ih =>
      rw [stepsNeeds_call, List.forall_mem_cons] at needs
      have prepared := ih needs.2 filled later
      exact ⟨prepared.filled, fun own => ⟨⟨(prepared.sound own).1, needs.1⟩, trivial⟩,
        prepared.orderly⟩
  | invoke found _ ih =>
      rw [stepsNeeds_invoke, List.forall_mem_cons] at needs
      have prepared := ih needs.2 filled later
      exact ⟨prepared.filled, fun own => ⟨⟨(prepared.sound own).1, trivial⟩, trivial⟩,
        prepared.orderly⟩
  | operands found performs _ _ first second =>
      rename_i next name left right primitive operator one other started others middle after _ _
      rw [stepsNeeds_operands, List.forall_mem_cons, List.forall_mem_append] at needs
      obtain ⟨allowed, ofLeft, ofRight⟩ := needs
      have left := first ofLeft filled later
      have right := second ofRight
        (fun task member => ⟨(left.filled task member).1, Nat.lt_succ_of_lt
          (left.filled task member).2⟩) (fun task above => later task (by omega))
      have count : (started ++ [Work.fresh one]).length = started.length + 1 :=
        List.length_append
      have orderly := left.start.append (by rw [count]; exact right.start)
      have length : (started ++ Work.fresh one :: (others ++ [Work.fresh other])).length =
          started.length + 1 + others.length + 1 := by
        simp only [List.length_append, List.length_cons, List.length_nil]
        omega
      rw [List.append_assoc, List.singleton_append] at orderly
      refine ⟨fun task member => ?_, fun own => ⟨⟨?_, trivial⟩, trivial⟩, orderly⟩
      · obtain ⟨waiting, below⟩ := right.filled task member
        exact ⟨waiting, by omega⟩
      · refine Operator.await_sound (fun racing => ?_) ⟨later _ ?_, ?_⟩ ⟨later _ ?_, ?_⟩
        · exact footing.racing name primitive allowed found (performs.trans (congrArg some racing))
        all_goals omega
  | tuple _ ih =>
      rw [stepsNeeds_tuple] at needs
      have prepared := ih needs filled later
      exact ⟨prepared.filled, fun own => ⟨prepared.sound own, trivial⟩, prepared.orderly⟩
  | parameter _ => exact ⟨filled, fun _ => ⟨trivial, trivial⟩, nofun⟩
  | read found =>
      have inside := Frame.mem_tasks (Frame.find?_mem found)
      refine ⟨fun task member => ?_, fun _ => ⟨⟨filled _ inside, trivial⟩, trivial⟩, nofun⟩
      rw [Frame.tasks_observe] at member
      exact filled task member

theorem SetsUpEntry.prepared {frame after : Frame} {next : Nat} {isLast : Bool} {step : Step}
    {work : Work} {started : List Work} {waits : TaskId → Prop}
    (sets : SetsUpEntry machine.registry frame next isLast step work started after)
    (needs : ∀ need ∈ stepsNeeds [step], footing.allowed need)
    (filled : ∀ task : Nat, task ∈ frame.tasks → waits task ∧ task < next)
    (later : ∀ task : Nat, next ≤ task → waits task) :
    Prepared footing waits next [work] started after := by
  cases sets with
  | bind sets =>
      rename_i names step work started after
      have bound := (sets.prepared needs filled later).bind names isLast later
      refine ⟨bound.filled, fun _ => ⟨?_, trivial⟩, bound.orderly⟩
      cases isLast with
      | false => trivial
      | true =>
          refine ⟨later _ (Nat.le_add_right _ _), ?_⟩
          rw [List.length_append, List.length_singleton]
          exact Nat.lt_succ_self _
  | other _ sets => exact sets.prepared needs filled later

/-- An entry that is set up is the current one of the body. -/
theorem Machine.begin_gives {frame : Frame} {entry : Entry} {entries : List Entry}
    {next : TaskId} {index : Nat} {work : Work} {state : SetUp.State}
    (gives : (setUpEntry machine.registry index entries.isEmpty entry).Gives
      ⟨frame, next, [], []⟩ work state) :
    machine.begin next frame index entry entries =
      ⟨.body state.frame work (index + 1) entries, state.started, state.events, none⟩ := by
  rw [SetUp.Gives] at gives
  rw [begin, gives]

theorem Machine.begin_breaks {frame : Frame} {entry : Entry} {entries : List Entry}
    {next : TaskId} {index : Nat} {defect : Defect} {after : SetUp.State}
    (breaks : (setUpEntry machine.registry index entries.isEmpty entry).Breaks
      ⟨frame, next, [], []⟩ defect after) :
    machine.begin next frame index entry entries =
      ⟨.broken defect, after.started, after.events, none⟩ := by
  rw [SetUp.Breaks] at breaks
  rw [begin, breaks]

theorem Machine.begin_eq {frame : Frame} {entry : Entry} {entries : List Entry}
    (supported : Supported footing.allowed frame.names ((entry :: entries).map Entry.step))
    (next : TaskId) (index : Nat) :
    ∃ work started after events,
      machine.begin next frame index entry entries =
        ⟨.body after work (index + 1) entries, started, events, none⟩ ∧
      SetsUpEntry machine.registry frame next entries.isEmpty entry.step work started after ∧
      Supported footing.allowed after.names (entries.map Entry.step) := by
  obtain ⟨first, rest⟩ := Supported.cons.mp supported
  obtain ⟨work, started, after, events, gives, sets⟩ := setUpEntry_realized footing.hosts first
    (List.Subset.refl _) next index entries.isEmpty
  refine ⟨work, started, after, events, ?_, sets, ?_⟩
  · exact begin_gives gives
  · rw [sets.names]
    exact rest

theorem Frame.ofParameters_names {parameters : List Name} {values : List Value}
    (same : values.length = parameters.length) :
    (Frame.ofParameters parameters values).names = parameters := by
  induction parameters generalizing values with
  | nil => rfl
  | cons parameter parameters ih =>
      cases values with
      | nil => cases same
      | cons value values => exact congrArg (parameter :: ·) (ih (Nat.succ.inj same))

theorem Frame.ofParameters_tasks (parameters : List Name) (values : List Value) :
    (Frame.ofParameters parameters values).tasks = [] := by
  simp [Frame.ofParameters, Frame.tasks, List.filterMap_eq_nil_iff, Binding.task?]

def World.Unbroken (world : World) : Prop :=
  ∀ (task : TaskId) (defect : Defect), world.tasks[task]? ≠ some (.broken defect)

namespace Moves

variable {waits own : TaskId → Prop} {world : World}

theorem enter_sound {routine : Routine} (supported : routine.Supported footing.allowed)
    (argument : Value) :
    (enter routine argument).work.Sound footing waits own ∧
      (enter routine argument).started = [] := by
  rw [enter]
  split
  · rename_i none
    rw [List.isEmpty_iff] at none
    rw [Routine.Supported, none] at supported
    exact ⟨⟨nofun, trivial, supported⟩, rfl⟩
  · split
    · rename_i values same _
      refine ⟨⟨?_, trivial, ?_⟩, rfl⟩
      · rw [Frame.ofParameters_tasks]
        nofun
      · rw [Frame.ofParameters_names same]
        exact supported
    · exact ⟨trivial, rfl⟩

/-- What a change of a work leaves: the work may wait for the tasks that are started too. -/
structure Kept (footing : Footing machine) (waits own : TaskId → Prop) (next : Nat)
    (change : Change) : Prop where
  work : change.work.Sound footing
    (fun task : Nat => waits task ∨ next ≤ task ∧ task < next + change.started.length)
    (fun task : Nat => own task ∨ next ≤ task ∧ task < next + change.started.length)
  orderly : Work.Orderly footing (fun task : Nat => own task ∨ next ≤ task) next change.started

theorem Kept.become {next : Nat} {work : Work} (sound : work.Sound footing waits own) :
    Kept footing waits own next (.become work) :=
  ⟨sound.mono (fun _ => .inl) (fun _ => .inl), nofun⟩

theorem Kept.done {next : Nat} {outcome : Outcome} {events : List Event} {met : Option TaskId} :
    Kept footing waits own next ⟨.done outcome, [], events, met⟩ := ⟨trivial, nofun⟩

/-- The change of a part is one of the whole. -/
theorem Kept.within {next : Nat} {change : Change} {context : Work → Work}
    (kept : Kept footing waits own next change)
    (sound : ∀ {waits' own' : TaskId → Prop}, (∀ task, waits task → waits' task) →
      (∀ task, own task → own' task) → change.work.Sound footing waits' own' →
        (context change.work).Sound footing waits' own') :
    Kept footing waits own next (change.within context) :=
  ⟨sound (fun _ => .inl) (fun _ => .inl) kept.work, kept.orderly⟩

theorem ended_done {task : TaskId} {ended : Work}
    (unbroken : world.Unbroken)
    (there : world.tasks[task]? = some ended) (ends : ended.ended? = some ended) :
    ∃ outcome, ended = .done outcome := by
  cases ended with
  | done outcome => exact ⟨outcome, rfl⟩
  | broken defect => exact absurd there (unbroken task defect)
  | _ => cases ends

/-- What spoils members is the end of one of them. -/
theorem spoiled_mem {members : List Work} {failed : Work}
    (spoiled : Work.spoiled? members = some failed) :
    ∃ member ∈ members, member.failed? = some failed := by
  rw [Work.spoiled?] at spoiled
  split at spoiled
  · exact List.exists_of_findSome?_eq_some spoiled
  · split at spoiled
    · rename_i defect broke
      obtain ⟨member, inside, breaks⟩ := List.exists_of_findSome?_eq_some broke
      refine ⟨member, inside, ?_⟩
      cases member with
      | broken other =>
          cases breaks
          exact spoiled
      | _ => cases breaks
    · obtain ⟨member, first, fails⟩ := Option.bind_eq_some_iff.mp spoiled
      have inside := (List.dropWhile_sublist _).subset (List.mem_of_mem_head? first)
      exact ⟨member, inside, fails⟩

/-- Only a failure spoils sound members. -/
theorem spoiled_done {members : List Work} {failed : Work}
    (sound : Work.soundAll footing waits own members)
    (spoiled : Work.spoiled? members = some failed) :
    ∃ failure, failed = .done (.error failure) ∧ failed ∈ members := by
  rw [Work.soundAll_iff] at sound
  obtain ⟨member, inside, fails⟩ := spoiled_mem spoiled
  have kept := sound member inside
  cases member with
  | done outcome =>
      cases outcome with
      | ok value => cases fails
      | error failure =>
          cases fails
          exact ⟨failure, rfl, inside⟩
  | broken defect => exact kept.elim
  | _ => cases fails

theorem race_done {left right : TaskId} {winner : Work}
    (unbroken : world.Unbroken)
    (won : Machine.race world.tasks[left]? world.tasks[right]? = some winner) :
    ∃ outcome, winner = .done outcome := by
  have first {task : TaskId} {ended : Work}
      (found : world.tasks[task]?.bind Work.ended? = some ended) :
      ∃ outcome, ended = .done outcome := by
    obtain ⟨work, there, ends⟩ := Option.bind_eq_some_iff.mp found
    obtain rfl := Machine.ended?_eq ends
    exact ended_done unbroken there ends
  rw [Machine.race] at won
  split at won
  · obtain ⟨outcome, rfl⟩ := first ‹_›
    cases outcome <;> exact ⟨_, (Option.some.inj won).symm⟩
  · obtain ⟨outcome, rfl⟩ := first ‹_›
    cases outcome <;> exact ⟨_, (Option.some.inj won).symm⟩
  · cases won

theorem perform_kept {clock count : Nat} {value : Value} (primitive : Primitive)
    (events : List Event) :
    Kept footing waits own count (Machine.goOn.perform clock value primitive events) := by
  simp only [Machine.goOn.perform]
  split
  · exact .done
  · exact ⟨trivial, nofun⟩

theorem goOn_kept {clock : Nat} {value : Value} {next : Continuation} {count : Nat}
    (sound : next.Sound footing) :
    Kept footing waits own count (machine.goOn clock value next) := by
  cases next with
  | pick names place =>
      rw [Machine.goOn]
      split
      · exact .done
      · exact .done
  | call callee =>
      obtain ⟨routine, found, supported⟩ := footing.routines callee sound
      obtain ⟨work, started⟩ := enter_sound supported value
      rw [Machine.goOn, found]
      refine ⟨work, ?_⟩
      rw [started]
      nofun
  | invoke primitive => exact perform_kept primitive _
  | join primitive => exact perform_kept primitive _

/-- A binding that is settled is one of those that are left, or ends the run of the body. -/
theorem settle_eq {count : Nat} {bindings : List (TaskId × Nat)} {result : Value}
    {outcome : Outcome} {change : Change}
    (settles : Machine.settle count bindings result (.done outcome) = some change) :
    change = .become (.settle bindings result) ∨ ∃ failure, change = .finish (.error failure) := by
  cases outcome with
  | ok value =>
      rw [Machine.settle] at settles
      split at settles
      · exact .inl (Option.some.inj settles).symm
      · exact .inr ⟨_, (Option.some.inj settles).symm⟩
  | error failure => exact .inr ⟨failure, (Option.some.inj settles).symm⟩

/-- Moves keep works sound. -/
theorem kept {work : Work} {change : Change} (moves : Moves machine world work change)
    (sound : work.Sound footing waits own) (among : ∀ task, own task → waits task)
    (started : ∀ task : Nat, own task → task < world.tasks.length)
    (unbroken : world.Unbroken) :
    Kept footing waits own world.tasks.length change := by
  induction moves with
  | fresh => exact .become sound
  | wait there ends =>
      obtain ⟨outcome, rfl⟩ := ended_done unbroken there ends
      exact .done
  | race won =>
      obtain ⟨outcome, rfl⟩ := race_done unbroken won
      exact .done
  | wake _ => exact .done
  | goOn => exact goOn_kept sound.2
  | fail => exact .done
  | breaks => exact sound.1.elim
  | source _ ih =>
      exact (ih sound.1).within fun _ _ part => ⟨part, sound.2⟩
  | spoil spoiled =>
      obtain ⟨failure, rfl, _⟩ := spoiled_done sound spoiled
      exact .done
  | collect _ => exact .done
  | member _ ih =>
      rename_i shape before member after change _
      rw [Work.Sound, Work.soundAll_iff, List.forall_mem_append, List.forall_mem_cons] at sound
      obtain ⟨earlier, one, later⟩ := sound
      refine (ih one).within fun le among part => ?_
      rw [Work.Sound, Work.soundAll_iff, List.forall_mem_append, List.forall_mem_cons]
      exact ⟨fun work inside => (earlier work inside).mono le among, part,
        fun work inside => (later work inside).mono le among⟩
  | last =>
      rename_i frame value index
      exact .become fun binding member => among _ (sound.1 _ (Frame.unobserved_tasks member))
  | begin =>
      rename_i frame value index entry entries
      obtain ⟨work, tasks, after, events, same, sets, rest⟩ :=
        Machine.begin_eq sound.2.2 world.tasks.length index
      have prepared := sets.prepared (Supported.cons.mp sound.2.2).1.needs
        (fun task member => ⟨Or.inl (sound.1 task member), started task (sound.1 task member)⟩)
        (fun task above => Or.inr above)
      rw [same]
      refine ⟨⟨fun task member => ?_, ?_, rest⟩, prepared.orderly⟩
      · obtain ⟨waiting, below⟩ := prepared.filled task member
        exact waiting.imp_right fun above => ⟨above, below⟩
      · refine (prepared.sound _).1.mono (fun task waiting => ?_) fun _ => id
        exact waiting.1.imp (among task) fun above => ⟨above, waiting.2⟩
  | bodyFails => exact .done
  | bodyBreaks => exact sound.2.1.elim
  | current _ ih =>
      exact (ih sound.2.1).within fun _ among part =>
        ⟨fun task member => among task (sound.1 task member), part, sound.2.2⟩
  | settled => exact .done
  | settle there settles =>
      rename_i task count bindings result other change
      cases other with
      | done outcome =>
          rcases settle_eq settles with rfl | ⟨failure, rfl⟩
          · refine ⟨fun binding member => .inl ?_, nofun⟩
            exact sound binding (List.mem_cons_of_mem _ member)
          · exact .done
      | broken defect => exact absurd there (unbroken task defect)
      | _ => cases settles

end Moves

namespace World

variable {world next : World}

/-- Has the task been started by the other one? A parent is a task's number and one, and that of
the run itself is zero. -/
def Owns (world : World) (parent : Nat → Nat) (task other : Nat) : Prop :=
  other < world.tasks.length ∧ parent other = task + 1

/-- May the task wait for the other one? -/
def MayWait (world : World) (parent : Nat → Nat) (task other : Nat) : Prop :=
  world.Owns parent task other ∨
    other < world.tasks.length ∧ other < task ∧ parent other = parent task

theorem MayWait.lt {parent : Nat → Nat} {task other : Nat}
    (waits : world.MayWait parent task other) : other < world.tasks.length := by
  rcases waits with owned | sibling
  · exact owned.1
  · exact sibling.1

structure Sound (footing : Footing machine) (world : World) (parent : Nat → Nat) : Prop where
  parents : ∀ task, parent task ≤ task
  works : ∀ (task : Nat) (work : Work), world.tasks[task]? = some work →
    work.Sound footing (world.MayWait parent task) (world.Owns parent task)

theorem Sound.unbroken {parent : Nat → Nat} (sound : world.Sound footing parent) :
    world.Unbroken := fun task defect there => sound.works task (.broken defect) there

/-- Meeting the end of a task changes no task that is not broken. -/
theorem tasksAfter_eq (unbroken : world.Unbroken) {task : TaskId} {change : Change}
    (whole : ∀ defect, change.work ≠ .broken defect) :
    world.tasksAfter task change = world.tasks.set task change.work ++ change.started := by
  rw [tasksAfter]
  cases change.met with
  | none => rfl
  | some met =>
      refine congrArg (· ++ change.started) (List.ext_getElem? fun other => ?_)
      simp only [Option.elim_some, List.getElem?_modify]
      cases there : (world.tasks.set task change.work)[other]? with
      | none => rfl
      | some work =>
          have same : work.meet = work := by
            cases work with
            | broken defect =>
                rw [List.getElem?_set] at there
                split at there
                · split at there
                  · exact absurd (Option.some.inj there) (whole defect)
                  · cases there
                · exact absurd there (unbroken other defect)
            | _ => rfl
          simp only [Option.map_eq_map, Option.map_some]
          split
          · rw [same]
          · rfl

/-- A task after a move is the moved one, another one, or one that is started. -/
theorem getElem?_moved {tasks started : List Work} {task other : Nat} {work found : Work}
    (there : (tasks.set task work ++ started)[other]? = some found) :
    (other = task ∧ found = work) ∨ (other ≠ task ∧ tasks[other]? = some found) ∨
      ∃ index, other = tasks.length + index ∧ started[index]? = some found := by
  rcases Nat.lt_or_ge other tasks.length with below | above
  · rw [List.getElem?_append_left (by rwa [List.length_set]), List.getElem?_set] at there
    split at there
    · rename_i same
      rw [if_pos (same ▸ below)] at there
      exact .inl ⟨same.symm, (Option.some.inj there).symm⟩
    · rename_i different
      exact .inr (.inl ⟨Ne.symm different, there⟩)
  · rw [List.getElem?_append_right (by rwa [List.length_set]), List.length_set] at there
    exact .inr (.inr ⟨other - tasks.length, by omega, there⟩)

/-- The parents when a task starts more tasks after the ones that there are. -/
def adopt (parent : Nat → Nat) (count task : Nat) (other : Nat) : Nat :=
  if other < count then parent other else task + 1

theorem adopt_le {parent : Nat → Nat} (parents : ∀ task, parent task ≤ task) {count task : Nat}
    (below : task < count) (other : Nat) : adopt parent count task other ≤ other := by
  have := parents other
  rw [adopt]
  split <;> omega

section
variable {parent : Nat → Nat} {task other count : Nat}

/-- A task that starts tasks owns them too. -/
theorem Owns.moved (length : next.tasks.length = world.tasks.length + count)
    (owned : world.Owns parent task other ∨
      world.tasks.length ≤ other ∧ other < world.tasks.length + count) :
    next.Owns (adopt parent world.tasks.length task) task other := by
  simp only [Owns, adopt, length] at owned ⊢
  split <;> omega

theorem MayWait.moved (length : next.tasks.length = world.tasks.length + count)
    (below : task < world.tasks.length)
    (waits : world.MayWait parent task other ∨
      world.tasks.length ≤ other ∧ other < world.tasks.length + count) :
    next.MayWait (adopt parent world.tasks.length task) task other := by
  simp only [MayWait, Owns, adopt, length] at waits ⊢
  split <;> omega

/-- What another task owns or waits for is the same after a move. -/
theorem Owns.stays (length : next.tasks.length = world.tasks.length + count) {another : Nat}
    (owned : world.Owns parent another other) :
    next.Owns (adopt parent world.tasks.length task) another other := by
  simp only [Owns, adopt, length] at owned ⊢
  split <;> omega

theorem MayWait.stays (length : next.tasks.length = world.tasks.length + count) {another : Nat}
    (before : another < world.tasks.length) (waits : world.MayWait parent another other) :
    next.MayWait (adopt parent world.tasks.length task) another other := by
  simp only [MayWait, Owns, adopt, length] at waits ⊢
  split <;> omega

/-- A task that is started waits for what its parent owns or starts before it. -/
theorem MayWait.started (length : next.tasks.length = world.tasks.length + count) {index : Nat}
    (inside : index < count)
    (waits : (world.Owns parent task other ∨ world.tasks.length ≤ other) ∧
      other < world.tasks.length + index) :
    next.MayWait (adopt parent world.tasks.length task) (world.tasks.length + index) other := by
  simp only [MayWait, Owns, adopt, length] at waits ⊢
  split <;> split <;> omega

end

theorem move_sound {parent : Nat → Nat} (sound : world.Sound footing parent) {task : Nat}
    {work : Work} {change : Change} (there : world.tasks[task]? = some work)
    (moves : Moves machine world work change) (same : next.tasks = world.tasksAfter task change) :
    next.tasks = world.tasks.set task change.work ++ change.started ∧
      next.Sound footing (adopt parent world.tasks.length task) := by
  have below : task < world.tasks.length := (List.getElem?_eq_some_iff.mp there).1
  have kept := moves.kept (sound.works task work there) (fun _ => Or.inl)
    (fun _ owned => owned.1) sound.unbroken
  have whole (defect : Defect) (broken : change.work = .broken defect) : False := by
    have work := kept.work
    rw [broken] at work
    exact work
  rw [tasksAfter_eq sound.unbroken whole] at same
  have length : next.tasks.length = world.tasks.length + change.started.length := by
    rw [same, List.length_append, List.length_set]
  refine ⟨same, adopt_le sound.parents below, fun other found member => ?_⟩
  rw [same] at member
  rcases getElem?_moved member with ⟨rfl, rfl⟩ | ⟨_, kept⟩ | ⟨index, rfl, started⟩
  · exact kept.work.mono (fun another => .moved length below) fun another => .moved length
  · have before := (List.getElem?_eq_some_iff.mp kept).1
    exact (sound.works other found kept).mono (fun another => .stays length before)
      fun another => .stays length
  · have inside := (List.getElem?_eq_some_iff.mp started).1
    exact (kept.orderly index found started _).mono (fun another => .started length inside)
      fun _ => id

/-- Whether tasks are sound is a matter of the tasks alone. -/
theorem Sound.same {parent : Nat → Nat} (sound : world.Sound footing parent)
    (same : next.tasks = world.tasks) : next.Sound footing parent := by
  refine ⟨sound.parents, fun task work there => ?_⟩
  rw [same] at there
  have length := congrArg List.length same
  refine (sound.works task work there).mono (fun other waiting => ?_) fun other owned => ?_
  · rwa [MayWait, Owns, length]
  · rwa [Owns, length]

theorem goes_sound {parent : Nat → Nat} (sound : world.Sound footing parent)
    (goes : world.Goes machine next) : ∃ parent, next.Sound footing parent := by
  cases goes with
  | tick _ _ same => exact ⟨parent, sound.same same⟩
  | move there moves _ same => exact ⟨_, (move_sound sound there moves same).2⟩

theorem start_sound {routine : Routine} (supported : routine.Supported footing.allowed)
    (argument : Value) : ∃ parent, (start routine argument).Sound footing parent := by
  refine ⟨fun _ => 0, fun _ => Nat.zero_le _, fun task work there => ?_⟩
  cases task with
  | zero =>
      obtain rfl := Option.some.inj there
      exact (Moves.enter_sound supported argument).1
  | succ task => cases there

/-- All worlds of a run of a supported routine are sound. -/
theorem reaches_sound {routine : Routine} (supported : routine.Supported footing.allowed)
    {argument : Value} (reaches : (start routine argument).Reaches machine world) :
    ∃ parent, world.Sound footing parent := by
  refine @Reaches.keeps machine _ _ (fun world => ∃ parent, world.Sound footing parent) reaches ?_
    (start_sound supported argument)
  intro world next sound goes
  obtain ⟨parent, sound⟩ := sound
  exact goes_sound sound goes

end World

end Runbook
