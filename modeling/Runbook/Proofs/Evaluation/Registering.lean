import Runbook.Proofs.Lowering.Members
import Runbook.Proofs.Evaluation.Order
import Mathlib.Data.List.Infix

/-!
The names that frames register.

A body registers the names of its entries one entry after the other, whether an entry can be set up
or breaks down. So a frame has of each routine that it is for at most what the routine binds, each
name once, and no name of a compiled routine is registered twice in one.
-/
namespace Runbook

/-- The setting of what is begun, if the event tells of that. -/
def Event.setting? : Event → Option Setting
  | .starting _ setting | .binding _ setting => some setting
  | _ => none

namespace SetUp

/-- Between the states some of the first of the names are registered, and things are begun in the
setting. -/
structure Extends (setting : Setting) (names : List Name) (before after : State) : Prop where
  registered : after.frame.names <+: before.frame.names ++ names
  told : ∃ events, after.events = before.events ++ events ∧
    ∀ event ∈ events, event.setting? = some setting

/-- Setting up in the setting registers the names in their order: all of them, or some of the first
if it breaks down. -/
def Registers {α : Type} (setting : Setting) (part : SetUp α) (names : List Name) : Prop :=
  ∀ before after result, part.run.run before = (result, after) →
    Extends setting names before after ∧
    ∀ a, result = .ok a → after.frame.names = before.frame.names ++ names

namespace Registers

variable {α β : Type} {setting : Setting} {names more : List Name}

/-- A part that registers and reports nothing. -/
theorem of_still {part : SetUp α} (still : ∀ before after result,
    part.run.run before = (result, after) →
      after.frame.names = before.frame.names ∧ after.events = before.events) :
    Registers setting part [] := by
  intro before after result run
  obtain ⟨same, quiet⟩ := still before after result run
  rw [List.append_nil]
  refine ⟨⟨?_, [], by rw [List.append_nil, quiet], List.forall_mem_nil _⟩, fun _ _ => same⟩
  rw [List.append_nil, same]

theorem pure (a : α) : Registers setting (Pure.pure a) [] := by
  refine of_still fun before after result run => ?_
  cases run
  exact ⟨rfl, rfl⟩

theorem throw (defect : Defect) :
    Registers setting (MonadExcept.throw defect : SetUp α) names := by
  intro before after result run
  cases run
  exact ⟨⟨List.prefix_append _ _, [], (List.append_nil _).symm, List.forall_mem_nil _⟩,
    fun _ same => by cases same⟩

theorem bind {part : SetUp α} {next : α → SetUp β} (first : Registers setting part names)
    (rest : ∀ a, Registers setting (next a) more) :
    Registers setting (part >>= next) (names ++ more) := by
  intro before after result run
  rw [run_bind] at run
  cases parts : part.run.run before with
  | mk outcome middle =>
      rw [parts] at run
      obtain ⟨⟨some, told, events, tells⟩, all⟩ := first _ _ _ parts
      cases outcome with
      | error defect =>
          cases run
          refine ⟨⟨?_, told, events, tells⟩, fun _ same => by cases same⟩
          rw [← List.append_assoc]
          exact some.trans (List.prefix_append _ _)
      | ok a =>
          obtain ⟨⟨others, later, happened, also⟩, every⟩ := rest a _ _ _ run
          rw [all a rfl, List.append_assoc] at others every
          refine ⟨⟨others, told ++ later, ?_, List.forall_mem_append.mpr ⟨tells, also⟩⟩, every⟩
          rw [happened, events, List.append_assoc]

/-- A part that registers nothing is followed by another one. -/
theorem skip {part : SetUp α} {next : α → SetUp β} (first : Registers setting part [])
    (rest : ∀ a, Registers setting (next a) more) : Registers setting (part >>= next) more :=
  first.bind rest

/-- What follows a part registers nothing more. -/
theorem close {part : SetUp α} {next : α → SetUp β} (first : Registers setting part names)
    (rest : ∀ a, Registers setting (next a) []) : Registers setting (part >>= next) names := by
  have whole := first.bind rest
  rwa [List.append_nil] at whole

theorem map {part : SetUp α} (first : Registers setting part names) (f : α → β) :
    Registers setting (part >>= fun a => Pure.pure (f a)) names := first.close fun a => pure (f a)

theorem report {event : Event} (tells : event.setting? = some setting) :
    Registers setting (SetUp.report event) [] := by
  intro before after result run
  cases run
  rw [List.append_nil]
  refine ⟨⟨?_, [event], rfl, List.forall_mem_singleton.mpr tells⟩, fun _ _ => rfl⟩
  rw [List.append_nil]

theorem start (work : Work) : Registers setting (SetUp.start work) [] := by
  refine of_still fun before after result run => ?_
  cases run
  exact ⟨rfl, rfl⟩

theorem register (names : List Name) (observed : Bool) (work : Work) :
    Registers setting (SetUp.bind names observed work) names := by
  intro before after result run
  cases run
  rw [Frame.names_add]
  refine ⟨⟨?_, [], (List.append_nil _).symm, List.forall_mem_nil _⟩, fun _ _ => rfl⟩
  rw [Frame.names_add]
  exact List.prefix_rfl

theorem read (name : Name) : Registers setting (SetUp.read name) [] := by
  refine of_still fun before after result run => ?_
  rw [SetUp.read, run_bind] at run
  have fetched : (get : SetUp State).run.run before = (.ok before, before) := rfl
  rw [fetched] at run
  simp only at run
  split at run
  · cases run
    exact ⟨rfl, rfl⟩
  · cases run
    exact ⟨rfl, rfl⟩
  · cases run
    exact ⟨Frame.names_observe _ _, rfl⟩

end Registers

variable {registry : Registry}

mutual

theorem setUp_registers (setting : Setting) : ∀ step : Step,
    Registers setting (setUp registry setting step) step.binders
  | .literal literal => by
      rw [setUp, Step.binders]
      exact setUpLiteral_registers setting literal
  | .bind names step => by
      rw [setUp, Step.binders]
      refine Registers.skip (.report rfl) fun _ => ?_
      refine (setUp_registers setting step).bind fun work => ?_
      exact (Registers.register names true work).map _
  | .call callee argument => by
      rw [setUp, Step.binders]
      exact (setUp_registers setting argument).map _
  | .invoke name argument => by
      rw [setUp, Step.binders]
      split
      · exact .throw _
      · split
        · rename_i left right _
          rw [Step.binders, stepsBinders, stepsBinders, stepsBinders, List.append_nil]
          refine (setUp_registers setting left).bind fun first => ?_
          refine Registers.skip (.start first) fun one => ?_
          exact (setUp_registers setting right).close fun second => (Registers.start second).map _
        · exact (setUp_registers setting _).map _
  | .tuple steps => by
      rw [setUp, Step.binders]
      exact (setUpAll_registers setting steps).map _
  | .read name => by
      rw [setUp, Step.binders]
      exact .read name

theorem setUpLiteral_registers (setting : Setting) : ∀ literal : Literal,
    Registers setting (setUpLiteral registry setting literal) literal.binders
  | .unit | .text _ | .quantity _ => by
      rw [setUpLiteral, Literal.binders]
      exact .pure _
  | .tablet fields => by
      rw [setUpLiteral, Literal.binders]
      exact (setUpFields_registers setting fields).map _

theorem setUpAll_registers (setting : Setting) : ∀ steps : List Step,
    Registers setting (setUpAll registry setting steps) (stepsBinders steps)
  | [] => by
      rw [setUpAll, stepsBinders]
      exact .pure _
  | step :: steps => by
      rw [setUpAll, stepsBinders]
      exact (setUp_registers setting step).bind fun _ => (setUpAll_registers setting steps).map _

theorem setUpFields_registers (setting : Setting) : ∀ fields : List (Label × Step),
    Registers setting (setUpFields registry setting fields) (fieldsBinders fields)
  | [] => by
      rw [setUpFields, fieldsBinders]
      exact .pure _
  | (_, step) :: fields => by
      rw [setUpFields, fieldsBinders]
      exact (setUp_registers setting step).bind fun _ =>
        (setUpFields_registers setting fields).map _

end

theorem setUpEntry_registers (index : Nat) (isLast : Bool) (entry : Entry) :
    Registers entry.setting (setUpEntry registry index isLast entry) entry.step.binders := by
  obtain ⟨setting, step⟩ := entry
  rw [setUpEntry]
  refine Registers.skip (.report rfl) fun _ => ?_
  split
  · rename_i names inner same
    simp only at same
    rw [same, Step.binders]
    refine Registers.skip (.report rfl) fun _ => ?_
    refine (setUp_registers setting inner).bind fun work => ?_
    refine (Registers.register names isLast work).close fun task => ?_
    split
    · exact .pure _
    · exact .pure _
  · exact setUp_registers setting _

end SetUp

mutual

/-- For each body in the work, the names of its frame and those that its entries ahead bind. -/
def Work.rosters : Work → List (List Name)
  | .done _ | .broken _ | .sleep _ _ | .wait _ | .race _ _ | .settle _ _ => []
  | .fresh work => work.rosters
  | .after source _ => source.rosters
  | .gather _ members => rostersOfAll members
  | .body frame current _ entries => (frame.names ++ Sequence.binders entries) :: current.rosters

def Work.rostersOfAll : List Work → List (List Name)
  | [] => []
  | work :: works => work.rosters ++ rostersOfAll works

end

namespace Work

theorem mem_rostersOfAll {works : List Work} {roster : List Name} :
    roster ∈ rostersOfAll works ↔ ∃ work ∈ works, roster ∈ work.rosters := by
  induction works with
  | nil => simp [rostersOfAll]
  | cons work works ih => rw [rostersOfAll, List.mem_append, ih, List.exists_mem_cons_iff]

mutual

/-- A roster begins with the names of the frame of its body. -/
theorem rosters_bodies : ∀ work : Work,
    List.Forall₂ (fun roster body => body.1.names <+: roster) work.rosters work.bodies
  | .done _ | .broken _ | .sleep _ _ | .wait _ | .race _ _ | .settle _ _ => .nil
  | .fresh work => rosters_bodies work
  | .after source _ => rosters_bodies source
  | .gather _ members => rostersOfAll_bodies members
  | .body _ current _ _ => .cons (List.prefix_append _ _) (rosters_bodies current)

theorem rostersOfAll_bodies : ∀ works : List Work,
    List.Forall₂ (fun roster body => body.1.names <+: roster) (rostersOfAll works)
      (bodiesOfAll works)
  | [] => .nil
  | work :: works => List.rel_append (rosters_bodies work) (rostersOfAll_bodies works)

end

theorem rosters_of_bodies {work : Work} (none : work.bodies = []) : work.rosters = [] := by
  have rosters := rosters_bodies work
  rw [none] at rosters
  exact List.forall₂_nil_right_iff.mp rosters

/-- In no body of the work is a name registered twice, now or with what is ahead. -/
def Distinct (work : Work) : Prop := ∀ roster ∈ work.rosters, roster.Nodup

theorem Distinct.of_bodies {work : Work} (none : work.bodies = []) : work.Distinct := by
  rw [Distinct, rosters_of_bodies none]
  exact List.forall_mem_nil _

theorem Distinct.of_ended {work : Work} (ends : work.ended? = some work) : work.Distinct :=
  .of_bodies (awaits_ended ends).2.2

theorem Distinct.names {work : Work} (distinct : work.Distinct) :
    ∀ body ∈ work.bodies, body.1.names.Nodup := by
  intro body member
  obtain ⟨index, here⟩ := List.mem_iff_getElem?.mp member
  have rosters := List.forall₂_iff_get.mp (rosters_bodies work)
  obtain ⟨below, same⟩ := List.getElem?_eq_some_iff.mp here
  have within : index < work.rosters.length := rosters.1 ▸ below
  have registered := rosters.2 index within below
  have whole := distinct _ (List.get_mem work.rosters ⟨index, within⟩)
  rw [List.get_eq_getElem, List.get_eq_getElem, same] at registered
  exact registered.sublist.nodup whole

theorem distinct_gather {shape : Shape} {members : List Work} :
    (gather shape members).Distinct ↔ ∀ member ∈ members, member.Distinct := by
  rw [Distinct, rosters]
  simp only [mem_rostersOfAll]
  exact ⟨fun all member inside roster mem => all roster ⟨member, inside, mem⟩,
    fun all roster found => found.elim fun member mem => all member mem.1 roster mem.2⟩

@[simp] theorem rosters_meet (work : Work) : work.meet.rosters = work.rosters := by
  cases work <;> rfl

end Work

/-- A routine that is entered has the names of its parameters, and those of its sequence ahead. -/
theorem Routine.enter_distinct {routine : Routine} (distinct : routine.binders.Nodup)
    (argument : Value) : (enter routine argument).work.Distinct := by
  have none {names : List Name} (same : names = routine.binders) : names.Nodup := same ▸ distinct
  rw [enter]
  split
  · rename_i empty
    refine List.forall_mem_singleton.mpr (none ?_)
    rw [binders, List.isEmpty_iff.mp empty]
    rfl
  · dsimp only
    split
    · rename_i values same _
      refine List.forall_mem_singleton.mpr (none ?_)
      rw [Frame.ofParameters_names same, binders]
    · exact .of_ended rfl

/-- What a work becomes when it goes on with a value is entered, or has no body in it. -/
theorem Machine.goOn_distinct {machine : Machine}
    (library : ∀ callee routine, machine.library.get? callee = some routine →
      routine.binders.Nodup) (clock : Nat) (value : Value) (next : Continuation) :
    (machine.goOn clock value next).work.Distinct := by
  have perform (primitive : Primitive) (events : List Event) :
      (goOn.perform clock value primitive events).work.Distinct := by
    simp only [goOn.perform]
    split
    · exact .of_ended rfl
    · exact .of_bodies rfl
  cases next with
  | pick names place =>
      rw [goOn]
      split
      · exact .of_ended rfl
      · exact .of_ended rfl
  | call callee =>
      rw [goOn]
      split
      · exact Routine.enter_distinct (library callee _ ‹_›) value
      · exact .of_ended rfl
  | invoke primitive => exact perform primitive _
  | join primitive => exact perform primitive _

variable {machine : Machine} {world next : World}

/-- The frame that setting an entry up leaves begins the roster of its body. -/
theorem Begins.distinct {work : Work} {change : Change} {after : Frame}
    (begins : Begins machine world work change after) (distinct : work.Distinct) :
    after.names.Nodup := by
  induction begins with
  | @entry frame value index entry entries result state run =>
      have registered :=
        (SetUp.setUpEntry_registers index entries.isEmpty entry _ _ _ run).1.registered
      have whole := distinct _ List.mem_cons_self
      refine (registered.trans ?_).sublist.nodup whole
      rw [Sequence.binders, List.map_cons, stepsBinders, ← List.append_assoc]
      exact List.prefix_append _ _
  | source _ ih => exact ih distinct
  | member _ ih =>
      rw [Work.distinct_gather, List.forall_mem_append, List.forall_mem_cons] at distinct
      exact ih distinct.2.1
  | current _ ih => exact ih (List.forall_mem_cons.mp distinct).2

/-- Moves register names that were ahead. -/
theorem Moves.distinct {work : Work} {change : Change} {own : TaskId → Prop}
    (moves : Moves machine world work change)
    (library : ∀ callee routine, machine.library.get? callee = some routine →
      routine.binders.Nodup)
    (framed : work.Framed own) (below : ∀ task : Nat, own task → task < world.tasks.length)
    (distinct : work.Distinct) : change.work.Distinct := by
  induction moves with
  | fresh => exact distinct
  | wait _ ends => exact .of_ended ends
  | race won => exact .of_ended (Machine.race_ended won)
  | wake _ => exact .of_ended rfl
  | goOn => exact Machine.goOn_distinct library _ _ _
  | fail => exact .of_ended rfl
  | breaks => exact .of_ended rfl
  | source _ ih => exact ih framed distinct
  | spoil spoiled =>
      obtain ⟨_, _, fails⟩ := spoiled_mem spoiled
      exact .of_ended (Work.ended?_of_failed? fails)
  | collect _ => exact .of_ended rfl
  | member _ ih =>
      rw [Work.framed_gather, List.forall_mem_append, List.forall_mem_cons] at framed
      rw [Work.distinct_gather, List.forall_mem_append, List.forall_mem_cons] at distinct
      exact Work.distinct_gather.mpr (List.forall_mem_append.mpr ⟨distinct.1,
        List.forall_mem_cons.mpr ⟨ih framed.2.1 distinct.2.1, distinct.2.2⟩⟩)
  | last => exact .of_bodies rfl
  | @begin frame value index entry entries =>
      obtain ⟨filled, sorted, _⟩ := framed _ List.mem_cons_self
      obtain ⟨result, state, run, _, fits⟩ :=
        @SetUp.ranks_setUpEntry machine.registry _ _ index entries.isEmpty entry
          (fun task mem => below task (filled task mem)) sorted
      obtain ⟨_, registers⟩ := SetUp.setUpEntry_registers index entries.isEmpty entry _ _ _ run
      rw [Machine.begin, run]
      cases result with
      | error defect => exact .of_ended rfl
      | ok current =>
          have whole := distinct _ List.mem_cons_self
          rw [Sequence.binders, List.map_cons, stepsBinders, ← List.append_assoc,
            ← registers current rfl] at whole
          refine List.forall_mem_cons.mpr ⟨whole, ?_⟩
          exact Work.Distinct.of_bodies (fits current rfl).bodies
  | bodyFails => exact .of_ended rfl
  | bodyBreaks => exact .of_ended rfl
  | current _ ih =>
      obtain ⟨here, inside⟩ := List.forall_mem_cons.mp distinct
      exact List.forall_mem_cons.mpr ⟨here, ih (List.forall_mem_cons.mp framed).2 inside⟩
  | settled => exact .of_ended rfl
  | settle _ settles =>
      rcases settle_cases settles with rfl | ⟨_, _, ends, rfl⟩
      · exact .of_bodies rfl
      · exact .of_ended ends

/-- In no task of a run is a name registered twice in a frame. -/
theorem World.reaches_distinct {routine : Routine} {argument : Value}
    (main : routine.binders.Nodup)
    (library : ∀ callee routine, machine.library.get? callee = some routine →
      routine.binders.Nodup)
    (reaches : (World.start routine argument).Reaches machine world) :
    ∀ (task : TaskId) (work : Work), world.tasks[task]? = some work → work.Distinct := by
  refine reaches.works (Routine.enter_distinct main argument) (fun work distinct => ?_)
    fun follows distinct stands moves => ?_
  · rwa [Work.Distinct, Work.rosters_meet]
  · obtain ⟨awaits, framed, asks⟩ := follows.heeds _ _ stands
    have kept := moves.keeps asks awaits framed (fun _ => Or.inl) (fun _ owned => owned.1)
    refine ⟨moves.distinct library framed (fun _ owned => owned.1) (distinct _ _ stands), ?_⟩
    intro work started
    obtain ⟨index, begun⟩ := List.mem_iff_getElem?.mp started
    exact .of_bodies (kept.started index work begun).2

theorem Library.binders_sublist {library : Library} {callee : Callee} {routine : Routine}
    (found : library.get? callee = some routine) : routine.binders.Sublist library.binders := by
  induction library with
  | nil => cases found
  | cons entry library ih =>
      obtain ⟨other, kept⟩ := entry
      rw [get?] at found
      rw [binders, List.flatMap_cons]
      split at found
      · cases found
        exact List.sublist_append_left _ _
      · exact (ih found).trans (List.sublist_append_right _ _)

/-- What a document compiles to has its procedures of any depth as the members of its library, the
first of which is the routine itself, and binds each name once; so no frame of a run, not even one
that breaks down, registers a name twice. -/
theorem Document.compile_structured {document : Document} {source : Source}
    {primitives : List Identifier} {routine : Routine}
    (compiled : document.compile source primitives = .ok routine) :
    document.Fills routine.library ∧
    (Library.binders routine.library).Nodup ∧
    (∃ main, Library.get? routine.library 0 = some main ∧
      routine = { main with library := routine.library }) ∧
    ∀ (registry : Registry) (argument : Value) (world : World),
      (World.start routine argument).Reaches ⟨registry, routine.library⟩ world →
      ∀ work ∈ world.tasks, (∀ body ∈ work.bodies, body.1.names.Nodup) ∧
        ∀ change after, Begins ⟨registry, routine.library⟩ world work change after →
          after.names.Nodup := by
  have made := compile_eq_ok.mp compiled
  have distinct := Lowering.document_distinct made
  obtain ⟨_, last, main, _, found, rfl⟩ := Lowering.makes_document.mp made
  have member {callee : Callee} {other : Routine}
      (found : Library.get? last.library callee = some other) : other.binders.Nodup :=
    (Library.binders_sublist found).nodup distinct
  refine ⟨Lowering.document_fills made, distinct, ⟨main, found, rfl⟩, ?_⟩
  intro registry argument world reaches work inside
  obtain ⟨task, there⟩ := List.mem_iff_getElem?.mp inside
  have first : main.binders.Nodup := member found
  have whole := @World.reaches_distinct _ _ { main with library := last.library } _ first
    (fun _ _ => member) reaches task work there
  exact ⟨whole.names, fun _ _ begins => begins.distinct whole⟩

/-- Procedures are declared in an operand, in a field of a tablet, and in one of those. -/
def Document.nesting : Document where
  procedures := [
    ⟨0, "main", ["x"], none, [
      .assignment 0 ["y", "z"] (.operation 0 .waitBoth
        (.restriction 0 (.role "cook") [
          .assignment 0 ["a"] (.application 0 "inner" (.reference 0 ["x"])),
          .declaration 0 ⟨0, "inner", ["b"], none, [
            .declaration 0 ⟨0, "deep", [], none, [.assignment 0 ["c"] (.unit 0)]⟩,
            .execute 0 (.application 0 "deep" (.unit 0))]⟩])
        (.tablet 0 [("kept", .restriction 0 .inherit [
          .declaration 0 ⟨0, "aside", [], none, [.assignment 0 ["x"] (.unit 0)]⟩,
          .assignment 0 ["x"] (.application 0 "last" (.unit 0))])]))]⟩,
    ⟨0, "last", [], none, [.execute 0 (.text 0 "done")]⟩]

theorem Document.compile_structured_nesting : ∃ routine,
    nesting.compile ⟨"", ""⟩ [] = .ok routine ∧
    (routine.library.map fun entry => (entry.1, entry.2.binders.map Name.show)) =
      [(0, ["x#0", "a#1", "x#4", "y#6", "z#7"]), (1, []), (2, ["b#2"]), (3, ["c#3"]),
        (4, ["x#5"])] ∧
    nesting.Fills routine.library := by
  have made : (nesting.compile ⟨"", ""⟩ []).toOption.map (fun routine =>
      routine.library.map fun entry => (entry.1, entry.2.binders.map Name.show)) =
      some [(0, ["x#0", "a#1", "x#4", "y#6", "z#7"]), (1, []), (2, ["b#2"]), (3, ["c#3"]),
        (4, ["x#5"])] := by decide +kernel
  cases compiled : nesting.compile ⟨"", ""⟩ [] with
  | error diagnostic =>
      rw [compiled] at made
      cases made
  | ok routine =>
      rw [compiled] at made
      exact ⟨routine, rfl, Option.some.inj made, (compile_structured compiled).1⟩

end Runbook
