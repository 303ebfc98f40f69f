import Runbook.Proofs.Evaluation.Groups
import Runbook.Proofs.Evaluation.Once

/-!
What a run lacks when it breaks down.

A work breaks down by itself where an invocation begins an entry that cannot be set up, or calls a
procedure that is not in the library. All other defects have been waited for: the first work that
waits for a task which has broken down has the same defect, and the others that the defect has been
met. So each defect in a run leads back to a primitive, a procedure or a name that is missing.
-/
namespace Runbook

/-- In the step from one world to the next, a part of a task breaks down for the defect: it performs
a primitive that is not registered, reads a name that nothing has bound when it is the turn of the
reading, or calls a procedure that is not in the library. -/
inductive World.Lacks (machine : Machine) (main : Routine) (argument : Value) (world next : World) :
    Defect → Prop
  | primitive {routine task place start name operand state} {site : Site} :
      site.Occurs machine main argument routine task place start (.invoke name operand) →
      site.Arrives machine task place start (.invoke name operand) world next state →
      machine.registry.lookup name = none →
      next.part? task place = some (.broken (.unknownPrimitive name)) →
      Lacks machine main argument world next (.unknownPrimitive name)
  | name {routine : Routine} {task place start name state} {site : Site} :
      site.Occurs machine main argument routine task place start (.read name) →
      site.Arrives machine task place start (.read name) world next state →
      (∀ group ∈ site.groups routine.parameters, name ∉ group) →
      next.part? task place = some (.broken (.unboundName name)) →
      Lacks machine main argument world next (.unboundName name)
  | routine {task place value callee} :
      (World.start main argument).Reaches machine world → world.step? machine = some next →
      world.part? task place = some (.after (.done (.ok value)) (.call callee)) →
      machine.library.get? callee = none →
      next.part? task place = some (.broken (.missingRoutine callee)) →
      Lacks machine main argument world next (.missingRoutine callee)

/-- What is behind a defect that is found in the world: it has arisen where the run lacks something;
or a task has broken down for a defect that has so arisen, and another work has met it. -/
inductive World.Accounts (machine : Machine) (main : Routine) (argument : Value) (world : World) :
    Defect → Prop
  | arisen {defect} {earlier next : World} : earlier.Lacks machine main argument next defect →
      next.Reaches machine world → Accounts machine main argument world defect
  | met {cause} {task : TaskId} {first second earlier next : World} :
      first.Lacks machine main argument second cause → second.Reaches machine earlier →
      earlier.tasks[task]? = some (Work.broken cause) → earlier.step? machine = some next →
      next.tasks[task]? = some (Work.broken .met) → next.Reaches machine world →
      Accounts machine main argument world .met

/-- In its next move the work breaks down by itself for the defect. -/
inductive Work.Faults (machine : Machine) (next : TaskId) : Work → Defect → Prop
  | call {value callee} : machine.library.get? callee = none →
      Faults machine next (.after (.done (.ok value)) (.call callee)) (.missingRoutine callee)
  | entry {frame value index entry entries defect after} :
      (setUpEntry machine.registry index entries.isEmpty entry).Breaks ⟨frame, next, [], []⟩ defect
        after →
      Faults machine next (.body frame (.done (.ok value)) index (entry :: entries)) defect

/-- An entry that is set up meets no defect. -/
theorem SetsUpEntry.whole {registry : Registry} {frame after : Frame} {next : TaskId}
    {isLast : Bool} {step : Step} {work : Work} {started : List Work}
    (sets : SetsUpEntry registry frame next isLast step work started after) :
    work.defects = [] ∧ Work.defectsOfAll started = [] := by
  cases sets with
  | bind sets =>
      obtain ⟨own, others⟩ := sets.whole
      refine ⟨by cases isLast <;> rfl, ?_⟩
      rw [Work.defectsOfAll_append, others]
      exact own
  | other _ sets =>
      obtain ⟨own, others⟩ := sets.whole
      exact ⟨(List.append_nil _).symm.trans own, others⟩

/-- The tasks that are started for an entry which cannot be set up meet no defect. -/
theorem SetUp.breaks_whole {registry : Registry} {index : Nat} {isLast : Bool} {entry : Entry}
    {frame : Frame} {next : TaskId} {defect : Defect} {after : State}
    (breaks : (setUpEntry registry index isLast entry).Breaks ⟨frame, next, [], []⟩ defect after) :
    Work.defectsOfAll after.started = [] := by
  obtain ⟨_, _, _, arrives, _⟩ := setUpEntry_breaks breaks
  obtain ⟨works, started, whole⟩ := arrives.does.started
  rw [started]
  exact whole

section
variable {machine : Machine} {main : Routine} {argument : Value} {world next : World}
  {work : Work} {change : Change} {defect : Defect} {task : TaskId} {place : List Nat}

theorem Machine.enter_whole (routine : Routine) (argument : Value) :
    (enter routine argument).work.defects = [] := by
  rcases Moves.enter_cases routine argument with ⟨frame, same⟩ | ⟨outcome, same⟩
  · rw [same]
    rfl
  · rw [same]
    rfl

/-- With a value at hand, a work breaks down only for a procedure that is missing. -/
theorem Machine.goOn_faults {clock : Nat} {value : Value} {use : Continuation}
    (there : defect ∈ (machine.goOn clock value use).work.defects) (count : TaskId) :
    (Work.after (.done (.ok value)) use).Faults machine count defect ∧
      (machine.goOn clock value use).work = .broken defect := by
  have perform (primitive : Primitive) (events : List Event) :
      (goOn.perform clock value primitive events).work.defects = [] := by
    simp only [goOn.perform]
    split <;> rfl
  cases use with
  | pick names place =>
      rw [goOn] at there
      split at there <;> cases there
  | call callee =>
      rw [goOn] at there ⊢
      cases found : machine.library.get? callee with
      | some routine =>
          rw [found] at there
          rw [enter_whole] at there
          cases there
      | none =>
          rw [found] at there
          obtain rfl := List.mem_singleton.mp there
          exact ⟨.call found, rfl⟩
  | invoke primitive =>
      rw [goOn, perform] at there
      cases there
  | join primitive =>
      rw [goOn, perform] at there
      cases there

namespace Moves

/-- A move meets the end of a task that has ended. -/
theorem met_ended (moves : Moves machine world work change) (met : change.met = some task) :
    ∃ ended, world.tasks[task]? = some ended ∧ ended.ended? = some ended := by
  induction moves with
  | wait there ends =>
      cases met
      exact ⟨_, there, ends⟩
  | goOn =>
      rw [Machine.goOn_met] at met
      cases met
  | @begin frame value index entry entries =>
      rcases machine.begin_cases world.tasks.length frame index entry entries with
        ⟨_, _, _, same⟩ | ⟨_, _, _, same⟩
      · rw [same] at met
        cases met
      · rw [same] at met
        cases met
  | source _ ih => exact ih met
  | member _ ih => exact ih met
  | current _ ih => exact ih met
  | @settle _ count bindings result other _ there settles =>
      cases met
      refine ⟨other, there, ?_⟩
      cases other with
      | done outcome => rfl
      | broken defect => rfl
      | _ => cases settles
  | _ => cases met

/-- A task after a move is the moved one, or is as it was before or has been started; or another
work has met its defect. -/
theorem tasksAfter_cases {other : TaskId} {found : Work} (moves : Moves machine world work change)
    (stands : world.tasks[task]? = some work)
    (there : (world.tasksAfter task change)[other]? = some found) :
    (other = task ∧ found = change.work) ∨ world.tasks[other]? = some found ∨
      (∃ defect, world.tasks[other]? = some (.broken defect) ∧ found = .broken .met) ∨
      found ∈ change.started := by
  have moved {found : Work}
      (there : (world.tasks.set task change.work ++ change.started)[other]? = some found) :
      (other = task ∧ found = change.work) ∨ world.tasks[other]? = some found ∨
        found ∈ change.started := by
    rcases World.getElem?_moved there with same | ⟨_, same⟩ | ⟨_, _, begun⟩
    · exact .inl same
    · exact .inr (.inl same)
    · exact .inr (.inr (List.mem_of_getElem? begun))
  rw [World.tasksAfter] at there
  cases meets : change.met with
  | none =>
      rw [meets] at there
      exact (moved there).imp_right (Or.imp_right .inr)
  | some met =>
      rw [meets, Option.elim_some] at there
      obtain ⟨ended, ends, same⟩ := moves.met_ended meets
      have differs : task ≠ met := by
        rintro rfl
        obtain rfl := Option.some.inj (ends.symm.trans stands)
        cases ended with
        | done outcome => cases moves
        | broken defect => cases moves
        | _ => cases same
      by_cases here : met = other
      · subst here
        have below := (List.getElem?_eq_some_iff.mp ends).1
        rw [List.getElem?_append_left (by rwa [List.length_modify, List.length_set]),
          List.getElem?_modify, List.getElem?_set_ne differs, ends] at there
        simp only [if_true, Option.map_eq_map, Option.map_some] at there
        obtain rfl := Option.some.inj there
        cases ended with
        | broken defect => exact .inr (.inr (.inl ⟨defect, ends, rfl⟩))
        | _ => exact .inr (.inl ends)
      · refine (moved ?_).imp_right (Or.imp_right .inr)
        rw [← there, List.getElem?_append, List.getElem?_append, List.length_modify,
          List.getElem?_modify]
        simp only [if_neg here, Option.map_eq_map, Option.map_id']

/-- A defect after a move has been there before, in the work or in another task; or a part of the
work has broken down by itself. -/
theorem defects (moves : Moves machine world work change) (there : defect ∈ change.work.defects) :
    defect ∈ work.defects ∨ (∃ other ∈ world.tasks, defect ∈ other.defects) ∨
      ∃ place part, work.part? place = some part ∧
        part.Faults machine world.tasks.length defect ∧
        change.work.part? place = some (.broken defect) := by
  have ended {task : TaskId} {found : Work}
      (ends : world.tasks[task]?.bind Work.ended? = some found) (there : defect ∈ found.defects) :
      ∃ other ∈ world.tasks, defect ∈ other.defects := by
    obtain ⟨other, stands, ends⟩ := Option.bind_eq_some_iff.mp ends
    obtain rfl := Machine.ended?_eq ends
    exact ⟨_, List.mem_of_getElem? stands, there⟩
  induction moves with
  | fresh => exact .inl there
  | wait stands _ => exact .inr (.inl ⟨_, List.mem_of_getElem? stands, there⟩)
  | race won =>
      obtain ⟨found, ends, ⟨_, _, same⟩ | ⟨_, same⟩⟩ := Machine.race_cases won
      · subst same
        cases there
      · subst same
        exact .inr (.inl (ends.elim (ended · there) (ended · there)))
  | goOn =>
      obtain ⟨faults, same⟩ := Machine.goOn_faults there world.tasks.length
      exact .inr (.inr ⟨[], _, rfl, faults, congrArg some same⟩)
  | breaks => exact .inl there
  | bodyBreaks => exact .inl there
  | source _ ih =>
      rcases ih there with here | other | ⟨place, part, inside, faults, broke⟩
      · exact .inl here
      · exact .inr (.inl other)
      · exact .inr (.inr ⟨0 :: place, part, inside, faults, broke⟩)
  | current _ ih =>
      rcases ih there with here | other | ⟨place, part, inside, faults, broke⟩
      · exact .inl here
      · exact .inr (.inl other)
      · exact .inr (.inr ⟨0 :: place, part, inside, faults, broke⟩)
  | spoil spoiled =>
      obtain ⟨member, among, fails⟩ := spoiled_mem spoiled
      refine .inl (Work.mem_defectsOfAll.mpr ⟨member, among, ?_⟩)
      cases member with
      | done outcome =>
          cases outcome with
          | ok value => cases fails
          | error failure =>
              cases fails
              cases there
      | broken other =>
          cases fails
          exact there
      | _ => cases fails
  | @member shape earlier member others change _ ih =>
      obtain ⟨found, among, inside⟩ := Work.mem_defectsOfAll.mp there
      have kept (among : found ∈ earlier ++ member :: others) :
          defect ∈ (Work.gather shape (earlier ++ member :: others)).defects :=
        Work.mem_defectsOfAll.mpr ⟨found, among, inside⟩
      rcases List.mem_append.mp among with before | among
      · exact .inl (kept (List.mem_append_left _ before))
      · rcases List.mem_cons.mp among with rfl | after
        · rcases ih inside with here | other | ⟨place, part, stands, faults, broke⟩
          · exact .inl (Work.mem_defectsOfAll.mpr
              ⟨member, List.mem_append_right _ List.mem_cons_self, here⟩)
          · exact .inr (.inl other)
          · refine .inr (.inr ⟨earlier.length :: place, part, ?_, faults, ?_⟩)
            · exact Option.bind_eq_some_iff.mpr ⟨_, getElem?_middle earlier member others, stands⟩
            · exact Option.bind_eq_some_iff.mpr ⟨_, getElem?_middle earlier _ others, broke⟩
        · exact .inl (kept (List.mem_append_right _ (List.mem_cons_of_mem _ after)))
  | @begin frame value index entry entries =>
      rcases SetUp.gives_or_breaks (setUpEntry machine.registry index entries.isEmpty entry)
          ⟨frame, world.tasks.length, [], []⟩ with ⟨work, after, gives⟩ | ⟨other, after, breaks⟩
      · rw [Machine.begin_gives gives] at there
        have none : work.defects = [] := (SetUp.setUpEntry_makes gives).whole.1
        cases none ▸ there
      · have same := Machine.begin_breaks breaks
        rw [same] at there
        obtain rfl := List.mem_singleton.mp there
        rw [same]
        exact .inr (.inr ⟨[], _, rfl, .entry breaks, rfl⟩)
  | @settle _ count bindings result other _ stands settles =>
      cases other with
      | done outcome =>
          rcases settle_eq settles with rfl | ⟨failure, rfl⟩
          · cases there
          · cases there
      | broken found =>
          cases settles
          exact .inr (.inl ⟨_, List.mem_of_getElem? stands, there⟩)
      | _ => cases settles
  | _ => cases there

/-- The tasks that a move starts meet no defect. -/
theorem started_whole (moves : Moves machine world work change) :
    Work.defectsOfAll change.started = [] := by
  rcases moves.starts with none | ⟨_, frame, _, index, entry, entries, _, _, same⟩
  · rw [none]
    rfl
  · rw [same]
    rcases SetUp.gives_or_breaks (setUpEntry machine.registry index entries.isEmpty entry)
        ⟨frame, world.tasks.length, [], []⟩ with ⟨work, after, gives⟩ | ⟨other, after, breaks⟩
    · rw [Machine.begin_gives gives]
      exact (SetUp.setUpEntry_makes gives).whole.2
    · rw [Machine.begin_breaks breaks]
      exact SetUp.breaks_whole breaks

end Moves

/-- Where a part of a task breaks down by itself, the run lacks something. -/
theorem Work.Faults.lacks {part : Work} (faults : part.Faults machine world.tasks.length defect)
    (reaches : (World.start main argument).Reaches machine world)
    (stepped : world.step? machine = some next) (there : world.part? task place = some part)
    (broke : next.part? task place = some (.broken defect)) :
    world.Lacks machine main argument next defect := by
  cases faults with
  | call missing => exact .routine reaches stepped there missing broke
  | @entry frame value index entry entries _ after breaks =>
      obtain ⟨routine, start, bound, opens, proceeds⟩ := reaches.invoked there
      obtain ⟨_, ahead⟩ := opens.made proceeds there
      obtain ⟨context, step, same, arrives, stuck⟩ := SetUp.setUpEntry_breaks breaks
      obtain ⟨setting, whole⟩ := entry
      dsimp only at same arrives
      subst same
      have below : index < routine.sequence.length := by
        rw [← Nat.not_le, ← List.drop_eq_nil_iff, ahead]
        exact List.cons_ne_nil _ _
      have length : (routine.sequence.take index).length = index :=
        List.length_take_of_le (Nat.le_of_lt below)
      let site : Site := ⟨routine.sequence.take index, setting, context, entries⟩
      have inside : routine.sequence = site.sequence step := by
        change _ = routine.sequence.take index ++ ⟨setting, context.fill step⟩ :: entries
        rw [← ahead, List.take_append_drop]
      have begins : site.Arrives machine task place start step world next after := by
        refine ⟨bound, frame, value, proceeds, stepped, ?_, ?_, ?_⟩
        · rw [length]
          exact there
        · rw [length, Machine.begin_breaks breaks]
          exact broke
        · rw [length]
          exact arrives
      cases stuck with
      | primitive missing => exact .primitive ⟨opens, inside⟩ begins missing broke
      | name missing =>
          refine .name ⟨opens, inside⟩ begins ?_ broke
          rw [← begins.groups opens inside]
          exact Frame.absent_of_find? missing

namespace World

theorem Accounts.later {last : World} (accounts : world.Accounts machine main argument defect)
    (reaches : world.Reaches machine last) : last.Accounts machine main argument defect := by
  cases accounts with
  | arisen lacks onward => exact .arisen lacks (onward.trans reaches)
  | met lacks onward there stepped now rest =>
      exact .met lacks onward there stepped now (rest.trans reaches)

/-- What is behind a defect is also behind its having been met. -/
theorem Accounts.meet (accounts : world.Accounts machine main argument defect)
    (there : world.tasks[task]? = some (.broken defect)) (stepped : world.step? machine = some next)
    (now : next.tasks[task]? = some (.broken .met)) : next.Accounts machine main argument .met := by
  cases accounts with
  | arisen lacks onward => exact .met lacks onward there stepped now .refl
  | met lacks onward there' stepped' now' rest =>
      exact .met lacks onward there' stepped' now' (rest.tail stepped)

/-- Something is behind each defect in a run. -/
theorem Reaches.accounts (reaches : (World.start main argument).Reaches machine world) :
    ∀ work ∈ world.tasks, ∀ defect ∈ work.defects, world.Accounts machine main argument defect := by
  induction reaches with
  | refl =>
      intro work among defect there
      obtain rfl := List.mem_singleton.mp among
      rw [Machine.enter_whole] at there
      cases there
  | @tail world next reaches stepped ih =>
      intro found among defect there
      have onward : world.Reaches machine next := .single stepped
      cases step?_goes stepped with
      | tick _ _ same =>
          rw [same] at among
          exact (ih found among defect there).later onward
      | @move task work change stands moves _ same =>
          obtain ⟨other, now⟩ := List.mem_iff_getElem?.mp among
          have whole := now
          rw [same] at now
          rcases moves.tasksAfter_cases stands now with
            ⟨rfl, rfl⟩ | stays | ⟨cause, stood, rfl⟩ | begun
          · rcases moves.defects there with
              before | ⟨_, inside, before⟩ | ⟨place, part, stood, faults, broke⟩
            · exact (ih _ (List.mem_of_getElem? stands) defect before).later onward
            · exact (ih _ inside defect before).later onward
            · have lacks := faults.lacks reaches stepped
                (Option.bind_eq_some_iff.mpr ⟨work, stands, stood⟩)
                (Option.bind_eq_some_iff.mpr ⟨_, whole, broke⟩)
              exact .arisen lacks .refl
          · exact (ih found (List.mem_of_getElem? stays) defect there).later onward
          · obtain rfl := List.mem_singleton.mp there
            exact (ih _ (List.mem_of_getElem? stood) cause List.mem_cons_self).meet stood stepped
              whole
          · have mem : defect ∈ Work.defectsOfAll change.started :=
              Work.mem_defectsOfAll.mpr ⟨found, begun, there⟩
            rw [moves.started_whole] at mem
            cases mem

end World

end

end Runbook
