import Runbook.Proofs.Evaluation.Asked
import Runbook.Proofs.Evaluation.Order
import Runbook.Registry.Standard

/-!
Invocations of routines, and what becomes of their bindings.

An invocation stands at a place in the work of a task: that of the run itself, or one where a call
was. It goes on with each step of the run until it has its outcome. What its sequence binds and no
step asks for is settled then: an invocation has a value only if all of that has, and where some has
not, it fails for the first one in the order of the sequence.
-/
namespace Runbook

/-- The work of that number inside a work. -/
def Work.inner? : Work → Nat → Option Work
  | .gather _ members, index => members[index]?
  | .after source _, 0 => some source
  | .body _ current _ _, 0 => some current
  | _, _ => none

/-- The part of a work that the numbers lead to, one inside the other. -/
def Work.part? : List Nat → Work → Option Work
  | [], work => some work
  | index :: place, work => (work.inner? index).bind (part? place)

def World.part? (world : World) (task : TaskId) (place : List Nat) : Option Work :=
  world.tasks[task]?.bind (Work.part? place)

/-- What stands at the place is an invocation of the routine that has just begun: the run itself, or
a call whose argument has a value. -/
inductive Opens (machine : Machine) (main : Routine) (argument : Value) (routine : Routine)
    (task : TaskId) (place : List Nat) : World → Prop
  | run : routine = main → task = 0 → place = [] →
      Opens machine main argument routine task place (World.start main argument)
  | call {world next : World} {callee : Callee} {value : Value} :
      (World.start main argument).Reaches machine world → world.step? machine = some next →
      world.part? task place = some (.after (.done (.ok value)) (.call callee)) →
      machine.library.get? callee = some routine →
      next.part? task place = some (enter routine value).work →
      Opens machine main argument routine task place next

/-- Where an invocation has come to: the world, and the tasks that the entries bind which it has
begun. -/
structure Standing where
  world : World
  bound : List (Option TaskId)

/-- The task that is bound as a body begins an entry. -/
def Work.binds : Work → Work → List (Option TaskId)
  | .body _ _ index (entry :: _), .body frame _ later _ =>
    if later = index + 1 then [entry.bound? frame] else []
  | _, _ => []

/-- What stands at the place has no outcome yet, and goes on or stays as it is. -/
def GoesOn (machine : Machine) (task : TaskId) (place : List Nat) (now later : Standing) : Prop :=
  now.world.step? machine = some later.world ∧
    ∃ before after, now.world.part? task place = some before ∧ before.ended? = none ∧
      later.world.part? task place = some after ∧ later.bound = now.bound ++ before.binds after

/-- The places of an invocation after some time. -/
abbrev Proceeds (machine : Machine) (task : TaskId) (place : List Nat) :
    Standing → Standing → Prop :=
  Relation.ReflTransGen (GoesOn machine task place)

/-- In a run of `main`, an invocation of the routine has come to stand so. -/
def Invokes (machine : Machine) (main : Routine) (argument : Value) (routine : Routine)
    (task : TaskId) (place : List Nat) (now : Standing) : Prop :=
  ∃ start, Opens machine main argument routine task place start ∧
    Proceeds machine task place ⟨start, []⟩ now

variable {machine : Machine} {world next : World} {task : TaskId} {place : List Nat}

/-- Nothing stands inside what has ended. -/
theorem Work.inner?_ended {work ended : Work} (ends : work.ended? = some ended) (index : Nat) :
    work.inner? index = none := by
  cases work with
  | done outcome => rfl
  | broken defect => rfl
  | _ => cases ends

theorem Work.ended?_part {work part ended : Work} (ends : work.ended? = some ended)
    (there : work.part? place = some part) : part.ended? = some ended := by
  cases place with
  | nil =>
      obtain rfl := Option.some.inj there
      exact ends
  | cons index place =>
      rw [part?, inner?_ended ends] at there
      cases there

theorem getElem?_middle {α : Type} (before : List α) (a : α) (after : List α) :
    (before ++ a :: after)[before.length]? = some a := by
  rw [List.getElem?_append_right (Nat.le_refl _), Nat.sub_self, List.getElem?_cons_zero]

/-- Another one in the middle of a list leaves all others. -/
theorem getElem?_replaced {α : Type} {before after : List α} {a inner : α} {index : Nat}
    (there : (before ++ a :: after)[index]? = some inner) :
    index = before.length ∧ inner = a ∨
      ∀ other, (before ++ other :: after)[index]? = some inner := by
  rcases Nat.lt_trichotomy index before.length with below | rfl | above
  · rw [List.getElem?_append_left below] at there
    exact .inr fun other => (List.getElem?_append_left below).trans there
  · rw [getElem?_middle] at there
    exact .inl ⟨rfl, (Option.some.inj there).symm⟩
  · obtain ⟨distance, rfl⟩ := Nat.exists_eq_add_of_lt above
    have beyond (other : α) : (before ++ other :: after)[before.length + distance + 1]? =
        after[distance]? := by
      rw [Nat.add_assoc, List.getElem?_append_right (Nat.le_add_right _ _),
        Nat.add_sub_cancel_left, List.getElem?_cons_succ]
    rw [beyond] at there
    exact .inr fun other => (beyond other).trans there

/-- What has no outcome inside a work moves as the work does, or stays as it is. -/
theorem Moves.inner {work before after : Work} {change : Change} {index : Nat}
    (moves : Moves machine world work change) (there : work.inner? index = some before)
    (going : before.ended? = none) (later : change.work.inner? index = some after) :
    after = before ∨ ∃ inner, Moves machine world before inner ∧ after = inner.work ∧
      inner.started = change.started := by
  cases moves with
  | source moves =>
      cases index with
      | zero =>
          cases there
          exact .inr ⟨_, moves, (Option.some.inj later).symm, rfl⟩
      | succ index => cases there
  | current moves =>
      cases index with
      | zero =>
          cases there
          exact .inr ⟨_, moves, (Option.some.inj later).symm, rfl⟩
      | succ index => cases there
  | spoil spoiled =>
      obtain ⟨_, _, fails⟩ := Moves.spoiled_mem spoiled
      rw [Change.become, Work.inner?_ended (Work.ended?_of_failed? fails)] at later
      cases later
  | collect => cases later
  | @member shape earlier member others change moves =>
      rcases getElem?_replaced there with ⟨rfl, rfl⟩ | same
      · exact .inr ⟨change, moves,
          Option.some.inj (later.symm.trans (getElem?_middle earlier change.work others)), rfl⟩
      · exact .inl (Option.some.inj (later.symm.trans (same change.work)))
  -- nothing stands there, or what does has ended
  | _ => cases index <;> cases there <;> cases going

/-- A part that has no outcome moves as the work does, or stays as it is. -/
theorem Moves.part {work before after : Work} {change : Change}
    (moves : Moves machine world work change) (there : work.part? place = some before)
    (going : before.ended? = none) (later : change.work.part? place = some after) :
    after = before ∨ ∃ inner, Moves machine world before inner ∧ after = inner.work ∧
      inner.started = change.started := by
  induction place generalizing work change with
  | nil =>
      obtain rfl := Option.some.inj there
      exact .inr ⟨change, moves, (Option.some.inj later).symm, rfl⟩
  | cons index place ih =>
      obtain ⟨outer, inside, there⟩ := Option.bind_eq_some_iff.mp there
      obtain ⟨other, within, later⟩ := Option.bind_eq_some_iff.mp later
      have open' : outer.ended? = none := by
        by_contra ended
        obtain ⟨ended, ends⟩ := Option.ne_none_iff_exists'.mp ended
        rw [Work.ended?_part ends there] at going
        cases going
      rcases moves.inner inside open' within with rfl | ⟨inner, moves, rfl, starts⟩
      · exact .inl (Option.some.inj (later.symm.trans there))
      · exact starts ▸ ih moves there later

theorem Work.part?_meet {work after : Work} (there : work.meet.part? place = some after) :
    ∃ part, work.part? place = some part ∧ (after = part ∨ after = part.meet) := by
  cases work with
  | broken defect =>
      cases place with
      | nil => exact ⟨.broken defect, rfl, .inr (Option.some.inj there).symm⟩
      | cons index place => cases there
  | _ => exact ⟨after, there, .inl rfl⟩

namespace World

/-- What has ended stays so, but for a defect in it that is met. -/
theorem Goes.ended {other : TaskId} {work : Work} (goes : world.Goes machine next)
    (there : world.tasks[other]? = some work) (ends : work.ended? = some work) :
    next.tasks[other]? = some work ∨ next.tasks[other]? = some work.meet := by
  cases goes with
  | tick _ _ same => exact .inl (same ▸ there)
  | @move task moved change first moves _ same =>
      have below := (List.getElem?_eq_some_iff.mp there).1
      have within : other < next.tasks.length := by
        rw [same, length_tasksAfter]
        exact Nat.lt_add_right _ below
      obtain ⟨found, stands⟩ : ∃ work, next.tasks[other]? = some work :=
        ⟨_, List.getElem?_eq_getElem within⟩
      rw [stands]
      rw [same] at stands
      obtain ⟨before, either, origin⟩ := getElem?_tasksAfter stands
      rcases origin with ⟨rfl, _⟩ | ⟨_, stays⟩ | ⟨index, rfl, _⟩
      · obtain rfl := Option.some.inj (first.symm.trans there)
        cases moved with
        | done outcome => cases moves
        | broken defect => cases moves
        | _ => cases ends
      · obtain rfl := Option.some.inj (stays.symm.trans there)
        exact either.imp (congrArg some) (congrArg some)
      · exact absurd below (Nat.not_lt_of_le (Nat.le_add_right _ _))

theorem Goes.done {other : TaskId} {outcome : Outcome} (goes : world.Goes machine next)
    (there : world.tasks[other]? = some (.done outcome)) :
    next.tasks[other]? = some (.done outcome) :=
  (goes.ended there rfl).elim id id

/-- The tasks that a move of a part starts are there after it, but for a defect that is met. -/
theorem Goes.part_starts {before after : Work} (goes : world.Goes machine next)
    (there : world.part? task place = some before) (going : before.ended? = none)
    (later : next.part? task place = some after) :
    after = before ∨ ∃ change, Moves machine world before change ∧
      (after = change.work ∨ after = change.work.meet) ∧
      ∀ (index : Nat) (work : Work), change.started[index]? = some work →
        ∃ found, next.tasks[world.tasks.length + index]? = some found ∧
          (found = work ∨ found = work.meet) := by
  obtain ⟨work, stands, there⟩ := Option.bind_eq_some_iff.mp there
  obtain ⟨other, now, later⟩ := Option.bind_eq_some_iff.mp later
  cases goes with
  | tick _ _ same =>
      rw [same] at now
      obtain rfl := Option.some.inj (now.symm.trans stands)
      exact .inl (Option.some.inj (later.symm.trans there))
  | move first moves _ same =>
      rw [same] at now
      obtain ⟨whole, met, origin⟩ := getElem?_tasksAfter now
      obtain ⟨part, inside, either⟩ : ∃ part, whole.part? place = some part ∧
          (after = part ∨ after = part.meet) := by
        rcases met with rfl | rfl
        · exact ⟨after, later, .inl rfl⟩
        · exact Work.part?_meet later
      rcases origin with ⟨rfl, rfl⟩ | ⟨_, stays⟩ | ⟨index, rfl, _⟩
      · obtain rfl := Option.some.inj (first.symm.trans stands)
        rcases moves.part there going inside with rfl | ⟨change, moves, rfl, starts⟩
        · refine .inl (either.elim id fun met => ?_)
          cases part with
          | broken defect => cases going
          | _ => exact met
        · refine .inr ⟨change, moves, either, fun index work begun => ?_⟩
          exact getElem?_after_started same (starts ▸ begun)
      · obtain rfl := Option.some.inj (stays.symm.trans stands)
        obtain rfl := Option.some.inj (inside.symm.trans there)
        refine .inl (either.elim id fun met => ?_)
        cases part with
        | broken defect => cases going
        | _ => exact met
      · have below := (List.getElem?_eq_some_iff.mp stands).1
        exact absurd below (Nat.not_lt_of_le (Nat.le_add_right _ _))

theorem Goes.part {before after : Work} (goes : world.Goes machine next)
    (there : world.part? task place = some before) (going : before.ended? = none)
    (later : next.part? task place = some after) :
    after = before ∨ ∃ change, Moves machine world before change ∧
      (after = change.work ∨ after = change.work.meet) :=
  (goes.part_starts there going later).imp_right fun found =>
    found.imp fun _ known => ⟨known.1, known.2.1⟩

/-- The task has a value that is as many as the binding has names. -/
def Supplies (world : World) (binding : TaskId × Nat) : Prop :=
  ∃ value values, world.tasks[binding.1]? = some (.done (.ok value)) ∧
    value.split binding.2 = .ok values

/-- The task has failed so, or has a value that is not as many as the binding has names. -/
def Fails (world : World) (binding : TaskId × Nat) (failure : Failure) : Prop :=
  world.tasks[binding.1]? = some (.done (.error failure)) ∨
    ∃ value, world.tasks[binding.1]? = some (.done (.ok value)) ∧
      value.split binding.2 = .error failure

section
variable {binding : TaskId × Nat} {failure : Failure}

theorem Goes.supplies (goes : world.Goes machine next) (supplies : world.Supplies binding) :
    next.Supplies binding := by
  obtain ⟨value, values, there, split⟩ := supplies
  exact ⟨value, values, goes.done there, split⟩

theorem Goes.fails (goes : world.Goes machine next) (fails : world.Fails binding failure) :
    next.Fails binding failure :=
  fails.imp goes.done fun found => found.imp fun _ rest => ⟨goes.done rest.1, rest.2⟩

theorem Supplies.not_fails (supplies : world.Supplies binding) : ¬world.Fails binding failure := by
  intro fails
  obtain ⟨value, values, there, split⟩ := supplies
  rcases fails with failed | ⟨other, given, unsplit⟩
  · cases there.symm.trans failed
  · cases there.symm.trans given
    cases split.symm.trans unsplit

theorem Fails.unique {other : Failure} (fails : world.Fails binding failure)
    (again : world.Fails binding other) : failure = other := by
  rcases fails with failed | ⟨value, there, split⟩
  · rcases again with same | ⟨value, there, _⟩
    · cases failed.symm.trans same
      rfl
    · cases failed.symm.trans there
  · rcases again with failed | ⟨other, given, again⟩
    · cases there.symm.trans failed
    · cases there.symm.trans given
      cases split.symm.trans again
      rfl

end

end World

/-- What becomes of a body whose entries all have succeeded, when `left` is to be settled. -/
inductive Settles (world : World) (left : List (TaskId × Nat)) : Work → Prop
  | closes {frame value index} : frame.unobserved = left →
      Settles world left (.body frame (.done (.ok value)) index [])
  | settles {before rest result} : left = before ++ rest → (∀ binding ∈ before,
      world.Supplies binding) → Settles world left (.settle rest result)
  | returns {value} : (∀ binding ∈ left, world.Supplies binding) →
      Settles world left (.done (.ok value))
  | fails {before binding rest failure} : left = before ++ binding :: rest →
      (∀ binding ∈ before, world.Supplies binding) → world.Fails binding failure →
      Settles world left (.done (.error failure))
  | breaks {before binding rest defect other} : left = before ++ binding :: rest →
      (∀ binding ∈ before, world.Supplies binding) →
      world.tasks[binding.1]? = some (.broken other) → Settles world left (.broken defect)

namespace Settles

variable {left : List (TaskId × Nat)} {work : Work} {change : Change}

theorem later (settles : Settles world left work) (goes : world.Goes machine next) :
    Settles next left work := by
  cases settles with
  | closes same => exact .closes same
  | settles same kept => exact .settles same fun binding mem => goes.supplies (kept binding mem)
  | returns kept => exact .returns fun binding mem => goes.supplies (kept binding mem)
  | fails same kept failed =>
      exact .fails same (fun binding mem => goes.supplies (kept binding mem)) (goes.fails failed)
  | breaks same kept broken =>
      have still := fun binding mem => goes.supplies (kept binding mem)
      exact (goes.ended broken rfl).elim (.breaks same still) (.breaks same still)

theorem meet (settles : Settles world left work) : Settles world left work.meet := by
  cases settles with
  | breaks same kept broken => exact .breaks same kept broken
  | closes same => exact .closes same
  | settles same kept => exact .settles same kept
  | returns kept => exact .returns kept
  | fails same kept failed => exact .fails same kept failed

/-- One binding is settled after the other. -/
theorem moves (settles : Settles world left work) (moves : Moves machine world work change) :
    Settles world left change.work := by
  cases settles with
  | closes same =>
      subst same
      cases moves with
      | last => exact .settles (List.nil_append _).symm nofun
      | current inner => cases inner
  | settles same kept =>
      cases moves with
      | settled =>
          rw [List.append_nil] at same
          subst same
          exact .returns kept
      | @settle task count rest result other change there checks =>
          cases other with
          | done outcome =>
              cases outcome with
              | ok value =>
                  rw [Machine.settle] at checks
                  split at checks
                  · rename_i values split
                    cases checks
                    refine .settles (same.trans (List.append_cons _ _ _))
                      (List.forall_mem_append.mpr ⟨kept, List.forall_mem_singleton.mpr ?_⟩)
                    exact ⟨value, values, there, split⟩
                  · rename_i failure split
                    cases checks
                    exact .fails same kept (.inr ⟨value, there, split⟩)
              | error failure =>
                  cases checks
                  exact .fails same kept (.inl there)
          | broken defect =>
              cases checks
              exact .breaks same kept there
          | _ => cases checks
  | returns => cases moves
  | fails => cases moves
  | breaks => cases moves

end Settles

/-- The last entry's binding is waited for, or has the outcome that the work has. -/
def World.Attends (world : World) (sequence : Sequence) (bound : List (Option TaskId))
    (work : Work) : Prop :=
  ∀ setting names step (own : TaskId), sequence.getLast? = some ⟨setting, .bind names step⟩ →
    bound[sequence.length - 1]? = some (some own) →
      work = .wait own ∨ (∃ outcome, work = .done outcome ∧
        world.tasks[own]? = some (.done outcome)) ∨ ∃ defect, work = .broken defect

/-- What an invocation of the routine has come to. -/
inductive Stands (routine : Routine) (world : World) (bound : List (Option TaskId)) : Work → Prop
  | goes {begun entries deeds parameters values frame current} :
      routine.sequence = begun ++ entries → Sequence.Did entries begun bound deeds →
      frame = (Frame.ofParameters parameters values).performAll deeds →
      (entries = [] → world.Attends routine.sequence bound current) →
      Stands routine world bound (.body frame current begun.length entries)
  | settles {deeds work value} : Sequence.Did [] routine.sequence bound deeds →
      world.Attends routine.sequence bound (.done (.ok value)) →
      Settles world (routine.sequence.unsettled bound) work → Stands routine world bound work
  | fails {failure} : Stands routine world bound (.done (.error failure))
  | breaks {defect} : Stands routine world bound (.broken defect)

theorem World.Attends.later {sequence : Sequence} {bound : List (Option TaskId)} {work : Work}
    (attends : world.Attends sequence bound work) (goes : world.Goes machine next) :
    next.Attends sequence bound work := by
  intro setting names step own last there
  refine (attends setting names step own last there).imp_right (Or.imp_left fun found => ?_)
  exact found.imp fun _ rest => ⟨rest.1, goes.done rest.2⟩

/-- The last entry's binding is waited for until it has an outcome. -/
theorem World.Attends.moves {sequence : Sequence} {bound : List (Option TaskId)} {work : Work}
    {change : Change} (attends : world.Attends sequence bound work)
    (moves : Moves machine world work change) : world.Attends sequence bound change.work := by
  intro setting names step own last there
  rcases attends setting names step own last there with rfl | ⟨outcome, rfl, _⟩ | ⟨defect, rfl⟩
  · cases moves with
    | @wait _ ended given ends =>
        cases ended with
        | done outcome => exact .inr (.inl ⟨outcome, rfl, given⟩)
        | broken defect => exact .inr (.inr ⟨defect, rfl⟩)
        | _ => cases ends
  · cases moves
  · cases moves

namespace Stands

variable {routine : Routine} {bound : List (Option TaskId)} {work : Work} {change : Change}

theorem later (stands : Stands routine world bound work) (goes : world.Goes machine next) :
    Stands routine next bound work := by
  cases stands with
  | goes split did frame last => exact .goes split did frame fun none => (last none).later goes
  | settles whole last settles => exact .settles whole (last.later goes) (settles.later goes)
  | fails => exact .fails
  | breaks => exact .breaks

theorem meet (stands : Stands routine world bound work) :
    Stands routine world bound work.meet := by
  cases stands with
  | goes split did frame last => exact .goes split did frame last
  | settles whole last settles => exact .settles whole last settles.meet
  | fails => exact .fails
  | breaks => exact .breaks

theorem enter (routine : Routine) (argument : Value) :
    Stands routine world [] (Runbook.enter routine argument).work := by
  have begins (parameters : List Name) (values : List Value) :
      Stands routine world [] (.body (Frame.ofParameters parameters values) (.done (.ok .unit)) 0
        routine.sequence) :=
    .goes (List.nil_append _).symm .nil rfl fun _ _ _ _ _ _ none => by cases none
  rw [Runbook.enter]
  split
  · exact begins [] []
  · split
    · exact begins _ _
    · exact .fails

/-- An entry that is begun does what is mentioned in it; the last one's binding is waited for. -/
theorem begin {begun entries : Sequence} {entry : Entry} {deeds : List Deed}
    {parameters : List Name} {values : List Value} {frame : Frame} {count : TaskId} {value : Value}
    (split : routine.sequence = begun ++ entry :: entries)
    (did : Sequence.Did (entry :: entries) begun bound deeds)
    (same : frame = (Frame.ofParameters parameters values).performAll deeds)
    (begins : change = machine.begin count frame begun.length entry entries) :
    Stands routine world (bound ++
      (Work.body frame (.done (.ok value)) begun.length (entry :: entries)).binds change.work)
      change.work := by
  rw [Machine.begin] at begins
  split at begins
  · rename_i work state run
    subst begins
    have sets := SetUp.setUpEntry_makes run
    obtain ⟨more, does, after⟩ := sets.does
    have binds : (Work.body frame (.done (.ok value)) begun.length (entry :: entries)).binds
        (.body state.frame work (begun.length + 1) entries) = [entry.bound? state.frame] :=
      if_pos rfl
    have count : begun.length + 1 = (begun ++ [entry]).length := by
      rw [List.length_append, List.length_singleton]
    rw [binds, count]
    refine @goes _ _ _ _ _ _ parameters values _ _ ?_ (did.snoc does) ?_ ?_
    · rw [split, List.append_assoc, List.singleton_append]
    · rw [after, Frame.performAll_append, same]
    · intro none setting names step own last there
      subst none
      rw [split, List.getLast?_concat] at last
      obtain rfl := Option.some.inj last
      rw [split, List.length_append, List.length_singleton, Nat.add_sub_cancel, ← did.length,
        List.getElem?_concat_length] at there
      exact .inl (sets.waits rfl (Option.some.inj there))
  · subst begins
    exact .breaks

/-- When the last entry has succeeded, the bindings that no step asks for are left. -/
theorem closed {frame : Frame} {value : Value} {index : Nat}
    (stands : Stands routine world bound (.body frame (.done (.ok value)) index [])) :
    (∃ deeds, Sequence.Did [] routine.sequence bound deeds) ∧
      (∃ value, world.Attends routine.sequence bound (.done (.ok value))) ∧
      Settles world (routine.sequence.unsettled bound)
        (.body frame (.done (.ok value)) index []) := by
  cases stands with
  | goes split did same last =>
      subst same
      rw [List.append_nil] at split
      rw [split]
      refine ⟨⟨_, did⟩, ⟨value, split ▸ last rfl⟩, .closes ?_⟩
      rw [Frame.unobserved_parameters, did.unobserved]
  | settles did last settles => exact ⟨⟨_, did⟩, ⟨_, last⟩, settles⟩

/-- What is left is settled without beginning an entry. -/
theorem binds_eq_nil {left : List (TaskId × Nat)} (settles : Settles world left work)
    (other : Work) : work.binds other = [] := by
  cases settles <;> rfl

theorem moves (stands : Stands routine world bound work) (moves : Moves machine world work change) :
    Stands routine world (bound ++ work.binds change.work) change.work := by
  have settling (whole : ∃ deeds, Sequence.Did [] routine.sequence bound deeds)
      (last : ∃ value, world.Attends routine.sequence bound (.done (.ok value)))
      (settles : Settles world (routine.sequence.unsettled bound) work) :
      Stands routine world (bound ++ work.binds change.work) change.work := by
    obtain ⟨deeds, did⟩ := whole
    obtain ⟨value, last⟩ := last
    rw [binds_eq_nil settles, List.append_nil]
    exact .settles did last (settles.moves moves)
  cases stands with
  | settles did last settles => exact settling ⟨_, did⟩ ⟨_, last⟩ settles
  | fails => cases moves
  | breaks => cases moves
  | @goes begun entries deeds parameters values frame current split did same last =>
      cases moves with
      | last =>
          obtain ⟨whole, last, settles⟩ := closed (.goes split did same last)
          exact settling whole last settles
      | @begin _ value _ entry entries =>
          exact begin split did same rfl
      | bodyFails => exact .fails
      | bodyBreaks => exact .breaks
      | @current _ _ _ _ change inner =>
          have binds : (Work.body frame current begun.length entries).binds
              (.body frame change.work begun.length entries) = [] := by
            cases entries with
            | nil => rfl
            | cons entry entries => exact if_neg (Nat.succ_ne_self _).symm
          change Stands routine world (bound ++ (Work.body frame current begun.length entries).binds
            (.body frame change.work begun.length entries)) _
          rw [binds, List.append_nil]
          exact .goes split did same fun none => (last none).moves inner

end Stands

theorem Work.binds_self (work : Work) : work.binds work = [] := by
  cases work with
  | body frame current index entries =>
      cases entries with
      | nil => rfl
      | cons entry entries => exact if_neg (Nat.succ_ne_self index).symm
  | _ => rfl

theorem Work.binds_meet (before after : Work) : before.binds after.meet = before.binds after := by
  cases after with
  | broken defect => cases before with
    | body frame current index entries => cases entries <;> rfl
    | _ => rfl
  | _ => rfl

/-- A work of which a part can move can move itself. -/
theorem Machine.step?_part {work part : Work} (there : work.part? place = some part)
    (moves : step? machine world part ≠ none) : step? machine world work ≠ none := by
  induction place generalizing work with
  | nil =>
      obtain rfl := Option.some.inj there
      exact moves
  | cons index place ih =>
      obtain ⟨inner, inside, there⟩ := Option.bind_eq_some_iff.mp there
      have found := ih there
      intro still
      cases work with
      | gather shape members =>
          exact found ((step?_gather_eq_none still).2 inner (List.mem_of_getElem? inside))
      | after source next =>
          cases index with
          | zero =>
              cases inside
              exact found (step?_after_eq_none still).2
          | succ index => cases inside
      | body frame current count entries =>
          cases index with
          | zero =>
              cases inside
              exact found (step?_body_eq_none still).2
          | succ index => cases inside
      | _ => cases inside

theorem World.awake_of_part {part : Work} (there : world.part? task place = some part)
    (moves : Machine.step? machine world part ≠ none) : task ∈ machine.awake world := by
  obtain ⟨work, stands, there⟩ := Option.bind_eq_some_iff.mp there
  rw [Machine.mem_awake, Machine.stepTask?, stands]
  exact Option.isSome_iff_ne_none.mpr (Machine.step?_part there moves)

variable {now later : Standing}

theorem GoesOn.stands {routine : Routine} (goesOn : GoesOn machine task place now later)
    (stands : ∀ work, now.world.part? task place = some work →
      Stands routine now.world now.bound work) :
    ∀ work, later.world.part? task place = some work →
      Stands routine later.world later.bound work := by
  obtain ⟨stepped, before, after, there, going, then', bound⟩ := goesOn
  intro work found
  obtain rfl := Option.some.inj (then'.symm.trans found)
  have goes := World.step?_goes stepped
  rw [bound]
  rcases goes.part there going then' with rfl | ⟨change, moves, either⟩
  · rw [Work.binds_self, List.append_nil]
    exact (stands after there).later goes
  · have moved := ((stands before there).moves moves).later goes
    rcases either with rfl | rfl
    · exact moved
    · rw [Work.binds_meet]
      exact moved.meet

/-- All that an invocation comes to stands as its sequence says. -/
theorem Invokes.stands {main routine : Routine} {argument : Value}
    (invokes : Invokes machine main argument routine task place now) :
    ∀ work, now.world.part? task place = some work →
      Stands routine now.world now.bound work := by
  obtain ⟨start, opens, proceeds⟩ := invokes
  induction proceeds with
  | refl =>
      intro work there
      cases opens with
      | run same first whole =>
          subst same first whole
          obtain rfl := Option.some.inj there
          exact .enter _ _
      | call _ _ _ _ entered =>
          obtain rfl := Option.some.inj (entered.symm.trans there)
          exact .enter _ _
  | tail _ goesOn ih => exact goesOn.stands ih

theorem GoesOn.settles {left : List (TaskId × Nat)} (goesOn : GoesOn machine task place now later)
    (settles : ∀ work, now.world.part? task place = some work → Settles now.world left work) :
    ∀ work, later.world.part? task place = some work → Settles later.world left work := by
  obtain ⟨stepped, before, after, there, going, then', _⟩ := goesOn
  intro work found
  obtain rfl := Option.some.inj (then'.symm.trans found)
  have goes := World.step?_goes stepped
  rcases goes.part there going then' with rfl | ⟨change, moves, either⟩
  · exact (settles after there).later goes
  · have moved := ((settles before there).moves moves).later goes
    rcases either with rfl | rfl
    · exact moved
    · exact moved.meet

theorem Proceeds.settles {left : List (TaskId × Nat)}
    (proceeds : Proceeds machine task place now later)
    (settles : ∀ work, now.world.part? task place = some work → Settles now.world left work) :
    ∀ work, later.world.part? task place = some work → Settles later.world left work := by
  induction proceeds with
  | refl => exact settles
  | tail _ goesOn ih => exact goesOn.settles ih

section
variable {before rest settled left : List (TaskId × Nat)} {binding : TaskId × Nat}
  {failure : Failure}

/-- Nothing is settled past a binding that fails. -/
theorem World.Fails.ahead (failed : world.Fails binding failure)
    (same : before ++ binding :: rest = settled ++ left)
    (kept : ∀ binding ∈ settled, world.Supplies binding) :
    ∃ more, before = settled ++ more ∧ left = more ++ binding :: rest := by
  rcases List.append_eq_append_iff.mp same with ⟨more, rfl, after⟩ | ⟨more, here, after⟩
  · cases more with
    | nil => exact ⟨[], by rw [List.append_nil, List.append_nil], after.symm⟩
    | cons first more =>
        rw [List.cons_append] at after
        obtain ⟨rfl, _⟩ := List.cons.inj after
        exact absurd failed (kept binding (List.mem_append_right _ List.mem_cons_self)).not_fails
  · exact ⟨more, here, after⟩

/-- When the first binding that is to be settled and fails has failed, what is left of the body has
that failure or can move. -/
theorem Settles.first {work : Work} (settles : Settles world (before ++ binding :: rest) work)
    (supplied : ∀ binding ∈ before, world.Supplies binding) (failed : world.Fails binding failure) :
    work = .done (.error failure) ∨
      work.ended? = none ∧ Machine.step? machine world work ≠ none := by
  cases settles with
  | closes _ => exact .inr ⟨rfl, Option.some_ne_none _⟩
  | settles same kept =>
      refine .inr ⟨rfl, fun still => ?_⟩
      obtain ⟨more, rfl, rfl⟩ := failed.ahead same kept
      cases more with
      | nil =>
          rw [List.nil_append, Machine.step?, Option.map_eq_none_iff] at still
          rcases failed with there | ⟨value, there, split⟩
          · rw [there] at still
            cases still
          · rw [there, Option.bind_some, Machine.settle, split] at still
            cases still
      | cons first more =>
          obtain ⟨value, values, there, split⟩ :=
            supplied first (List.mem_append_right _ List.mem_cons_self)
          rw [List.cons_append, Machine.step?, there, Option.bind_some, Machine.settle,
            split] at still
          cases still
  | returns kept =>
      exact absurd failed (kept binding List.mem_append_cons_self).not_fails
  | fails same kept other =>
      obtain ⟨more, rfl, after⟩ := failed.ahead same kept
      cases more with
      | nil =>
          obtain ⟨rfl, _⟩ := List.cons.inj after
          rw [other.unique failed]
          exact .inl rfl
      | cons first more =>
          obtain ⟨rfl, _⟩ := List.cons.inj after
          exact absurd other (supplied _ (List.mem_append_right _ List.mem_cons_self)).not_fails
  | breaks same kept broken =>
      obtain ⟨more, rfl, after⟩ := failed.ahead same kept
      cases more with
      | nil =>
          obtain ⟨rfl, _⟩ := List.cons.inj after
          rcases failed with there | ⟨value, there, _⟩
          · cases broken.symm.trans there
          · cases broken.symm.trans there
      | cons first more =>
          obtain ⟨rfl, _⟩ := List.cons.inj after
          obtain ⟨value, values, there, _⟩ :=
            supplied _ (List.mem_append_right _ List.mem_cons_self)
          cases broken.symm.trans there

end

namespace Stands

variable {routine : Routine} {bound : List (Option TaskId)} {index : Nat} {names : List Name}

/-- When the body has returned a value, each binding that no step asks for has one. -/
theorem returned {value : Value} (stands : Stands routine world bound (.done (.ok value)))
    (unread : routine.sequence.Unread index names) :
    ∃ own given, bound[index]? = some (some own) ∧
      world.tasks[own]? = some (.done (.ok given)) ∧
      (index + 1 < routine.sequence.length → ∃ values, given.split names.length = .ok values) := by
  cases stands with
  | settles did last settles =>
      cases settles with
      | returns kept =>
          obtain ⟨setting, step, there, unasked⟩ := unread
          obtain ⟨own, binds⟩ := did.bound there
          have below := (List.getElem?_eq_some_iff.mp there).1
          rcases Nat.lt_or_ge (index + 1) routine.sequence.length with within | beyond
          · obtain ⟨before, after, same, _⟩ :=
              Sequence.unsettled_split ⟨setting, step, there, unasked⟩ within binds
            obtain ⟨given, values, has, split⟩ :=
              kept (own, names.length) (same ▸ List.mem_append_cons_self)
            exact ⟨own, given, binds, has, fun _ => ⟨values, split⟩⟩
          · have final : index = routine.sequence.length - 1 := by omega
            rw [final, ← List.getLast?_eq_getElem?] at there
            rcases last setting names step own there (final ▸ binds) with
              waits | ⟨outcome, same, has⟩ | ⟨defect, broken⟩
            · cases waits
            · cases same
              exact ⟨own, _, binds, has, fun within => absurd within (Nat.not_lt_of_le beyond)⟩
            · cases broken

end Stands

/-- The bindings of an invocation that no step asks for always surface. It has a value only when all
of them have as many values as names; and when all entries have succeeded and the first of these
bindings that fails has failed, it has that failure or can move at once. -/
theorem Routine.unread_surface {main routine : Routine} {argument : Value}
    (invokes : Invokes machine main argument routine task place now) :
    (∀ value, now.world.part? task place = some (.done (.ok value)) →
      ∀ index names, routine.sequence.Unread index names →
        ∃ own given, now.bound[index]? = some (some own) ∧
          now.world.tasks[own]? = some (.done (.ok given)) ∧
          (index + 1 < routine.sequence.length → ∃ values, given.split names.length = .ok values)) ∧
    (∀ frame value count later,
      now.world.part? task place = some (.body frame (.done (.ok value)) count []) →
      Proceeds machine task place now later →
      ∀ index names own failure, routine.sequence.Unread index names →
        index + 1 < routine.sequence.length → now.bound[index]? = some (some own) →
        later.world.Fails (own, names.length) failure →
        (∀ earlier others other, earlier < index → routine.sequence.Unread earlier others →
          now.bound[earlier]? = some (some other) → later.world.Supplies (other, others.length)) →
        later.world.part? task place = some (.done (.error failure)) ∨
          (∃ part, later.world.part? task place = some part ∧ part.ended? = none) ∧
            task ∈ machine.awake later.world) := by
  refine ⟨fun value returned index names unread => ?_, ?_⟩
  · exact (invokes.stands _ returned).returned unread
  · intro frame value count later closes proceeds index names own failure unread within binds failed
      earlier
    obtain ⟨_, _, settles⟩ := (invokes.stands _ closes).closed
    obtain ⟨before, rest, same, ahead⟩ := Sequence.unsettled_split unread within binds
    have settles : ∀ work, now.world.part? task place = some work →
        Settles now.world (before ++ (own, names.length) :: rest) work := by
      intro work there
      obtain rfl := Option.some.inj (closes.symm.trans there)
      exact same ▸ settles
    have supplied : ∀ binding ∈ before, later.world.Supplies binding := by
      intro binding mem
      obtain ⟨place, others, less, unread, bound, count⟩ := ahead binding mem
      have supplies := earlier place others binding.1 less unread bound
      rwa [← count] at supplies
    obtain ⟨part, there⟩ : ∃ part, later.world.part? task place = some part := by
      cases proceeds with
      | refl => exact ⟨_, closes⟩
      | tail _ goesOn =>
          obtain ⟨_, _, after, _, _, there, _⟩ := goesOn
          exact ⟨after, there⟩
    rcases (proceeds.settles settles part there).first supplied failed with rfl | ⟨going, moves⟩
    · exact .inl there
    · exact .inr ⟨⟨part, there, going⟩, World.awake_of_part there moves⟩

/-- Where an invocation stands after so many steps of the run. -/
def Standing.after? (machine : Machine) (task : TaskId) (place : List Nat) :
    Nat → Standing → Option Standing
  | 0, now => some now
  | count + 1, now =>
    match now.world.step? machine, now.world.part? task place with
    | some next, some before =>
      match before.ended?, next.part? task place with
      | none, some after => after? machine task place count ⟨next, now.bound ++ before.binds after⟩
      | _, _ => none
    | _, _ => none

/-- An invocation goes on as its run does. -/
theorem Proceeds.reaches {now later : Standing} (proceeds : Proceeds machine task place now later) :
    now.world.Reaches machine later.world := by
  induction proceeds with
  | refl => exact .refl
  | tail _ goesOn ih => exact ih.tail goesOn.1

theorem Proceeds.of_after? {count : Nat}
    (found : now.after? machine task place count = some later) :
    Proceeds machine task place now later := by
  induction count generalizing now with
  | zero =>
      obtain rfl := Option.some.inj found
      exact .refl
  | succ count ih =>
      rw [Standing.after?] at found
      split at found
      · rename_i next before stepped there
        split at found
        · rename_i after going stands
          exact .head ⟨stepped, before, after, there, going, stands, rfl⟩ (ih found)
        · cases found
      · cases found

/-- A routine whose first binding fails after the second one. -/
def Routine.burning : Routine where
  procedure := ⟨0, "main", [], none, []⟩
  parameters := []
  sequence := [
    ⟨.inherit, .bind [⟨0, "a"⟩]
      (.invoke "fail" (.invoke "sleep" (.literal (.quantity (.number 5)))))⟩,
    ⟨.inherit, .bind [⟨1, "b"⟩] (.invoke "fail" (.literal (.text "burnt")))⟩,
    ⟨.inherit, .literal (.text "done")⟩]
  library := []

/-- A routine whose binding is not read. -/
def Routine.brewing : Routine where
  procedure := ⟨0, "main", [], none, []⟩
  parameters := []
  sequence := [⟨.inherit, .bind [⟨0, "a"⟩] (.literal (.text "tea"))⟩,
    ⟨.inherit, .literal (.text "done")⟩]
  library := []

theorem Routine.unread_surface_burning :
    (∃ now : Standing,
      Invokes ⟨.standard, []⟩ brewing .unit brewing 0 [] now ∧
      now.world.part? 0 [] = some (.done (.ok (.text "done"))) ∧
      ∃ own given, now.bound[0]? = some (some own) ∧
        now.world.tasks[own]? = some (.done (.ok given))) ∧
    ∃ now later : Standing,
      Invokes ⟨.standard, []⟩ burning .unit burning 0 [] now ∧
      Proceeds ⟨.standard, []⟩ 0 [] now later ∧
      later.world.Fails (2, 1) (.builtin "fail" "burnt") ∧
      later.world.part? 0 [] = some (.done (.error (.builtin "fail" "()"))) := by
  have brewed : ∃ now : Standing,
      Standing.after? ⟨.standard, []⟩ 0 [] 6 ⟨World.start brewing .unit, []⟩ = some now ∧
      now.world.part? 0 [] = some (.done (.ok (.text "done"))) := ⟨_, rfl, rfl⟩
  have closes : ∃ now later : Standing, ∃ frame value count,
      Standing.after? ⟨.standard, []⟩ 0 [] 3 ⟨World.start burning .unit, []⟩ = some now ∧
      now.world.part? 0 [] = some (.body frame (.done (.ok value)) count []) ∧
      now.bound[0]? = some (some 1) ∧
      now.after? ⟨.standard, []⟩ 0 [] 9 = some later ∧
      later.world.tasks[1]? = some (.done (.error (.builtin "fail" "()"))) ∧
      later.world.tasks[2]? = some (.done (.error (.builtin "fail" "burnt"))) ∧
      Machine.awake ⟨.standard, []⟩ later.world = [] :=
    ⟨_, _, _, _, _, rfl, rfl, rfl, rfl, rfl, rfl, rfl⟩
  refine ⟨?_, ?_⟩
  · obtain ⟨now, reached, returned⟩ := brewed
    have invokes : Invokes ⟨.standard, []⟩ brewing .unit brewing 0 [] now :=
      ⟨_, .run rfl rfl rfl, .of_after? reached⟩
    obtain ⟨own, given, bound, has, _⟩ :=
      (unread_surface invokes).1 _ returned 0 [⟨0, "a"⟩] ⟨_, _, rfl, rfl⟩
    exact ⟨now, invokes, returned, own, given, bound, has⟩
  · obtain ⟨now, later, frame, value, count, reached, closed, bound, goes, first, second, asleep⟩ :=
      closes
    have invokes : Invokes ⟨.standard, []⟩ burning .unit burning 0 [] now :=
      ⟨_, .run rfl rfl rfl, .of_after? reached⟩
    refine ⟨now, later, invokes, .of_after? goes, .inl second, ?_⟩
    have surfaces := (unread_surface invokes).2 frame value count later closed (.of_after? goes) 0
      [⟨0, "a"⟩] 1 (.builtin "fail" "()") ⟨_, _, rfl, rfl⟩ (by decide) bound (.inl first) nofun
    rcases surfaces with failed | ⟨_, awake⟩
    · exact failed
    · rw [asleep] at awake
      cases awake

end Runbook
