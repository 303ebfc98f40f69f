import Runbook.Proofs.Evaluation.Moments

/-!
Races of tasks.

A work races two tasks if it waits for the first of them. Only an operator does so, for the tasks
that it starts itself. So a race is over as soon as one of them has its outcome: when the clock goes
on, no work races a task that has ended, and none will later.
-/
namespace Runbook

mutual

/-- The tasks that a work waits for the first of, with all that is nested in it. -/
def Work.races : Work → List (TaskId × TaskId)
  | .race left right => [(left, right)]
  | .fresh work => work.races
  | .after source _ => source.races
  | .gather _ members => racesOfAll members
  | .body _ current _ _ => current.races
  | _ => []

def Work.racesOfAll : List Work → List (TaskId × TaskId)
  | [] => []
  | work :: works => work.races ++ racesOfAll works

end

/-- The work races no task that was started before the one of that number. -/
def Work.RacesFrom (first : TaskId) (work : Work) : Prop :=
  ∀ race ∈ work.races, first ≤ race.1 ∧ first ≤ race.2

variable {machine : Machine} {world next last : World} {first : TaskId}

namespace Work

theorem mem_racesOfAll {works : List Work} {race : TaskId × TaskId} :
    race ∈ racesOfAll works ↔ ∃ work ∈ works, race ∈ work.races := by
  induction works with
  | nil => exact iff_of_false List.not_mem_nil fun found => nomatch found
  | cons work works ih =>
      rw [racesOfAll, List.mem_append, ih, List.exists_mem_cons_iff]

theorem races_gather {shape : Shape} {members : List Work} {race : TaskId × TaskId} :
    race ∈ (gather shape members).races ↔ ∃ member ∈ members, race ∈ member.races :=
  mem_racesOfAll

theorem races_meet (work : Work) : work.meet.races = work.races := by
  cases work <;> rfl

theorem races_ended {work : Work} (ends : work.ended? = some work) : work.races = [] := by
  cases work with
  | done outcome => rfl
  | broken defect => rfl
  | _ => cases ends

theorem races_inner {work part : Work} {index : Nat} (inside : work.inner? index = some part) :
    part.races ⊆ work.races := by
  cases work with
  | gather shape members =>
      change members[index]? = some part at inside
      exact fun race raced => races_gather.mpr ⟨part, List.mem_of_getElem? inside, raced⟩
  | after source next =>
      cases index with
      | zero =>
          cases inside
          exact List.Subset.refl _
      | succ index => cases inside
  | body frame current count entries =>
      cases index with
      | zero =>
          cases inside
          exact List.Subset.refl _
      | succ index => cases inside
  | _ => cases index <;> cases inside

/-- A part of a work races what the work does. -/
theorem races_part {work part : Work} {place : List Nat} (there : work.part? place = some part) :
    part.races ⊆ work.races := by
  induction place generalizing work with
  | nil =>
      obtain rfl := Option.some.inj there
      exact List.Subset.refl _
  | cons index place ih =>
      obtain ⟨inner, inside, there⟩ := Option.bind_eq_some_iff.mp there
      exact List.Subset.trans (ih there) (races_inner inside)

end Work

mutual

/-- A work that cannot move races only tasks that have not ended. -/
theorem Machine.step?_races : ∀ (work : Work), step? machine world work = none →
    ∀ race ∈ work.races, world.tasks[race.1]?.bind Work.ended? = none ∧
      world.tasks[race.2]?.bind Work.ended? = none
  | .race left right, still => by
      rw [step?, Option.map_eq_none_iff] at still
      rw [Work.races, List.forall_mem_singleton]
      exact race_eq_none.mp still
  | .fresh _, still => by cases still
  | .after source _, still => step?_races source (step?_after_eq_none still).2
  | .gather _ members, still => stepAll_races members (step?_gather_eq_none still).2
  | .body _ current _ _, still => step?_races current (step?_body_eq_none still).2
  | .done _, _ | .broken _, _ | .wait _, _ | .sleep _ _, _ | .settle _ _, _ => List.forall_mem_nil _

theorem Machine.stepAll_races : ∀ (works : List Work),
    (∀ work ∈ works, step? machine world work = none) →
    ∀ race ∈ Work.racesOfAll works, world.tasks[race.1]?.bind Work.ended? = none ∧
      world.tasks[race.2]?.bind Work.ended? = none
  | [], _ => List.forall_mem_nil _
  | work :: works, still => by
      obtain ⟨first, rest⟩ := List.forall_mem_cons.mp still
      exact List.forall_mem_append.mpr ⟨step?_races work first, stepAll_races works rest⟩

end

namespace SetUp

/-- The state is one in which tasks from that number on are started, which race only such. -/
structure State.Races (first : TaskId) (state : State) : Prop where
  later : first ≤ state.next
  started : ∀ work ∈ state.started, work.RacesFrom first

theorem State.Races.start {before : State} {work : Work} (races : before.Races first)
    (fits : work.RacesFrom first) (frame : Frame) (events : List Event) :
    State.Races first ⟨frame, before.next + 1, before.started ++ [.fresh work], events⟩ where
  later := Nat.le_succ_of_le races.later
  started := List.forall_mem_append.mpr ⟨races.started, List.forall_mem_singleton.mpr fits⟩

/-- Works that are set up race only tasks from that number on, which are started with them. -/
def Upkeep.racing (registry : Registry) (first : TaskId) : Upkeep registry where
  holds := State.Races first
  grows _ _ := True
  fits _ := Work.RacesFrom first
  known _ := (first ≤ ·)
  refl _ := trivial
  trans _ _ := trivial
  fits_later _ fits := fits
  known_later _ known := known
  report _ races := ⟨⟨races.later, races.started⟩, trivial⟩
  start races fits := ⟨races.start fits _ _, trivial, races.later⟩
  register _ _ _ races fits := ⟨races.start fits _ _, trivial, races.later⟩
  read races _ := ⟨⟨races.later, races.started⟩, trivial, List.forall_mem_nil _⟩
  done _ _ := List.forall_mem_nil _
  wait _ := List.forall_mem_nil _
  after fits _ := fits
  gather _ _ fits race raced :=
    have ⟨member, inside, raced⟩ := Work.races_gather.mp raced
    fits member inside race raced
  await operator _ _ one other := by
    cases operator with
    | waitEither => exact List.forall_mem_singleton.mpr ⟨one, other⟩
    | _ => exact List.forall_mem_nil _

end SetUp

/-- Of all that a change makes, only what it starts is raced beside what was before. -/
structure Change.Races (before : List (TaskId × TaskId)) (count : Nat) (change : Change) : Prop where
  work : ∀ race ∈ change.work.races, race ∈ before ∨ count ≤ race.1 ∧ count ≤ race.2
  started : ∀ work ∈ change.started, work.RacesFrom count

namespace Change.Races

variable {before : List (TaskId × TaskId)} {count : Nat}

theorem still {work : Work} {events : List Event} {met : Option TaskId}
    (among : work.races ⊆ before) : Races before count ⟨work, [], events, met⟩ :=
  ⟨fun _ raced => .inl (among raced), List.forall_mem_nil _⟩

theorem ended {work : Work} {events : List Event} {met : Option TaskId}
    (ends : work.ended? = some work) : Races before count ⟨work, [], events, met⟩ := by
  refine .still ?_
  rw [Work.races_ended ends]
  exact List.nil_subset _

theorem enter (routine : Routine) (argument : Value) :
    Races before count (Runbook.enter routine argument) := by
  rw [Runbook.enter]
  split
  · exact .still (List.nil_subset _)
  · split
    · exact .still (List.nil_subset _)
    · exact .ended rfl

theorem goOn (clock : Nat) (value : Value) (next : Continuation) :
    Races before count (machine.goOn clock value next) := by
  have perform {primitive : Primitive} {events : List Event} :
      Races before count (Machine.goOn.perform clock value primitive events) := by
    simp only [Machine.goOn.perform]
    split
    · exact .ended rfl
    · exact .still (List.nil_subset _)
  cases next with
  | pick names place =>
      rw [Machine.goOn]
      split
      · exact .ended rfl
      · exact .ended rfl
  | call callee =>
      rw [Machine.goOn]
      split
      · exact .enter _ _
      · exact .ended rfl
  | invoke primitive => exact perform
  | join primitive => exact perform

theorem begin (frame : Frame) (index : Nat) (entry : Entry) (entries : List Entry) :
    Races before count (machine.begin count frame index entry entries) := by
  obtain ⟨result, state, run, races, _, fits⟩ := SetUp.setUpEntry_keeps
    (.racing machine.registry count) index entries.isEmpty entry
    (⟨Nat.le_refl _, List.forall_mem_nil _⟩ : SetUp.State.Races count ⟨frame, count, [], []⟩)
  rw [Machine.begin, run]
  cases result with
  | error defect => exact ⟨List.forall_mem_nil _, races.started⟩
  | ok work => exact ⟨fun race raced => .inr (fits work rfl race raced), races.started⟩

theorem within {context : Work → Work} {change : Change} {whole : List (TaskId × TaskId)}
    (races : Races before count change)
    (adds : ∀ race ∈ (context change.work).races, race ∈ change.work.races ∨ race ∈ whole)
    (among : before ⊆ whole) : Races whole count (change.within context) := by
  refine ⟨fun race raced => ?_, races.started⟩
  rcases adds race raced with inside | outside
  · exact (races.work race inside).imp_left fun old => among old
  · exact .inl outside

end Change.Races

/-- A move makes a work race only tasks that it starts. -/
theorem Moves.races {work : Work} {change : Change} (moves : Moves machine world work change) :
    change.Races work.races world.tasks.length := by
  induction moves with
  | fresh => exact .still (List.Subset.refl _)
  | wait _ ends => exact .ended ends
  | race won => exact .ended (Machine.race_ended won)
  | wake => exact .ended rfl
  | goOn => exact .goOn _ _ _
  | fail => exact .ended rfl
  | breaks => exact .ended rfl
  | source _ ih => exact ih.within (fun _ => .inl) (List.Subset.refl _)
  | spoil spoiled =>
      obtain ⟨_, _, fails⟩ := spoiled_mem spoiled
      exact .ended (Work.ended?_of_failed? fails)
  | collect _ => exact .ended rfl
  | @member shape before member after change _ ih =>
      refine ih.within (fun race raced => ?_) fun race raced =>
        Work.races_gather.mpr ⟨member, List.mem_append_cons_self, raced⟩
      obtain ⟨other, inside, raced⟩ := Work.races_gather.mp raced
      rcases List.mem_append.mp inside with early | late
      · exact .inr (Work.races_gather.mpr ⟨other, List.mem_append_left _ early, raced⟩)
      · rcases List.mem_cons.mp late with rfl | late
        · exact .inl raced
        · exact .inr (Work.races_gather.mpr
            ⟨other, List.mem_append_right _ (List.mem_cons_of_mem _ late), raced⟩)
  | last => exact .still (List.nil_subset _)
  | begin => exact .begin _ _ _ _
  | bodyFails => exact .ended rfl
  | bodyBreaks => exact .ended rfl
  | current _ ih => exact ih.within (fun _ => .inl) (List.Subset.refl _)
  | settled => exact .ended rfl
  | settle _ settles =>
      rcases settle_cases settles with rfl | ⟨ended, events, ends, rfl⟩
      · exact .still (List.nil_subset _)
      · exact .ended ends

namespace World

variable {task : TaskId}

/-- No work waits for the first of the task and another one, nor will any later. -/
structure Unraced (task : TaskId) (world : World) : Prop where
  below : task < world.tasks.length
  unraced : ∀ work ∈ world.tasks, ∀ race ∈ work.races, race.1 ≠ task ∧ race.2 ≠ task

theorem Unraced.goes (unraced : world.Unraced task) (goes : world.Goes machine next) :
    next.Unraced task := by
  have fresh {other : TaskId} (above : world.tasks.length ≤ other) : other ≠ task :=
    Nat.ne_of_gt (Nat.lt_of_lt_of_le unraced.below above)
  cases goes with
  | tick _ _ same =>
      refine ⟨?_, ?_⟩
      · rw [same]
        exact unraced.below
      · rw [same]
        exact unraced.unraced
  | @move moved work change there moves _ same =>
      have kept : ∀ (other : TaskId) (work : Work), next.tasks[other]? = some work →
          ∀ race ∈ work.races, race.1 ≠ task ∧ race.2 ≠ task := by
        refine forall_tasksAfter same (fun _ work unraced => ?_) (fun race raced => ?_)
          (fun _ work stays => unraced.unraced work (List.mem_of_getElem? stays))
          fun _ work starts race raced => ?_
        · rwa [Work.races_meet]
        · rcases moves.races.work race raced with old | ⟨first, second⟩
          · exact unraced.unraced work (List.mem_of_getElem? there) race old
          · exact ⟨fresh first, fresh second⟩
        · obtain ⟨first, second⟩ :=
            moves.races.started work (List.mem_of_getElem? starts) race raced
          exact ⟨fresh first, fresh second⟩
      refine ⟨?_, fun work inside => ?_⟩
      · rw [same, length_tasksAfter]
        exact Nat.lt_add_right _ unraced.below
      · obtain ⟨other, stands⟩ := List.mem_iff_getElem?.mp inside
        exact kept other work stands

/-- When the clock goes on, no work races a task that has ended. -/
theorem Unraced.of_asleep (asleep : machine.awake world = [])
    (ends : (world.tasks[task]?.bind Work.ended?).isSome) : world.Unraced task := by
  obtain ⟨ended, ends⟩ := Option.isSome_iff_exists.mp ends
  obtain ⟨found, there, _⟩ := Option.bind_eq_some_iff.mp ends
  refine ⟨(List.getElem?_eq_some_iff.mp there).1, fun work inside race raced => ?_⟩
  obtain ⟨other, stands⟩ := List.mem_iff_getElem?.mp inside
  have still : Machine.step? machine world work = none := by
    by_contra moves
    have awake : other ∈ machine.awake world := by
      rw [Machine.mem_awake, Machine.stepTask?, stands, Option.bind_some]
      exact Option.isSome_iff_ne_none.mpr moves
    rw [asleep] at awake
    cases awake
  obtain ⟨first, second⟩ := Machine.step?_races work still race raced
  refine ⟨?_, ?_⟩
  · rintro rfl
    cases first.symm.trans ends
  · rintro rfl
    cases second.symm.trans ends

/-- A task that has ended stays so. -/
theorem Reaches.ended (reaches : world.Reaches machine next)
    (ends : (world.tasks[task]?.bind Work.ended?).isSome) :
    (next.tasks[task]?.bind Work.ended?).isSome := by
  refine @Reaches.keeps machine _ _ (fun world => (world.tasks[task]?.bind Work.ended?).isSome)
    reaches (fun {world next} holds goes => ?_) ends
  obtain ⟨ended, ends⟩ := Option.isSome_iff_exists.mp holds
  obtain ⟨work, there, ends⟩ := Option.bind_eq_some_iff.mp ends
  obtain rfl := Machine.ended?_eq ends
  rcases goes.ended there ends with same | met
  · rw [same, Option.bind_some, ends]
    rfl
  · rw [met, Option.bind_some]
    cases ended with
    | done outcome => rfl
    | broken defect => rfl
    | _ => cases ends

/-- Once the clock has gone on after the end of a task, no work races it any more. -/
theorem Reaches.unraced (reaches : world.Reaches machine next)
    (ends : (world.tasks[task]?.bind Work.ended?).isSome) (later : world.clock < next.clock) :
    next.Unraced task := by
  induction reaches with
  | refl => exact absurd later (Nat.lt_irrefl _)
  | @tail middle next reaches stepped ih =>
      have goes := step?_goes stepped
      by_cases before : world.clock < middle.clock
      · exact (ih before).goes goes
      · cases goes with
        | move _ _ clock _ =>
            rw [clock] at later
            exact absurd later before
        | tick asleep wakes same =>
            exact (Unraced.of_asleep asleep (Reaches.ended reaches ends)).goes
              (.tick asleep wakes same)

end World

end Runbook
