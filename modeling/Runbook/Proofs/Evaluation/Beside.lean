import Runbook.Proofs.Evaluation.Together
import Mathlib.Data.List.Perm.Basic

/-!
Two runs that another one holds beside each other.

Each task of a run, but for the run itself, does what a task of one of two others does, and the runs
themselves only wait for tasks. Then a run comes through each moment that both others come through,
and has told what both have.
-/
namespace Runbook

/-- A work that only waits for tasks, and the most moves that it is good for. -/
inductive Work.Idles : Nat → Work → Prop
  | done (outcome : Outcome) : Idles 0 (.done outcome)
  | broken (defect : Defect) : Idles 0 (.broken defect)
  | wait (task : TaskId) : Idles 1 (.wait task)
  | race (left right : TaskId) : Idles 1 (.race left right)
  | join {count : Nat} {source : Work} (operator : Operator) : Idles count source →
      Idles (count + 1) (.after source (.join operator.asPrimitive))
  | pair {count count' : Nat} {left right : Work} (shape : Shape) : Idles count left →
      Idles count' right → Idles (count + count' + 1) (.gather shape [left, right])
  | body {count : Nat} {frame : Frame} {current : Work} (index : Nat) : frame.unobserved = [] →
      Idles count current → Idles (count + 2) (.body frame current index [])
  | settle (result : Value) : Idles 1 (.settle [] result)

namespace Work.Idles

variable {machine : Machine} {world : World} {count : Nat} {work : Work} {change : Change}

theorem ended {ended : Work} (ends : ended.ended? = some ended) : Idles 0 ended := by
  cases ended with
  | done outcome => exact .done outcome
  | broken defect => exact .broken defect
  | _ => cases ends

theorem meet (idles : Idles count work) : Idles count work.meet := by
  cases idles with
  | broken defect => exact .broken .met
  | done outcome => exact .done outcome
  | wait task => exact .wait task
  | race left right => exact .race left right
  | join operator source => exact .join operator source
  | pair shape left right => exact .pair shape left right
  | body index none current => exact .body index none current
  | settle result => exact .settle result

theorem wakes (idles : Idles count work) : work.wakes = [] := by
  induction idles with
  | join _ _ ih => exact ih
  | pair _ _ _ first second =>
      rw [Work.wakes, wakesOfAll, wakesOfAll, wakesOfAll, first, second]
      rfl
  | body _ _ _ ih => exact ih
  | _ => rfl

/-- Such a work starts nothing and tells nothing, and has fewer moves left after each. -/
theorem moves (idles : Idles count work) (moves : Moves machine world work change) :
    change.started = [] ∧ told change.events = [] ∧ ∃ fewer < count, Idles fewer change.work := by
  induction idles generalizing change with
  | done _ => cases moves
  | broken _ => cases moves
  | wait _ =>
      cases moves with
      | wait _ ends => exact ⟨rfl, rfl, 0, Nat.one_pos, .ended ends⟩
  | race _ _ =>
      cases moves with
      | race won => exact ⟨rfl, rfl, 0, Nat.one_pos, .ended (Machine.race_ended won)⟩
  | @join count source operator _ ih =>
      cases moves with
      | goOn => exact ⟨rfl, rfl, 0, Nat.succ_pos _, .done _⟩
      | fail => exact ⟨rfl, rfl, 0, Nat.succ_pos _, .done _⟩
      | breaks => exact ⟨rfl, rfl, 0, Nat.succ_pos _, .broken _⟩
      | source inner =>
          obtain ⟨started, tells, fewer, less, idles⟩ := ih inner
          exact ⟨started, tells, fewer + 1, Nat.succ_lt_succ less, .join operator idles⟩
  | @pair count count' left right shape one two first second =>
      generalize members : [left, right] = works at moves
      cases moves with
      | spoil spoiled =>
          obtain ⟨_, _, fails⟩ := Moves.spoiled_mem spoiled
          exact ⟨rfl, rfl, 0, Nat.succ_pos _, .ended (Work.ended?_of_failed? fails)⟩
      | collect _ => exact ⟨rfl, rfl, 0, Nat.succ_pos _, .done _⟩
      | @member _ before member after inner moves =>
          cases before with
          | nil =>
              cases members
              obtain ⟨started, tells, fewer, less, idles⟩ := first moves
              exact ⟨started, tells, fewer + count' + 1, by omega, .pair shape idles two⟩
          | cons other before =>
              cases before with
              | nil =>
                  cases members
                  obtain ⟨started, tells, fewer, less, idles⟩ := second moves
                  exact ⟨started, tells, count + fewer + 1, by omega, .pair shape one idles⟩
              | cons another before => cases before <;> cases members
  | @body count frame current index none _ ih =>
      cases moves with
      | last =>
          refine ⟨rfl, rfl, 1, by omega, ?_⟩
          rw [none]
          exact .settle _
      | bodyFails => exact ⟨rfl, rfl, 0, by omega, .done _⟩
      | bodyBreaks => exact ⟨rfl, rfl, 0, by omega, .broken _⟩
      | current inner =>
          obtain ⟨started, tells, fewer, less, idles⟩ := ih inner
          exact ⟨started, tells, fewer + 2, by omega, .body index none idles⟩
  | settle _ =>
      cases moves with
      | settled => exact ⟨rfl, rfl, 0, Nat.one_pos, .done _⟩

end Work.Idles

theorem heard_map (events : List Event) (clock : Nat) :
    heard (events.map (⟨clock, ·⟩)) = (told events).map (⟨clock, ·⟩) := by
  rw [heard, told, List.filter_map]
  rfl

/-- The run itself only waits for tasks, and has so many moves left at most; all others are listed. -/
structure World.Idle (world : World) (tasks : List Nat) (count : Nat) : Prop where
  run : ∃ work, world.tasks[0]? = some work ∧ work.Idles count
  other : 0 ∉ tasks
  rest : ∀ task, task < world.tasks.length → task ≠ 0 → task ∈ tasks

namespace World.Idle

variable {machine : Machine} {world next : World} {tasks : List Nat} {count : Nat}

theorem congr {more : List Nat} (idle : world.Idle tasks count) (le : tasks ⊆ more)
    (ge : more ⊆ tasks) : world.Idle more count :=
  ⟨idle.run, fun zero => idle.other (ge zero),
    fun task below differs => le (idle.rest task below differs)⟩

/-- If no task that is listed moves, the run itself does, or the clock. -/
theorem aside (idle : world.Idle tasks count) (orderly : world.Orderly machine)
    (aside : World.Aside machine tasks world next) :
    heard next.log = heard world.log ∧
      ((∃ fewer < count, next.Idle tasks fewer) ∨
        World.Tick machine world next ∧ next.Idle tasks count) := by
  rcases orderly.cases aside.stepped with ⟨task, work, change, rest, move⟩ | tick
  · have zero : task = 0 := by
      by_contra differs
      exact aside.stray move (idle.rest task move.below differs)
    obtain ⟨main, there, idles⟩ := idle.run
    have same : work = main := by
      rw [zero] at move
      exact Option.some.inj (move.there.symm.trans there)
    rw [same] at move
    obtain ⟨started, tells, fewer, less, idles⟩ := idles.moves move.moves
    refine ⟨?_, .inl ⟨fewer, less, ?_, idle.other, ?_⟩⟩
    · rw [move.log, heard_append, heard_map, tells, List.map_nil, List.append_nil]
    · have moved := move.getElem?_moved
      rw [zero] at moved
      rcases moved with plain | met
      · exact ⟨_, plain, idles⟩
      · exact ⟨_, met, idles.meet⟩
    · intro other below differs
      refine idle.rest other ?_ differs
      rw [move.length, started] at below
      exact below
  · refine ⟨congrArg heard tick.log, .inr ⟨tick, ?_, idle.other, ?_⟩⟩
    · rw [tick.tasks]
      exact idle.run
    · rw [tick.tasks]
      exact idle.rest

/-- A listed task moves, and what it starts is listed too. -/
theorem move {task : TaskId} {work : Work} {change : Change} {rest : List TaskId} {more : List Nat}
    (idle : world.Idle tasks count) (move : World.Move machine world next task work change rest)
    (inside : task ∈ tasks) (old : ∀ task ∈ more, task ∈ tasks ∨ world.tasks.length ≤ task)
    (whole : ∀ task, world.tasks.length ≤ task → task < world.tasks.length + change.started.length →
      task ∈ more) : next.Idle (tasks ++ more) count := by
  refine ⟨?_, fun zero => ?_, fun other below differs => ?_⟩
  · obtain ⟨main, there, idles⟩ := idle.run
    have kept : world.Kept next 0 := .move move there fun zero => idle.other (zero ▸ inside)
    obtain ⟨before, found, after⟩ := kept
    obtain rfl := Option.some.inj (found.symm.trans there)
    rcases after with same | met
    · exact ⟨_, same, idles⟩
    · exact ⟨_, met, idles.meet⟩
  · rcases List.mem_append.mp zero with listed | new
    · exact idle.other listed
    · rcases old 0 new with listed | fresh
      · exact idle.other listed
      · exact absurd fresh (Nat.not_le_of_lt (Nat.zero_lt_of_lt move.below))
  · by_cases before : other < world.tasks.length
    · exact List.mem_append_left _ (idle.rest other before differs)
    · rw [move.length] at below
      exact List.mem_append_right _ (whole other (Nat.le_of_not_lt before) below)

theorem tick {more : List Nat} (idle : world.Idle tasks count)
    (tick : World.Tick machine world next) (old : more ⊆ tasks) :
    next.Idle (tasks ++ more) count := by
  refine ⟨?_, fun zero => ?_, fun task below differs => ?_⟩
  · rw [tick.tasks]
    exact idle.run
  · exact idle.other ((List.mem_append.mp zero).elim id fun listed => old listed)
  · rw [tick.tasks] at below
    exact List.mem_append_left _ (idle.rest task below differs)

end World.Idle

namespace Comparison

/-- Everything is asked of two runs: what paired tasks start is paired, and they begin the same. -/
def everything : Likeness where
  shared _ := True
  entries _ ones others := ones = others
  outruns₁ _ _ := False
  outruns₂ _ _ := False
  whole := True

theorem everything_lawful (machine : Machine) :
    everything.Lawful (fun _ _ _ _ _ => True) machine machine where
  routines callee := by
    cases machine.library.get? callee with
    | none => exact .none
    | some routine => exact .some ⟨rfl, rfl, rfl⟩
  last same := same.symm
  next same := ⟨_, _, same.symm, rfl⟩
  begin := by
    intro index entry entries entry' entries' ground pairs one other like _ same _ alike
    obtain ⟨rfl, rfl⟩ := List.cons.inj same
    have reads : Seen everything.shared (entry.step.mentions ++ []) :=
      Seen.of_reads fun _ _ => trivial
    rw [← like] at alike reads ⊢
    exact SetUp.setUpEntry_agree index entries.isEmpty entry (alike _ reads)

/-- Two runs of one machine are compared in everything. -/
def same (machine : Machine) (start start' : World) (orderly : start.Orderly machine)
    (orderly' : start'.Orderly machine) : Comparison where
  like := everything
  begins _ _ _ _ _ := True
  machine := machine
  machine' := machine
  start := start
  start' := start'
  keeps _ _ _ := True
  lawful := everything_lawful machine
  orderly₁ := orderly
  orderly₂ := orderly'
  calm₁ _ _ _ _ _ _ _ _ := ⟨False.elim, False.elim⟩
  calm₂ _ _ _ _ _ _ _ _ := ⟨False.elim, False.elim⟩
  permits _ _ _ _ _ _ _ _ _ _ _ _ _ _ _ := trivial
  keepsLeft _ _ _ _ := trivial
  keepsRight _ _ _ _ := trivial
  keepsBoth _ _ _ _ _ _ _ _ _ _ _ := trivial

namespace Both

variable {two : Comparison} {pairs more : Pairing} {world world' next next' : World}

/-- In a step that both make together they tell the same. -/
theorem heard (both : two.Both pairs more world world' next next') : ∃ events,
    Runbook.heard next.log = Runbook.heard world.log ++ events ∧
      Runbook.heard next'.log = Runbook.heard world'.log ++ events := by
  cases both with
  | @move _ _ _ _ change _ _ _ inside clocks move move' alike =>
      refine ⟨(told change.events).map (⟨world.clock, ·⟩), ?_, ?_⟩
      · rw [move.log, heard_append, heard_map]
      · rw [move'.log, heard_append, heard_map, alike.told, clocks]
  | tick _ tick tick' =>
      refine ⟨[], ?_, ?_⟩
      · rw [tick.log, List.append_nil]
      · rw [tick'.log, List.append_nil]

theorem fresh (both : two.Both pairs more world world' next next') :
    ∀ pair ∈ more, pair ∈ pairs ∨ world.tasks.length ≤ pair.1 := by
  intro pair inside
  cases both with
  | move _ _ _ _ alike => exact (alike.grown.fresh pair inside).imp_right And.left
  | tick same _ _ => exact .inl (same ▸ inside)

/-- If what paired tasks start is paired, the tasks of the first run stay listed. -/
theorem idleLeft {tasks : List Nat} {count : Nat} (whole : two.like.whole)
    (both : two.Both pairs more world world' next next') (idle : world.Idle tasks count)
    (le : pairs.lefts ⊆ tasks) : next.Idle (tasks ++ more.lefts) count := by
  cases both with
  | move inside _ move _ alike =>
      refine idle.move move (le (Pairing.mem_lefts.mpr ⟨_, inside⟩)) ?_ ?_
      · intro task new
        obtain ⟨other, paired⟩ := Pairing.mem_lefts.mp new
        rcases alike.grown.fresh _ paired with known | fresh
        · exact .inl (le (Pairing.mem_lefts.mpr ⟨other, known⟩))
        · exact .inr fresh.1
      · intro task fresh below
        rw [← List.length_append] at below
        exact Pairing.mem_lefts.mpr (alike.grown.whole₁ task below ⟨whole, fresh⟩)
  | tick same tick _ =>
      rw [same]
      exact idle.tick tick le

theorem idleRight {tasks : List Nat} {count : Nat} (whole : two.like.whole)
    (both : two.Both pairs more world world' next next') (idle : world'.Idle tasks count)
    (le : pairs.rights ⊆ tasks) : next'.Idle (tasks ++ more.rights) count := by
  cases both with
  | move inside _ _ move alike =>
      refine idle.move move (le (Pairing.mem_rights.mpr ⟨_, inside⟩)) ?_ ?_
      · intro task new
        obtain ⟨other, paired⟩ := Pairing.mem_rights.mp new
        rcases alike.grown.fresh _ paired with known | fresh
        · exact .inl (le (Pairing.mem_rights.mpr ⟨other, known⟩))
        · exact .inr fresh.2
      · intro task fresh below
        rw [← List.length_append] at below
        exact Pairing.mem_rights.mpr (alike.grown.whole₂ task below ⟨whole, fresh⟩)
  | tick same _ tick =>
      rw [same]
      exact idle.tick tick le

end Both

end Comparison

theorem Pairing.lefts_subset {pairs more : Pairing} (le : pairs ⊆ more) :
    pairs.lefts ⊆ more.lefts := List.map_subset _ le

theorem Pairing.rights_subset {pairs more : Pairing} (le : pairs ⊆ more) :
    pairs.rights ⊆ more.rights := List.map_subset _ le

/-- A run, and two others that it may hold beside each other. -/
structure Joint where
  machine : Machine
  start : World
  start₁ : World
  start₂ : World
  orderly : start.Orderly machine
  orderly₁ : start₁.Orderly machine
  orderly₂ : start₂.Orderly machine

/-- The clock of the first run has not moved alone to a moment that a paired task waits for. -/
theorem Comparison.Abreast.not_awaited {two : Comparison} {pairs : Pairing}
    {world world' next : World} (before : two.Abreast pairs world world')
    (tick : World.Tick two.machine world next) (after : two.Abreast pairs next world')
    {pair : Nat × Nat} (inside : pair ∈ pairs) {work : Work}
    (there : world.tasks[pair.1]? = some work) : next.clock ∉ work.wakes := by
  intro awaited
  have later : next.tasks[pair.1]? = some work := by
    rw [tick.tasks]
    exact there
  rcases after.clocks with same | idle
  · rcases before.clocks with same' | idle
    · have forward := tick.later
      rw [same', ← same] at forward
      exact Nat.lt_irrefl _ forward
    · have forward := ((idle pair inside).2 work there _ awaited).2
      rw [← same] at forward
      exact Nat.lt_irrefl _ forward
  · exact Nat.lt_irrefl _ ((idle pair inside).2 work later _ awaited).1

namespace Joint

def first (joint : Joint) : Comparison :=
  .same joint.machine joint.start joint.start₁ joint.orderly joint.orderly₁

def second (joint : Joint) : Comparison :=
  .same joint.machine joint.start joint.start₂ joint.orderly joint.orderly₂

def swap (joint : Joint) : Joint :=
  ⟨joint.machine, joint.start, joint.start₂, joint.start₁, joint.orderly, joint.orderly₂,
    joint.orderly₁⟩

/-- The run is abreast of both others; its tasks but itself are of the one or of the other, and it
has told what both have. -/
structure Holds (joint : Joint) (pairs₁ pairs₂ : Pairing) (count : Nat) (world one two : World) :
    Prop where
  first : joint.first.Abreast pairs₁ world one
  second : joint.second.Abreast pairs₂ world two
  apart : ∀ task ∈ pairs₁.lefts, task ∉ pairs₂.lefts
  idle : world.Idle (pairs₁.lefts ++ pairs₂.lefts) count
  idle₁ : ∃ count, one.Idle pairs₁.rights count
  idle₂ : ∃ count, two.Idle pairs₂.rights count
  heard : (heard world.log).Perm (heard one.log ++ heard two.log)

namespace Holds

variable {joint : Joint} {pairs₁ pairs₂ more : Pairing} {count : Nat}
  {world one two next one' two' : World}

theorem swap (holds : joint.Holds pairs₁ pairs₂ count world one two) :
    joint.swap.Holds pairs₂ pairs₁ count world two one where
  first := holds.second
  second := holds.first
  apart task second first := holds.apart task first second
  idle := holds.idle.congr
    (List.append_subset.mpr ⟨List.subset_append_right _ _, List.subset_append_left _ _⟩)
    (List.append_subset.mpr ⟨List.subset_append_right _ _, List.subset_append_left _ _⟩)
  idle₁ := holds.idle₂
  idle₂ := holds.idle₁
  heard := holds.heard.trans List.perm_append_comm

/-- One of the others goes on alone. -/
theorem aside (holds : joint.Holds pairs₁ pairs₂ count world one two)
    (aside : World.Aside joint.machine pairs₁.rights one one')
    (abreast : joint.first.Abreast pairs₁ world one') :
    joint.Holds pairs₁ pairs₂ count world one' two := by
  obtain ⟨least, idle⟩ := holds.idle₁
  obtain ⟨heard, later⟩ := idle.aside holds.first.orderly₂ aside
  refine ⟨abreast, holds.second, holds.apart, holds.idle, ?_, holds.idle₂, ?_⟩
  · rcases later with ⟨fewer, _, later⟩ | ⟨_, later⟩
    · exact ⟨fewer, later⟩
    · exact ⟨least, later⟩
  · rw [heard]
    exact holds.heard

/-- The run goes on together with one of the others. -/
theorem both (holds : joint.Holds pairs₁ pairs₂ count world one two) (keeps : pairs₁ ⊆ more)
    (both : joint.first.Both pairs₁ more world one next one')
    (abreast : joint.first.Abreast more next one')
    (second : joint.second.Abreast pairs₂ next two) :
    joint.Holds more pairs₂ count next one' two := by
  obtain ⟨least, idle⟩ := holds.idle₁
  have lefts := Pairing.lefts_subset keeps
  have rights := Pairing.rights_subset keeps
  have later := both.idleLeft trivial holds.idle (List.subset_append_left _ _)
  have later' := both.idleRight trivial idle (List.Subset.refl _)
  obtain ⟨events, tells, tells'⟩ := both.heard
  refine ⟨abreast, second, ?_, later.congr ?_ ?_, ⟨least, later'.congr ?_ ?_⟩, holds.idle₂, ?_⟩
  · intro task inside other
    obtain ⟨counterpart, paired⟩ := Pairing.mem_lefts.mp inside
    rcases both.fresh _ paired with known | fresh
    · exact holds.apart task (Pairing.mem_lefts.mpr ⟨counterpart, known⟩) other
    · obtain ⟨counterpart, paired⟩ := Pairing.mem_lefts.mp other
      exact absurd (holds.second.paired.below paired).1 (Nat.not_lt_of_le fresh)
  · refine List.append_subset.mpr ⟨List.append_subset.mpr ⟨?_, List.subset_append_right _ _⟩,
      List.subset_append_left _ _⟩
    exact List.Subset.trans lefts (List.subset_append_left _ _)
  · refine List.append_subset.mpr ⟨List.subset_append_right _ _, ?_⟩
    exact List.Subset.trans (List.subset_append_right _ _) (List.subset_append_left _ _)
  · exact List.append_subset.mpr ⟨rights, List.Subset.refl _⟩
  · exact List.subset_append_right _ _
  · rw [tells, tells', List.append_assoc]
    refine (holds.heard.append_right events).trans ?_
    rw [List.append_assoc]
    exact List.perm_append_comm.append_left _

/-- All three clocks move to the same moment. -/
theorem ticks (holds : joint.Holds pairs₁ pairs₂ count world one two)
    (tick : World.Tick joint.machine world next) (tick₁ : World.Tick joint.machine one one')
    (tick₂ : World.Tick joint.machine two two')
    (first : joint.first.Abreast pairs₁ next one')
    (second : joint.second.Abreast pairs₂ next two') :
    joint.Holds pairs₁ pairs₂ count next one' two' := by
  have keep {machine : Machine} {world next : World} {tasks : List Nat} {count : Nat}
      (idle : world.Idle tasks count) (tick : World.Tick machine world next) :
      next.Idle tasks count := by
    have later := idle.tick tick (List.nil_subset tasks)
    rw [List.append_nil] at later
    exact later
  refine ⟨first, second, holds.apart, keep holds.idle tick, holds.idle₁.imp fun _ idle =>
    keep idle tick₁, holds.idle₂.imp fun _ idle => keep idle tick₂, ?_⟩
  rw [tick.log, tick₁.log, tick₂.log]
  exact holds.heard

/-- The run itself moves. -/
theorem run (holds : joint.Holds pairs₁ pairs₂ count world one two)
    (aside : World.Aside joint.machine (pairs₁.lefts ++ pairs₂.lefts) world next)
    (first : joint.first.Abreast pairs₁ next one) (second : joint.second.Abreast pairs₂ next two)
    (awake : ¬World.Tick joint.machine world next) :
    ∃ fewer < count, joint.Holds pairs₁ pairs₂ fewer next one two := by
  obtain ⟨heard, later⟩ := holds.idle.aside holds.first.orderly₁ aside
  rcases later with ⟨fewer, less, later⟩ | ⟨tick, _⟩
  · refine ⟨fewer, less, first, second, holds.apart, later, holds.idle₁, holds.idle₂, ?_⟩
    rw [heard]
    exact holds.heard
  · exact absurd tick awake

/-- The clock of the run does not move alone to a moment that a task waits for. -/
theorem not_alone (holds : joint.Holds pairs₁ pairs₂ count world one two)
    (tick : World.Tick joint.machine world next) (first : joint.first.Abreast pairs₁ next one)
    (second : joint.second.Abreast pairs₂ next two) : False := by
  obtain ⟨work, inside, awaited⟩ := Work.mem_wakesOfAll.mp (List.min?_mem tick.wakes)
  obtain ⟨task, there⟩ := List.mem_iff_getElem?.mp inside
  have differs : task ≠ 0 := by
    rintro rfl
    obtain ⟨main, found, idles⟩ := holds.idle.run
    obtain rfl := Option.some.inj (found.symm.trans there)
    rw [idles.wakes] at awaited
    cases awaited
  have below := (List.getElem?_eq_some_iff.mp there).1
  rcases List.mem_append.mp (holds.idle.rest task below differs) with listed | listed
  · obtain ⟨other, paired⟩ := Pairing.mem_lefts.mp listed
    exact holds.first.not_awaited tick first paired there awaited
  · obtain ⟨other, paired⟩ := Pairing.mem_lefts.mp listed
    exact holds.second.not_awaited tick second paired there awaited

/-- A run comes through each moment that both others come through. -/
theorem through {moment : Nat} {last₁ last₂ : World} {count₁ count₂ : Nat}
    (holds : joint.Holds pairs₁ pairs₂ count world one two) (come : world.clock ≤ moment)
    (steps₁ : World.Steps joint.machine count₁ one last₁)
    (steps₂ : World.Steps joint.machine count₂ two last₂)
    (rests₁ : World.Rests joint.machine moment last₁)
    (rests₂ : World.Rests joint.machine moment last₂) :
    ∃ more₁ more₂ count last, pairs₁ ⊆ more₁ ∧ pairs₂ ⊆ more₂ ∧
      joint.Holds more₁ more₂ count last last₁ last₂ ∧
      world.Reaches joint.machine last ∧ World.Rests joint.machine moment last := by
  -- each step takes one of the others nearer to its end, or the run itself
  induction whole : count + count₁ + count₂ using Nat.strong_induction_on
    generalizing count count₁ count₂ pairs₁ pairs₂ world one two with
  | _ total ih =>
      have come₁ := Nat.le_trans (World.Reaches.clock_le steps₁.reaches) rests₁.come
      have come₂ := Nat.le_trans (World.Reaches.clock_le steps₂.reaches) rests₂.come
      by_cases rests : World.Rests joint.machine moment world
      · cases steps₁ with
        | @head count₁ _ one' _ stepped rest =>
            have early := Nat.le_trans (World.Reaches.clock_le rest.reaches) rests₁.come
            obtain ⟨aside, abreast⟩ := holds.first.stepRight rests stepped early
            exact ih _ (by omega) (holds.aside aside abreast) come rest steps₂ rfl
        | refl =>
            cases steps₂ with
            | @head count₂ _ two' _ stepped rest =>
                have early := Nat.le_trans (World.Reaches.clock_le rest.reaches) rests₂.come
                obtain ⟨aside, abreast⟩ := holds.second.stepRight rests stepped early
                exact ih (count + 0 + count₂) (by omega) (holds.swap.aside aside abreast).swap come
                  .refl rest rfl
            | refl =>
                exact ⟨pairs₁, pairs₂, count, world, List.Subset.refl _, List.Subset.refl _, holds,
                  .refl, rests⟩
      · obtain ⟨next, stepped, early⟩ : ∃ next, world.step? joint.machine = some next ∧
            next.clock ≤ moment := by
          by_contra none
          refine rests ⟨come, fun next stepped => ?_⟩
          exact Nat.lt_of_not_le fun early => none ⟨next, stepped, early⟩
        have later {before₁ before₂ : Pairing} {fewer count₁ count₂ : Nat} {one two : World}
            (keeps₁ : pairs₁ ⊆ before₁) (keeps₂ : pairs₂ ⊆ before₂)
            (holds : joint.Holds before₁ before₂ fewer next one two)
            (steps₁ : World.Steps joint.machine count₁ one last₁)
            (steps₂ : World.Steps joint.machine count₂ two last₂)
            (less : fewer + count₁ + count₂ < total) :
            ∃ more₁ more₂ count last, pairs₁ ⊆ more₁ ∧ pairs₂ ⊆ more₂ ∧
              joint.Holds more₁ more₂ count last last₁ last₂ ∧
              world.Reaches joint.machine last ∧ World.Rests joint.machine moment last := by
          obtain ⟨more₁, more₂, least, last, le₁, le₂, holds, reaches, rests⟩ :=
            ih _ less holds early steps₁ steps₂ rfl
          exact ⟨more₁, more₂, least, last, List.Subset.trans keeps₁ le₁,
            List.Subset.trans keeps₂ le₂, holds, .head stepped reaches, rests⟩
        rcases holds.first.stepLeft stepped early come₁ with
          ⟨aside, first⟩ | ⟨one', stepped₁, early₁, first⟩
        · rcases holds.second.stepLeft stepped early come₂ with
            ⟨aside', second⟩ | ⟨two', stepped₂, early₂, second⟩
          · by_cases tick : World.Tick joint.machine world next
            · exact (holds.not_alone tick first second).elim
            · have both : World.Aside joint.machine (pairs₁.lefts ++ pairs₂.lefts) world next := by
                refine ⟨stepped, fun move inside => ?_⟩
                exact (List.mem_append.mp inside).elim (aside.stray move) (aside'.stray move)
              obtain ⟨fewer, less, holds⟩ := holds.run both first second tick
              exact later (List.Subset.refl _) (List.Subset.refl _) holds steps₁ steps₂ (by omega)
          · obtain ⟨fewer, less, rest⟩ := steps₂.nearer rests₂ stepped₂ early₂
            rcases second with ⟨aside, second⟩ | ⟨more, keeps, both, second⟩
            · exact ih (count + count₁ + fewer) (by omega) (holds.swap.aside aside second).swap come
                steps₁ rest rfl
            · exact later (List.Subset.refl _) keeps (holds.swap.both keeps both second first).swap
                steps₁ rest (by omega)
        · obtain ⟨fewer, less, rest⟩ := steps₁.nearer rests₁ stepped₁ early₁
          rcases first with ⟨aside, first⟩ | ⟨more, keeps, both, first⟩
          · exact ih (count + fewer + count₂) (by omega) (holds.aside aside first) come rest steps₂
              rfl
          · rcases holds.second.stepLeft stepped early come₂ with
              ⟨_, second⟩ | ⟨two', stepped₂, early₂, second⟩
            · exact later keeps (List.Subset.refl _) (holds.both keeps both first second) rest steps₂
                (by omega)
            · obtain ⟨fewer', less', rest'⟩ := steps₂.nearer rests₂ stepped₂ early₂
              rcases second with ⟨aside, second⟩ | ⟨more', _, both', second⟩
              · exact ih (count + count₁ + fewer') (by omega)
                  (holds.swap.aside aside second).swap come steps₁ rest' rfl
              · -- no task is of both, so that all clocks move
                cases both with
                | move inside _ move _ _ =>
                    cases both' with
                    | move inside' _ move' _ _ =>
                        rw [← move.same move'] at inside'
                        exact absurd (Pairing.mem_lefts.mpr ⟨_, inside'⟩)
                          (holds.apart _ (Pairing.mem_lefts.mpr ⟨_, inside⟩))
                    | tick _ tick _ => exact absurd move tick.not_move
                | tick same tick tick₁ =>
                    cases both' with
                    | move _ _ move _ _ => exact absurd move tick.not_move
                    | tick same' _ tick₂ =>
                        rw [same] at first
                        rw [same'] at second
                        exact later (List.Subset.refl _) (List.Subset.refl _)
                          (holds.ticks tick tick₁ tick₂ first second) rest rest' (by omega)

end Holds

end Joint

end Runbook
