import Runbook.Proofs.Evaluation.Opening

/-!
The operands of an operator, in its run and in runs of their own.

An operator performs its operands as tasks, and a run that binds a step performs it as a task too.
A run of an operator therefore holds the runs of its operands beside each other; of them it has only
the outcomes, and what it makes of these is a matter of when they have come.
-/
namespace Runbook

/-- Two steps that read only their own names, and an operator that is applied to them; in runs of
their own they are bound to names. -/
structure Operands where
  registry : Registry
  library : Library
  procedure : Procedure
  setting : Setting
  operator : Operator
  left : Step
  right : Step
  names : List Name
  names' : List Name
  found : registry.lookup operator.primitive = some operator.asPrimitive
  bound : left.Bound []
  bound' : right.Bound []

namespace Operands

open World (Through)

def machine (operands : Operands) : Machine := ⟨operands.registry, operands.library⟩

/-- A routine that only performs the step. -/
def routine (operands : Operands) (step : Step) : Routine :=
  .performing operands.procedure operands.setting step operands.library

def start (operands : Operands) (step : Step) : World := .start (operands.routine step) .unit

/-- The run of the operator, and those of its operands. -/
def joint (operands : Operands) : Joint where
  machine := operands.machine
  start := operands.start (operands.operator.step operands.left operands.right)
  start₁ := operands.start (.bind operands.names operands.left)
  start₂ := operands.start (.bind operands.names' operands.right)
  orderly := World.start_orderly _ _
  orderly₁ := World.start_orderly _ _
  orderly₂ := World.start_orderly _ _

end Operands

/-- What one run starts beyond is not asked to be paired. -/
theorem Ground.Grown.free {ground : Ground} {pairs : Pairing} {started started' : List Work}
    (grown : ground.Grown pairs started started') (works : List Work) :
    Ground.Grown { ground with whole₁ := fun _ => False } pairs (started ++ works) started' := by
  have fewer : Ground.Grown { ground with whole₁ := fun _ => False } pairs started started' :=
    ⟨grown.keeps, grown.ordered, grown.fresh, grown.low, grown.works, fun _ _ => False.elim,
      grown.whole₂⟩
  exact fewer.startLeft works fun _ _ _ => id

theorem Work.Idles.await (operator : Operator) (left right : TaskId) :
    ∃ count, Idles count (operator.await left right) := by
  cases operator with
  | waitEither => exact ⟨1, .race left right⟩
  | _ => exact ⟨1 + 1 + 1, .pair _ (.wait left) (.wait right)⟩

namespace Operands

variable {operands : Operands} {moment : Nat} {last₁ last₂ : World}

open World (Through)

/-- After their first moves, the run of the operator waits for two tasks, and those of its operands
for one each, which is paired with one of the two. -/
structure Opened (operands : Operands) (pairs₁ pairs₂ : Pairing) (world one two : World)
    (left right left' right' : TaskId) : Prop where
  clock : world.clock = 0
  paired₁ : (left, left') ∈ pairs₁
  paired₂ : (right, right') ∈ pairs₂
  run : ∃ frame : Frame, frame.unobserved = [] ∧ world.tasks[0]? = some (.body frame
    (.after (operands.operator.await left right) (.join operands.operator.asPrimitive)) 1 [])
  run₁ : ∃ frame : Frame, frame.unobserved = [] ∧
    one.tasks[0]? = some (.body frame (.wait left') 1 [])
  run₂ : ∃ frame : Frame, frame.unobserved = [] ∧
    two.tasks[0]? = some (.body frame (.wait right') 1 [])

/-- The first move of the run of the operator, which starts a task for each operand. -/
theorem moves {work work' : Work} {middle last : SetUp.State}
    (first : (setUp operands.registry operands.setting operands.left).Gives
      ⟨⟨[]⟩, 1, [], [.starting 0 operands.setting]⟩ work middle)
    (second : (setUp operands.registry operands.setting operands.right).Gives
      { middle with next := middle.next + 1, started := middle.started ++ [.fresh work] } work'
      last) :
    ∃ next, operands.joint.start.step? operands.machine = some next ∧
      World.Move operands.machine operands.joint.start next 0
        (.body .empty (.done (.ok .unit)) 0
          [⟨operands.setting, operands.operator.step operands.left operands.right⟩])
        ⟨.body last.frame (.after (operands.operator.await middle.next last.next)
          (.join operands.operator.asPrimitive)) 1 [], last.started ++ [.fresh work'], last.events,
          none⟩ [] := by
  have gives : (setUpEntry operands.registry 0 true
      ⟨operands.setting, operands.operator.step operands.left operands.right⟩).Gives
      ⟨⟨[]⟩, 1, [], []⟩ _ _ := SetUp.setUpEntry_operands operands.found true first second
  refine operands.joint.orderly.opens rfl ?_
  rw [Machine.step?]
  exact congrArg some (@Machine.begin_gives operands.machine .empty _ [] 1 0 _ _ gives)

/-- The run of an operator, after its operands have been set up, holds those of its operands beside
each other. -/
theorem opens (through₁ : Through operands.machine moment operands.joint.start₁ last₁)
    (whole₁ : ∀ defect, last₁.outcome? ≠ some (.error defect))
    (through₂ : Through operands.machine moment operands.joint.start₂ last₂)
    (whole₂ : ∀ defect, last₂.outcome? ≠ some (.error defect)) :
    ∃ next one two pairs₁ pairs₂ count,
      operands.joint.start.step? operands.machine = some next ∧
      operands.joint.Holds pairs₁ pairs₂ count next one two ∧
      Through operands.machine moment one last₁ ∧ Through operands.machine moment two last₂ ∧
      ∃ left right left' right',
        operands.Opened pairs₁ pairs₂ next one two left right left' right' := by
  obtain ⟨one, work₁, middle₁, frame₁, solo₁, through₁⟩ :=
    World.Solo.opens operands.bound through₁ whole₁
  obtain ⟨two, work₂, middle₂, frame₂, solo₂, through₂⟩ :=
    World.Solo.opens operands.bound' through₂ whole₂
  -- the left operand is set up first, and what it starts is paired with that of its own run
  obtain ⟨work, middle, pairs₁, first, next₁, paired₁, grown₁⟩ :=
    @World.Solo.paired _ _ _ _ _ _ _ _ _ solo₁ operands.bound operands.joint.start
      ⟨⟨[]⟩, 1, [], [.starting 0 operands.setting]⟩ (List.forall_mem_nil _) rfl rfl
  obtain ⟨own, makes, _, _, tells⟩ := SetUp.setUp_makes operands.setting operands.left first
  obtain ⟨bindings, frame, settled, _⟩ := makes.own operands.bound
  have unread : ∀ binding ∈ middle.frame.bindings, binding.unobserved? = none := by
    rw [frame]
    exact settled
  have longer (works : List Work) (work : Work) : (works ++ [work]).length = works.length + 1 :=
    List.length_append
  have beginning : middle.next + 1 =
      (operands.joint.start.tasks ++ (middle.started ++ [Work.fresh work])).length := by
    rw [← List.append_assoc, longer]
    exact congrArg (· + 1) next₁
  -- then the right one, whose tasks come after those of the left one
  obtain ⟨work', last, pairs₂, second, next₂, paired₂, grown₂⟩ :=
    @World.Solo.paired _ _ _ _ _ _ _ _ _ solo₂ operands.bound' operands.joint.start
      { middle with next := middle.next + 1, started := middle.started ++ [.fresh work] }
      unread beginning tells
  obtain ⟨own', makes', _, all', tells'⟩ :=
    SetUp.setUp_makes operands.setting operands.right second
  obtain ⟨others, frame', settled', _⟩ := makes'.own operands.bound'
  obtain ⟨next, stepped, move⟩ := moves first second
  obtain ⟨count, idles⟩ := Work.Idles.await operands.operator middle.next last.next
  have more := grown₁.free (own' ++ [.fresh work'])
  have started : middle.started ++ [.fresh work] ++ (own' ++ [.fresh work']) =
      last.started ++ [.fresh work'] := by
    rw [all']
    exact (List.append_assoc _ _ _).symm
  rw [started] at more
  have abreast₁ : operands.joint.first.Abreast pairs₁ next one :=
    Comparison.opens rfl rfl rfl rfl rfl rfl ⟨Nat.one_pos, Nat.one_pos⟩ rfl stepped solo₁.stepped
      move solo₁.move more trivial
  have abreast₂ : operands.joint.second.Abreast pairs₂ next two :=
    Comparison.opens rfl rfl rfl rfl rfl rfl ⟨Nat.succ_pos _, Nat.one_pos⟩ rfl stepped
      solo₂.stepped move solo₂.move grown₂ trivial
  have below : ∀ task ∈ pairs₁.lefts, 0 < task ∧ task < middle.next + 1 := by
    intro task inside
    obtain ⟨other, paired⟩ := Pairing.mem_lefts.mp inside
    refine ⟨(grown₁.fresh _ paired).elim nofun And.left, ?_⟩
    rw [beginning]
    exact (grown₁.below paired).1
  have above : ∀ task ∈ pairs₂.lefts, middle.next + 1 ≤ task := by
    intro task inside
    obtain ⟨other, paired⟩ := Pairing.mem_lefts.mp inside
    exact (grown₂.fresh _ paired).elim nofun And.left
  have empty : last.frame.unobserved = [] := by
    rw [frame', Frame.unobserved, List.filterMap_eq_nil_iff]
    intro binding inside
    exact (List.mem_append.mp inside).elim (unread binding) (settled' binding)
  have idle : next.Idle (pairs₁.lefts ++ pairs₂.lefts) (count + 1 + 2) := by
    refine .opens move rfl (.body 1 empty (.join operands.operator idles)) ?_ ?_
    · intro zero
      rcases List.mem_append.mp zero with inside | inside
      · exact Nat.lt_irrefl _ (below 0 inside).1
      · exact Nat.not_succ_le_zero _ (above 0 inside)
    · intro task positive last
      rw [List.mem_append]
      by_cases early : task < middle.next + 1
      · refine .inl (Pairing.mem_lefts.mpr (grown₁.whole₁ task ?_ positive))
        rw [beginning] at early
        exact early
      · refine .inr (Pairing.mem_lefts.mpr (grown₂.whole₁ task ?_ (Nat.le_of_not_lt early)))
        rw [List.length_append]
        exact last
  refine ⟨next, one, two, pairs₁, pairs₂, count + 1 + 2, stepped,
    ⟨abreast₁, abreast₂, ?_, idle, ⟨_, solo₁.idle grown₁⟩, ⟨_, solo₂.idle grown₂⟩, ?_⟩, through₁,
    through₂, middle.next, last.next, middle₁.next, middle₂.next, move.clock, paired₁, paired₂,
    ⟨_, empty, move.getElem?_moved.elim id id⟩, ⟨_, solo₁.settled, solo₁.waits⟩,
    ⟨_, solo₂.settled, solo₂.waits⟩⟩
  · intro task inside other
    exact absurd (below task inside).2 (Nat.not_lt_of_le (above task other))
  · rw [solo₁.heard, solo₂.heard, move.silent (tells'.trans tells)]
    exact .refl _

end Operands

end Runbook
