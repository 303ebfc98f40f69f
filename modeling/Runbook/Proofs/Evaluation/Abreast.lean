import Runbook.Proofs.Evaluation.Lockstep
import Runbook.Proofs.Evaluation.Turns
import Mathlib.Data.List.Sort

/-!
Two runs that are abreast of each other.

Tasks of two runs are paired, with like works; those that can move stand in the same order in both
agendas, whatever other tasks stand between them. A run that moves another task stays abreast of
the other one, and so does a run whose clock moves to a moment that no paired task waits for. If it
moves a paired task, the other run does so too after some moves of its own.
-/
namespace Runbook

namespace Pairing

variable {pairs more : Pairing} {ones others ones' others' : List Nat}

/-- The tasks of the one run that are paired. -/
def lefts (pairs : Pairing) : List Nat := pairs.map Prod.fst

def rights (pairs : Pairing) : List Nat := pairs.map Prod.snd

theorem mem_lefts {task : Nat} : task ∈ pairs.lefts ↔ ∃ other, (task, other) ∈ pairs := by
  rw [lefts, List.mem_map]
  constructor
  · intro found
    obtain ⟨pair, paired, rfl⟩ := found
    exact ⟨pair.2, paired⟩
  · intro found
    obtain ⟨other, paired⟩ := found
    exact ⟨_, paired, rfl⟩

theorem mem_rights {task : Nat} : task ∈ pairs.rights ↔ ∃ other, (other, task) ∈ pairs := by
  rw [rights, List.mem_map]
  constructor
  · intro found
    obtain ⟨pair, paired, rfl⟩ := found
    exact ⟨pair.1, paired⟩
  · intro found
    obtain ⟨other, paired⟩ := found
    exact ⟨_, paired, rfl⟩

/-- A task has one counterpart. -/
theorem Ordered.eq_iff (ordered : pairs.Ordered) {first second : Nat × Nat} (one : first ∈ pairs)
    (other : second ∈ pairs) : first.1 = second.1 ↔ first.2 = second.2 := by
  by_cases same : first = second
  · rw [same]
    exact iff_of_true rfl rfl
  · have differs : first.1 ≠ second.1 ∧ first.2 ≠ second.2 := by
      refine List.Pairwise.forall_of_forall_of_flip (R := fun a b => a ≠ b → a.1 ≠ b.1 ∧ a.2 ≠ b.2)
        ?_ ?_ ?_ one other same
      · exact fun _ _ differs => absurd rfl differs
      · exact ordered.imp fun below _ => ⟨Nat.ne_of_lt below.1, Nat.ne_of_lt below.2⟩
      · exact ordered.imp fun below _ => ⟨Nat.ne_of_gt below.1, Nat.ne_of_gt below.2⟩
    exact iff_of_false differs.1 differs.2

/-- Tasks of one list and of the other are paired in the order in which they stand there. -/
def Common (pairs : Pairing) (ones others : List Nat) : Prop :=
  ∃ turns, turns ⊆ pairs ∧ ones.filter (· ∈ pairs.lefts) = turns.map Prod.fst ∧
    others.filter (· ∈ pairs.rights) = turns.map Prod.snd

namespace Common

theorem append (first : pairs.Common ones others) (rest : pairs.Common ones' others') :
    pairs.Common (ones ++ ones') (others ++ others') := by
  obtain ⟨turns, inside, left, right⟩ := first
  obtain ⟨turns', inside', left', right'⟩ := rest
  refine ⟨turns ++ turns', List.append_subset.mpr ⟨inside, inside'⟩, ?_, ?_⟩
  · rw [List.filter_append, List.map_append, left, left']
  · rw [List.filter_append, List.map_append, right, right']

/-- Both lists lose tasks, and paired tasks only together. -/
theorem filter {one other : Nat → Bool} (common : pairs.Common ones others)
    (same : ∀ pair ∈ pairs, one pair.1 = other pair.2) :
    pairs.Common (ones.filter one) (others.filter other) := by
  obtain ⟨turns, inside, left, right⟩ := common
  refine ⟨turns.filter fun pair => one pair.1, fun pair kept => inside (List.mem_filter.mp kept).1,
    ?_, ?_⟩
  · rw [List.filter_comm, left, List.filter_map]
    rfl
  · rw [List.filter_comm, right, List.filter_map]
    refine congrArg (List.map Prod.snd) (List.filter_congr fun pair turn => ?_)
    exact (same pair (inside turn)).symm

/-- Two lists in rising order in which the same pairs have their tasks. -/
theorem sorted (ordered : pairs.Ordered) (rises : ones.Pairwise (· < ·))
    (rises' : others.Pairwise (· < ·)) (same : ∀ pair ∈ pairs, pair.1 ∈ ones ↔ pair.2 ∈ others) :
    pairs.Common ones others := by
  have rising {f : Nat × Nat → Nat} (up : pairs.Pairwise fun a b => f a < f b) :
      ((pairs.filter fun pair => pair.1 ∈ ones).map f).Pairwise (· < ·) :=
    List.pairwise_map.mpr (up.filter _)
  refine ⟨pairs.filter fun pair => pair.1 ∈ ones, List.filter_subset_self _, ?_, ?_⟩
  · refine (rises.filter _).eq_of_mem_iff (rising (ordered.imp And.left)) fun task => ?_
    simp only [List.mem_filter, List.mem_map, decide_eq_true_eq, mem_lefts]
    constructor
    · intro found
      obtain ⟨there, other, paired⟩ := found
      exact ⟨_, ⟨paired, there⟩, rfl⟩
    · intro found
      obtain ⟨pair, ⟨paired, there⟩, rfl⟩ := found
      exact ⟨there, pair.2, paired⟩
  · refine (rises'.filter _).eq_of_mem_iff (rising (ordered.imp And.right)) fun task => ?_
    simp only [List.mem_filter, List.mem_map, decide_eq_true_eq, mem_rights]
    constructor
    · intro found
      obtain ⟨there, other, paired⟩ := found
      exact ⟨_, ⟨paired, (same _ paired).mpr there⟩, rfl⟩
    · intro found
      obtain ⟨pair, ⟨paired, there⟩, rfl⟩ := found
      exact ⟨(same _ paired).mp there, pair.1, paired⟩

/-- Neither list has a task of a pair. -/
theorem none (left : ∀ pair ∈ pairs, pair.1 ∉ ones) (right : ∀ pair ∈ pairs, pair.2 ∉ others) :
    pairs.Common ones others := by
  refine ⟨[], List.nil_subset _, ?_, ?_⟩
  · refine List.filter_eq_nil_iff.mpr fun task there paired => ?_
    obtain ⟨other, paired⟩ := mem_lefts.mp (of_decide_eq_true paired)
    exact left _ paired there
  · refine List.filter_eq_nil_iff.mpr fun task there paired => ?_
    obtain ⟨other, paired⟩ := mem_rights.mp (of_decide_eq_true paired)
    exact right _ paired there

/-- More pairs change nothing for lists that have none of their tasks. -/
theorem mono (common : pairs.Common ones others) (le : pairs ⊆ more)
    (left : ∀ task ∈ ones, task ∈ more.lefts → task ∈ pairs.lefts)
    (right : ∀ task ∈ others, task ∈ more.rights → task ∈ pairs.rights) :
    more.Common ones others := by
  obtain ⟨turns, inside, first, second⟩ := common
  refine ⟨turns, List.Subset.trans inside le, ?_, ?_⟩
  · rw [← first]
    refine List.filter_congr fun task there =>
      decide_eq_decide.mpr ⟨left task there, fun paired => ?_⟩
    obtain ⟨other, paired⟩ := mem_lefts.mp paired
    exact mem_lefts.mpr ⟨other, le paired⟩
  · rw [← second]
    refine List.filter_congr fun task there =>
      decide_eq_decide.mpr ⟨right task there, fun paired => ?_⟩
    obtain ⟨other, paired⟩ := mem_rights.mp paired
    exact mem_rights.mpr ⟨other, le paired⟩

/-- The first tasks of two lists are paired, if both are tasks of pairs. -/
theorem head {one other : Nat} (common : pairs.Common (one :: ones) (other :: others))
    (left : one ∈ pairs.lefts) (right : other ∈ pairs.rights) :
    (one, other) ∈ pairs ∧ pairs.Common ones others := by
  obtain ⟨turns, inside, first, second⟩ := common
  rw [List.filter_cons, if_pos (decide_eq_true left)] at first
  rw [List.filter_cons, if_pos (decide_eq_true right)] at second
  cases turns with
  | nil => cases first
  | cons pair turns =>
      rw [List.map_cons, List.cons.injEq] at first second
      rw [List.cons_subset] at inside
      obtain ⟨rfl, first⟩ := first
      obtain ⟨rfl, second⟩ := second
      exact ⟨inside.1, turns, inside.2, first, second⟩

end Common

end Pairing

/-- In two worlds the works of paired tasks are alike. -/
abbrev World.Paired (like : Likeness) (pairs : Pairing) (world world' : World) : Prop :=
  (world.ground like pairs world').Grown pairs [] []

section
variable {like : Likeness} {pairs : Pairing} {world world' : World}

theorem World.Paired.there (paired : World.Paired like pairs world world') {pair : Nat × Nat}
    (inside : pair ∈ pairs) : ∃ one other, world.tasks[pair.1]? = some one ∧
      world'.tasks[pair.2]? = some other ∧ one.Alike like pairs other := by
  obtain ⟨one, other, there, there', alike⟩ := paired.works pair inside
  change (world.tasks ++ [])[pair.1]? = _ at there
  change (world'.tasks ++ [])[pair.2]? = _ at there'
  rw [List.append_nil] at there there'
  exact ⟨one, other, there, there', alike⟩

theorem World.Paired.below (paired : World.Paired like pairs world world') {pair : Nat × Nat}
    (inside : pair ∈ pairs) : pair.1 < world.tasks.length ∧ pair.2 < world'.tasks.length := by
  obtain ⟨one, other, there, there', _⟩ := paired.there inside
  exact ⟨(List.getElem?_eq_some_iff.mp there).1, (List.getElem?_eq_some_iff.mp there').1⟩

theorem World.paired_of (ordered : pairs.Ordered)
    (works : ∀ pair ∈ pairs, ∃ one other, world.tasks[pair.1]? = some one ∧
      world'.tasks[pair.2]? = some other ∧ one.Alike like pairs other) :
    World.Paired like pairs world world' := by
  refine ⟨List.Subset.refl _, ordered, fun pair inside => .inl inside, ?_, ?_, ?_, ?_⟩
  · change world.tasks.length ≤ (world.tasks ++ []).length ∧
      world'.tasks.length ≤ (world'.tasks ++ []).length
    rw [List.append_nil, List.append_nil]
    exact ⟨Nat.le_refl _, Nat.le_refl _⟩
  · intro pair inside
    change ∃ one other, (world.tasks ++ [])[pair.1]? = _ ∧ (world'.tasks ++ [])[pair.2]? = _ ∧ _
    rw [List.append_nil, List.append_nil]
    exact works pair inside
  · intro task below whole
    change task < (world.tasks ++ []).length at below
    rw [List.append_nil] at below
    exact absurd below (Nat.not_lt_of_le whole.2)
  · intro task below whole
    change task < (world'.tasks ++ []).length at below
    rw [List.append_nil] at below
    exact absurd below (Nat.not_lt_of_le whole.2)

end

/-- The task has the same work in a later world, but for a defect in it that has been met. -/
def World.Kept (world next : World) (task : TaskId) : Prop :=
  ∃ work, world.tasks[task]? = some work ∧
    (next.tasks[task]? = some work ∨ next.tasks[task]? = some work.meet)

namespace World.Kept

variable {like : Likeness} {pairs : Pairing} {world world' next next' : World} {task : TaskId}

theorem refl {work : Work} (there : world.tasks[task]? = some work) : world.Kept world task :=
  ⟨work, there, .inl there⟩

theorem wakes (kept : world.Kept next task) {later : Work} (there : next.tasks[task]? = some later) :
    ∃ work, world.tasks[task]? = some work ∧ work.wakes = later.wakes := by
  obtain ⟨work, before, after⟩ := kept
  refine ⟨work, before, ?_⟩
  rcases after with same | met
  · rw [Option.some.inj (same.symm.trans there)]
  · rw [← Option.some.inj (met.symm.trans there)]
    cases work <;> rfl

/-- Works that are kept stay alike. -/
theorem paired (paired : World.Paired like pairs world world')
    (kept₁ : ∀ pair ∈ pairs, world.Kept next pair.1)
    (kept₂ : ∀ pair ∈ pairs, world'.Kept next' pair.2) : World.Paired like pairs next next' := by
  refine World.paired_of paired.ordered fun pair inside => ?_
  obtain ⟨one, other, there, there', alike⟩ := paired.there inside
  obtain ⟨before, found, after⟩ := kept₁ pair inside
  obtain ⟨before', found', after'⟩ := kept₂ pair inside
  obtain rfl := Option.some.inj (found.symm.trans there)
  obtain rfl := Option.some.inj (found'.symm.trans there')
  rcases after with same | met
  · rcases after' with same' | met'
    · exact ⟨_, _, same, same', alike⟩
    · exact ⟨_, _, same, met', alike.meetRight⟩
  · rcases after' with same' | met'
    · exact ⟨_, _, met, same', alike.meetLeft⟩
    · exact ⟨_, _, met, met', alike.meetLeft.meetRight⟩

/-- Other tasks than the one that moves are kept. -/
theorem move {moved : TaskId} {work : Work} {change : Change} {rest : List TaskId}
    {machine : Machine} (move : World.Move machine world next moved work change rest) {one : Work}
    (there : world.tasks[task]? = some one) (differs : task ≠ moved) : world.Kept next task := by
  refine ⟨one, there, move.getElem?_next differs ?_⟩
  rw [List.getElem?_append_left (List.getElem?_eq_some_iff.mp there).1]
  exact there

theorem tick {machine : Machine} (tick : World.Tick machine world next) {one : Work}
    (there : world.tasks[task]? = some one) : world.Kept next task := by
  refine ⟨one, there, .inl ?_⟩
  rw [tick.tasks]
  exact there

end World.Kept

/-- After like moves of paired tasks, or of tasks that are not paired at all, the works of paired
tasks are alike. -/
theorem World.paired_after {like : Likeness} {pairs more : Pairing}
    {world world' next next' : World} {task task' : TaskId} {one other : Work}
    {change change' : Change}
    (counterpart : ∀ pair ∈ pairs, pair.1 = task ↔ pair.2 = task')
    (there : world.tasks[task]? = some one) (there' : world'.tasks[task']? = some other)
    (same : next.tasks = world.tasksAfter task change)
    (same' : next'.tasks = world'.tasksAfter task' change')
    (grown : (world.ground like pairs world').Grown more change.started change'.started)
    (works : (task, task') ∈ pairs → change.work.Alike like more change'.work) :
    World.Paired like more next next' := by
  have below := (List.getElem?_eq_some_iff.mp there).1
  have below' := (List.getElem?_eq_some_iff.mp there').1
  refine World.paired_of grown.ordered fun pair listed => ?_
  obtain ⟨work, work', found, found', alike⟩ : ∃ work work',
      (world.tasks.set task change.work ++ change.started)[pair.1]? = some work ∧
      (world'.tasks.set task' change'.work ++ change'.started)[pair.2]? = some work' ∧
      work.Alike like more work' := by
    obtain ⟨work, work', found, found', alike⟩ := grown.works pair listed
    have set {tasks started : List Work} {moved task : TaskId} {work found : Work}
        (differs : task ≠ moved) (there : (tasks ++ started)[task]? = some found) :
        (tasks.set moved work ++ started)[task]? = some found := by
      rw [List.getElem?_append, List.length_set, List.getElem?_set_ne (Ne.symm differs),
        ← List.getElem?_append]
      exact there
    rcases grown.fresh pair listed with known | fresh
    · by_cases moved : pair.1 = task
      · obtain ⟨one, other⟩ := pair
        obtain rfl : one = task := moved
        obtain rfl : other = task' := (counterpart _ known).mp rfl
        refine ⟨_, _, ?_, ?_, works known⟩
        · rw [List.getElem?_append_left (by rwa [List.length_set]), List.getElem?_set_self below]
        · rw [List.getElem?_append_left (by rwa [List.length_set]), List.getElem?_set_self below']
      · exact ⟨work, work', set moved found, set (moved ∘ (counterpart pair known).mpr) found',
          alike⟩
    · refine ⟨work, work', set (fun moved => ?_) found, set (fun moved => ?_) found', alike⟩
      · exact absurd (moved ▸ below) (Nat.not_lt_of_le fresh.1)
      · exact absurd (moved ▸ below') (Nat.not_lt_of_le fresh.2)
  obtain ⟨later, now, met⟩ := World.getElem?_after same found
  obtain ⟨later', now', met'⟩ := World.getElem?_after same' found'
  refine ⟨later, later', now, now', ?_⟩
  rcases met with rfl | rfl <;> rcases met' with rfl | rfl
  · exact alike
  · exact alike.meetRight
  · exact alike.meetLeft
  · exact alike.meetLeft.meetRight

theorem World.Paired.moved {like : Likeness} {pairs more : Pairing}
    {world world' next next' : World} {machine machine' : Machine} {task task' : TaskId}
    {one other : Work} {change change' : Change} {rest rest' : List TaskId}
    (paired : World.Paired like pairs world world') (inside : (task, task') ∈ pairs)
    (move : World.Move machine world next task one change rest)
    (move' : World.Move machine' world' next' task' other change' rest')
    (alike : Change.Alike (world.ground like pairs world') more change change') :
    World.Paired like more next next' :=
  World.paired_after (fun _ known => paired.ordered.eq_iff known inside) move.there move'.there
    move.tasks move'.tasks alike.grown fun _ => alike.work

/-- Two runs that are compared, and what else is kept while they are abreast of each other. -/
structure Comparison where
  like : Likeness
  begins : Nat → List Entry → List Entry → Nat → Nat → Prop
  machine : Machine
  machine' : Machine
  start : World
  start' : World
  keeps : Pairing → World → World → Prop
  lawful : like.Lawful begins machine machine'
  orderly₁ : start.Orderly machine
  orderly₂ : start'.Orderly machine'
  calm₁ : ∀ {world}, start.Reaches machine world → ∀ (task : TaskId) (work : Work),
    world.tasks[task]? = some work → work.Calm like.outruns₁ world
  calm₂ : ∀ {world}, start'.Reaches machine' world → ∀ (task : TaskId) (work : Work),
    world.tasks[task]? = some work → work.Calm like.outruns₂ world
  permits : ∀ {pairs world world' next next' task task' one other change change' rest rest'},
    start.Reaches machine world → start'.Reaches machine' world' → keeps pairs world world' →
    World.Paired like pairs world world' → (task, task') ∈ pairs →
    World.Move machine world next task one change rest →
    World.Move machine' world' next' task' other change' rest' →
    world.step? machine = some next → world'.step? machine' = some next' →
    Permitted begins world world' one change other change'
  keepsLeft : ∀ {pairs world world' next}, start.Reaches machine world →
    World.Paired like pairs world world' → World.Aside machine pairs.lefts world next →
    keeps pairs world world' → keeps pairs next world'
  keepsRight : ∀ {pairs world world' next'}, start'.Reaches machine' world' →
    World.Paired like pairs world world' → World.Aside machine' pairs.rights world' next' →
    keeps pairs world world' → keeps pairs world next'
  keepsBoth : ∀ {pairs more world world' next next' task task' one other change change' rest rest'},
    start.Reaches machine world → start'.Reaches machine' world' →
    World.Paired like pairs world world' → (task, task') ∈ pairs → world.clock = world'.clock →
    World.Move machine world next task one change rest →
    World.Move machine' world' next' task' other change' rest' →
    world.step? machine = some next → world'.step? machine' = some next' →
    Change.Alike (world.ground like pairs world') more change change' →
    keeps pairs world world' → keeps more next next'

namespace Comparison

/-- In two worlds of the runs, paired tasks do the same, and have their turns in the same order. If
the clocks differ, none of them can move before its moment has come. -/
structure Abreast (two : Comparison) (pairs : Pairing) (world world' : World) : Prop where
  reaches₁ : two.start.Reaches two.machine world
  reaches₂ : two.start'.Reaches two.machine' world'
  paired : World.Paired two.like pairs world world'
  run : ∀ pair ∈ pairs, pair.1 = 0 ↔ pair.2 = 0
  common : pairs.Common (world.agenda two.machine) (world'.agenda two.machine')
  clocks : world.clock = world'.clock ∨
    ∀ pair ∈ pairs, two.machine.ready world pair.1 = false ∧
      ∀ one, world.tasks[pair.1]? = some one →
        ∀ moment ∈ one.wakes, world.clock < moment ∧ world'.clock < moment
  keeps : two.keeps pairs world world'

/-- Both runs go on together: paired tasks move, or both clocks do. -/
inductive Both (two : Comparison) (pairs more : Pairing) (world world' next next' : World) : Prop
  | move {task task' : TaskId} {one other : Work} {change change' : Change}
      {rest rest' : List TaskId} : (task, task') ∈ pairs → world.clock = world'.clock →
      World.Move two.machine world next task one change rest →
      World.Move two.machine' world' next' task' other change' rest' →
      Change.Alike (world.ground two.like pairs world') more change change' →
      Both two pairs more world world' next next'
  | tick : more = pairs → World.Tick two.machine world next →
      World.Tick two.machine' world' next' → Both two pairs more world world' next next'

variable {two : Comparison} {pairs : Pairing} {world world' next next' : World}

/-- Paired tasks can move in both worlds or in none, if the same moments have come for them. -/
theorem ready_paired (reaches₁ : two.start.Reaches two.machine world)
    (reaches₂ : two.start'.Reaches two.machine' world')
    (paired : World.Paired two.like pairs world world') {pair : Nat × Nat} (inside : pair ∈ pairs)
    (come : ∀ one, world.tasks[pair.1]? = some one →
      ∀ moment ∈ one.wakes, moment ≤ world.clock ↔ moment ≤ world'.clock) :
    two.machine.ready world pair.1 = two.machine'.ready world' pair.2 := by
  obtain ⟨one, other, there, there', alike⟩ := paired.there inside
  have moves := Machine.step?_alike two.lawful paired one alike
    ⟨two.calm₁ reaches₁ _ one there, two.calm₂ reaches₂ _ other there', come one there⟩
  rw [Machine.ready, Machine.ready, Machine.stepTask?, Machine.stepTask?, there, there',
    Option.bind_some, Option.bind_some]
  generalize Machine.step? two.machine world one = change at moves ⊢
  generalize Machine.step? two.machine' world' other = change' at moves ⊢
  cases moves with
  | some _ => rfl
  | none => rfl

namespace Abreast

theorem orderly₁ (abreast : two.Abreast pairs world world') : world.Orderly two.machine :=
  two.orderly₁.reaches abreast.reaches₁

theorem orderly₂ (abreast : two.Abreast pairs world world') : world'.Orderly two.machine' :=
  two.orderly₂.reaches abreast.reaches₂

theorem kept₁ (abreast : two.Abreast pairs world world') :
    ∀ pair ∈ pairs, world.Kept world pair.1 := by
  intro pair inside
  obtain ⟨one, _, there, _⟩ := abreast.paired.there inside
  exact .refl there

theorem kept₂ (abreast : two.Abreast pairs world world') :
    ∀ pair ∈ pairs, world'.Kept world' pair.2 := by
  intro pair inside
  obtain ⟨_, other, _, there, _⟩ := abreast.paired.there inside
  exact .refl there

theorem come (abreast : two.Abreast pairs world world') {pair : Nat × Nat} (inside : pair ∈ pairs) :
    ∀ one, world.tasks[pair.1]? = some one →
      ∀ moment ∈ one.wakes, moment ≤ world.clock ↔ moment ≤ world'.clock := by
  intro one there moment wakes
  rcases abreast.clocks with same | idle
  · rw [same]
  · obtain ⟨left, right⟩ := (idle pair inside).2 one there moment wakes
    exact iff_of_false (Nat.not_le_of_lt left) (Nat.not_le_of_lt right)

theorem ready (abreast : two.Abreast pairs world world') {pair : Nat × Nat}
    (inside : pair ∈ pairs) :
    two.machine.ready world pair.1 = two.machine'.ready world' pair.2 :=
  ready_paired abreast.reaches₁ abreast.reaches₂ abreast.paired inside (abreast.come inside)

/-- While no paired task moves, both runs stay abreast of each other, if the same moments have come
for the paired tasks. -/
theorem drift (abreast : two.Abreast pairs world world')
    (reaches₁ : two.start.Reaches two.machine next)
    (reaches₂ : two.start'.Reaches two.machine' next')
    (kept₁ : ∀ pair ∈ pairs, world.Kept next pair.1)
    (kept₂ : ∀ pair ∈ pairs, world'.Kept next' pair.2)
    (clocks : next.clock = next'.clock ∨ ∀ pair ∈ pairs,
      (two.machine.ready next pair.1 = two.machine'.ready next' pair.2 →
        two.machine.ready next pair.1 = false) ∧
      ∀ one, world.tasks[pair.1]? = some one →
        ∀ moment ∈ one.wakes, next.clock < moment ∧ next'.clock < moment)
    (common : (∀ pair ∈ pairs,
        two.machine.ready next pair.1 = two.machine'.ready next' pair.2) →
      pairs.Common (next.agenda two.machine) (next'.agenda two.machine'))
    (keeps : two.keeps pairs next next') : two.Abreast pairs next next' := by
  have paired := World.Kept.paired abreast.paired kept₁ kept₂
  have ready : ∀ pair ∈ pairs,
      two.machine.ready next pair.1 = two.machine'.ready next' pair.2 := by
    intro pair inside
    refine ready_paired reaches₁ reaches₂ paired inside fun one there moment wakes => ?_
    rcases clocks with same | idle
    · rw [same]
    · obtain ⟨before, found, same⟩ := (kept₁ pair inside).wakes there
      obtain ⟨left, right⟩ := (idle pair inside).2 before found moment (same ▸ wakes)
      exact iff_of_false (Nat.not_le_of_lt left) (Nat.not_le_of_lt right)
  refine ⟨reaches₁, reaches₂, paired, abreast.run, common ready, ?_, keeps⟩
  refine clocks.imp id fun idle pair inside => ?_
  obtain ⟨asleep, later⟩ := idle pair inside
  refine ⟨asleep (ready pair inside), fun one there moment wakes => ?_⟩
  obtain ⟨before, found, same⟩ := (kept₁ pair inside).wakes there
  exact later before found moment (same ▸ wakes)

/-- The first run moves a task of its own. -/
theorem strayLeft {task : TaskId} {work : Work} {change : Change} {rest : List TaskId}
    (abreast : two.Abreast pairs world world') (stepped : world.step? two.machine = some next)
    (move : World.Move two.machine world next task work change rest) (stray : task ∉ pairs.lefts) :
    two.Abreast pairs next world' := by
  have kept : ∀ pair ∈ pairs, world.Kept next pair.1 := by
    intro pair inside
    obtain ⟨one, _, there, _⟩ := abreast.paired.there inside
    refine .move move there fun same => stray (Pairing.mem_lefts.mpr ⟨pair.2, ?_⟩)
    rw [← same]
    exact inside
  refine abreast.drift (abreast.reaches₁.tail stepped) abreast.reaches₂ kept abreast.kept₂ ?_ ?_
    (two.keepsLeft abreast.reaches₁ abreast.paired (move.aside stepped stray) abreast.keeps)
  · rw [move.clock]
    refine abreast.clocks.imp id fun idle pair inside => ⟨fun same => ?_, (idle pair inside).2⟩
    rw [same, ← abreast.ready inside]
    exact (idle pair inside).1
  · intro ready
    obtain ⟨turns, among, first, second⟩ := abreast.common
    refine ⟨turns, among, ?_, second⟩
    rw [← first]
    refine move.agenda_stray abreast.orderly₁ (decide_eq_false stray) ?_ ?_
    · intro other beyond
      refine decide_eq_false fun inside => ?_
      obtain ⟨counterpart, inside⟩ := Pairing.mem_lefts.mp inside
      exact Nat.not_lt_of_le beyond (abreast.paired.below inside).1
    · intro other inside
      obtain ⟨counterpart, inside⟩ := Pairing.mem_lefts.mp (of_decide_eq_true inside)
      exact (ready _ inside).trans (abreast.ready inside).symm

/-- The second run moves a task of its own. -/
theorem strayRight {task : TaskId} {work : Work} {change : Change} {rest : List TaskId}
    (abreast : two.Abreast pairs world world') (stepped : world'.step? two.machine' = some next')
    (move : World.Move two.machine' world' next' task work change rest)
    (stray : task ∉ pairs.rights) : two.Abreast pairs world next' := by
  have kept : ∀ pair ∈ pairs, world'.Kept next' pair.2 := by
    intro pair inside
    obtain ⟨_, other, _, there, _⟩ := abreast.paired.there inside
    refine .move move there fun same => stray (Pairing.mem_rights.mpr ⟨pair.1, ?_⟩)
    rw [← same]
    exact inside
  refine abreast.drift abreast.reaches₁ (abreast.reaches₂.tail stepped) abreast.kept₁ kept ?_ ?_
    (two.keepsRight abreast.reaches₂ abreast.paired (move.aside stepped stray) abreast.keeps)
  · rw [move.clock]
    exact abreast.clocks.imp id fun idle pair inside =>
      ⟨fun _ => (idle pair inside).1, (idle pair inside).2⟩
  · intro ready
    obtain ⟨turns, among, first, second⟩ := abreast.common
    refine ⟨turns, among, first, ?_⟩
    rw [← second]
    refine move.agenda_stray abreast.orderly₂ (decide_eq_false stray) ?_ ?_
    · intro other beyond
      refine decide_eq_false fun inside => ?_
      obtain ⟨counterpart, inside⟩ := Pairing.mem_rights.mp inside
      exact Nat.not_lt_of_le beyond (abreast.paired.below inside).2
    · intro other inside
      obtain ⟨counterpart, inside⟩ := Pairing.mem_rights.mp (of_decide_eq_true inside)
      exact (ready _ inside).symm.trans (abreast.ready inside)

theorem not_ready {machine : Machine} {world : World} {task : TaskId}
    (asleep : world.agenda machine = []) : machine.ready world task = false := by
  rw [← Bool.not_eq_true]
  intro ready
  have listed := World.mem_agenda.mpr ready
  rw [asleep] at listed
  cases listed

theorem not_listed {machine : Machine} {world : World} {task : TaskId}
    (asleep : machine.ready world task = false) : task ∉ world.agenda machine := by
  rw [World.mem_agenda, asleep]
  exact Bool.false_ne_true

/-- The clock of the first run moves to a moment before those that paired tasks wait for. -/
theorem tickLeft (abreast : two.Abreast pairs world world')
    (stepped : world.step? two.machine = some next) (tick : World.Tick two.machine world next)
    (early : ∀ pair ∈ pairs, ∀ one, world.tasks[pair.1]? = some one →
      ∀ moment ∈ one.wakes, next.clock < moment) : two.Abreast pairs next world' := by
  have kept : ∀ pair ∈ pairs, world.Kept next pair.1 := by
    intro pair inside
    obtain ⟨one, _, there, _⟩ := abreast.paired.there inside
    exact .tick tick there
  have asleep : ∀ pair ∈ pairs, two.machine'.ready world' pair.2 = false := by
    intro pair inside
    rw [← abreast.ready inside]
    exact not_ready tick.asleep
  refine abreast.drift (abreast.reaches₁.tail stepped) abreast.reaches₂ kept abreast.kept₂ ?_ ?_
    (two.keepsLeft abreast.reaches₁ abreast.paired (tick.aside stepped _) abreast.keeps)
  · refine .inr fun pair inside => ⟨fun same => same.trans (asleep pair inside), ?_⟩
    intro one there moment wakes
    refine ⟨early pair inside one there moment wakes, ?_⟩
    rcases abreast.clocks with same | idle
    · rw [← same]
      exact World.wakes_later tick.asleep there wakes
    · exact ((idle pair inside).2 one there moment wakes).2
  · intro ready
    refine .none (fun pair inside => not_listed ?_) fun pair inside => not_listed ?_
    · rw [ready pair inside]
      exact asleep pair inside
    · exact asleep pair inside

/-- The clock of the second run moves to a moment before those that paired tasks wait for. -/
theorem tickRight (abreast : two.Abreast pairs world world')
    (stepped : world'.step? two.machine' = some next') (tick : World.Tick two.machine' world' next')
    (early : ∀ pair ∈ pairs, ∀ one, world.tasks[pair.1]? = some one →
      ∀ moment ∈ one.wakes, next'.clock < moment) : two.Abreast pairs world next' := by
  have kept : ∀ pair ∈ pairs, world'.Kept next' pair.2 := by
    intro pair inside
    obtain ⟨_, other, _, there, _⟩ := abreast.paired.there inside
    exact .tick tick there
  have asleep : ∀ pair ∈ pairs, two.machine.ready world pair.1 = false := by
    intro pair inside
    rw [abreast.ready inside]
    exact not_ready tick.asleep
  refine abreast.drift abreast.reaches₁ (abreast.reaches₂.tail stepped) abreast.kept₁ kept ?_ ?_
    (two.keepsRight abreast.reaches₂ abreast.paired (tick.aside stepped _) abreast.keeps)
  · refine .inr fun pair inside => ⟨fun _ => asleep pair inside, ?_⟩
    intro one there moment wakes
    refine ⟨?_, early pair inside one there moment wakes⟩
    rcases abreast.clocks with same | idle
    · rw [same]
      exact Nat.lt_trans tick.later (early pair inside one there moment wakes)
    · exact ((idle pair inside).2 one there moment wakes).1
  · intro ready
    refine .none (fun pair inside => not_listed (asleep pair inside)) fun pair inside =>
      not_listed ?_
    rw [← ready pair inside]
    exact asleep pair inside

/-- The clocks of both runs move to the same moment. -/
theorem tickBoth (abreast : two.Abreast pairs world world')
    (stepped : world.step? two.machine = some next)
    (stepped' : world'.step? two.machine' = some next')
    (tick : World.Tick two.machine world next) (tick' : World.Tick two.machine' world' next')
    (same : next.clock = next'.clock) : two.Abreast pairs next next' := by
  have kept : ∀ pair ∈ pairs, world.Kept next pair.1 := by
    intro pair inside
    obtain ⟨one, _, there, _⟩ := abreast.paired.there inside
    exact .tick tick there
  have kept' : ∀ pair ∈ pairs, world'.Kept next' pair.2 := by
    intro pair inside
    obtain ⟨_, other, _, there, _⟩ := abreast.paired.there inside
    exact .tick tick' there
  refine abreast.drift (abreast.reaches₁.tail stepped) (abreast.reaches₂.tail stepped') kept kept'
    (.inl same) ?_ (two.keepsRight abreast.reaches₂
      (World.Kept.paired abreast.paired kept abreast.kept₂) (tick'.aside stepped' _)
      (two.keepsLeft abreast.reaches₁ abreast.paired (tick.aside stepped _) abreast.keeps))
  intro ready
  rw [tick.agenda_next, tick'.agenda_next]
  refine .sorted abreast.paired.ordered (List.pairwise_lt_range.filter _)
    (List.pairwise_lt_range.filter _) fun pair inside => ?_
  change pair.1 ∈ two.machine.awake next ↔ pair.2 ∈ two.machine'.awake next'
  rw [Machine.mem_awake_iff, Machine.mem_awake_iff, ready pair inside]

section
variable {task task' : TaskId} {one other : Work} {change change' : Change}
  {rest rest' : List TaskId} {more : Pairing}

/-- The first task of the agenda has its counterpart as the first of the other one, and both move at
the same moment. -/
theorem meets (abreast : two.Abreast pairs world world')
    (move : World.Move two.machine world next task one change rest)
    (move' : World.Move two.machine' world' next' task' other change' rest')
    (left : task ∈ pairs.lefts) (right : task' ∈ pairs.rights) :
    (task, task') ∈ pairs ∧ pairs.Common rest rest' ∧ world.clock = world'.clock := by
  have common := abreast.common
  rw [move.agenda, move'.agenda] at common
  obtain ⟨inside, later⟩ := common.head left right
  refine ⟨inside, later, abreast.clocks.resolve_right fun idle => ?_⟩
  have listed : task ∈ world.agenda two.machine := by
    rw [move.agenda]
    exact List.mem_cons_self
  rw [World.mem_agenda, (idle _ inside).1] at listed
  cases listed

/-- After paired tasks have moved, those that can move stand in the same order again. -/
theorem common_moved (abreast : two.Abreast pairs world world') (inside : (task, task') ∈ pairs)
    (common : pairs.Common rest rest')
    (move : World.Move two.machine world next task one change rest)
    (move' : World.Move two.machine' world' next' task' other change' rest')
    (alike : Change.Alike (world.ground two.like pairs world') more change change')
    (run : ∀ pair ∈ more, pair.1 = 0 ↔ pair.2 = 0)
    (ready : ∀ pair ∈ more,
      two.machine.ready next pair.1 = two.machine'.ready next' pair.2) :
    more.Common (next.agenda two.machine) (next'.agenda two.machine') := by
  have ordered := alike.grown.ordered
  have keeps : pairs ⊆ more := alike.grown.keeps
  have same : ∀ pair ∈ more, pair.1 = task ↔ pair.2 = task' := fun pair listed =>
    ordered.eq_iff listed (keeps inside)
  have age : ∀ pair ∈ more, pair ∈ pairs ∧ pair.1 < world.tasks.length ∧
      pair.2 < world'.tasks.length ∨ world.tasks.length ≤ pair.1 ∧ world'.tasks.length ≤ pair.2 := by
    intro pair listed
    exact (alike.grown.fresh pair listed).imp_left fun known => ⟨known, abreast.paired.below known⟩
  rw [move.agenda_next abreast.orderly₁, move'.agenda_next abreast.orderly₂]
  refine .append (.append ?_ (.append (.append ?_ ?_) ?_)) ?_
  · refine .sorted ordered ((List.pairwise_singleton _ _).filter _)
      ((List.pairwise_singleton _ _).filter _) fun pair listed => ?_
    rw [List.mem_filter, List.mem_filter, List.mem_singleton, List.mem_singleton, same pair listed,
      ready pair listed]
  · refine .mono (common.filter fun pair listed => ?_) keeps ?_ ?_
    · exact decide_eq_decide.mpr (not_congr (abreast.run pair listed))
    · intro other remains listed
      obtain ⟨counterpart, listed⟩ := Pairing.mem_lefts.mp listed
      have old := move.rest_below (List.mem_filter.mp remains).1
      rcases age _ listed with ⟨known, _⟩ | ⟨above, _⟩
      · exact Pairing.mem_lefts.mpr ⟨counterpart, known⟩
      · exact absurd old (Nat.not_lt_of_le above)
    · intro other remains listed
      obtain ⟨counterpart, listed⟩ := Pairing.mem_rights.mp listed
      have old := move'.rest_below (List.mem_filter.mp remains).1
      rcases age _ listed with ⟨known, _⟩ | ⟨_, above⟩
      · exact Pairing.mem_rights.mpr ⟨counterpart, known⟩
      · exact absurd old (Nat.not_lt_of_le above)
  · refine .sorted ordered List.pairwise_lt_range' List.pairwise_lt_range' fun pair listed => ?_
    have below : pair.1 < world.tasks.length + change.started.length ∧
        pair.2 < world'.tasks.length + change'.started.length := by
      rw [← List.length_append, ← List.length_append]
      exact alike.grown.below listed
    rw [List.mem_range'_1, List.mem_range'_1]
    rcases age pair listed with ⟨_, old, old'⟩ | ⟨above, above'⟩
    · exact iff_of_false (fun fresh => Nat.not_lt_of_le fresh.1 old)
        fun fresh => Nat.not_lt_of_le fresh.1 old'
    · exact iff_of_true ⟨above, below.1⟩ ⟨above', below.2⟩
  · refine .sorted ordered (List.pairwise_lt_range.filter _) (List.pairwise_lt_range.filter _)
      fun pair listed => ?_
    rw [World.Move.mem_woken, World.Move.mem_woken, ready pair listed, ne_eq, ne_eq, ne_eq, ne_eq,
      run pair listed, same pair listed]
    rcases age pair listed with ⟨known, below, below'⟩ | ⟨above, above'⟩
    · rw [abreast.ready known]
      simp only [below, below', true_and]
    · exact iff_of_false (fun woken => Nat.not_lt_of_le above woken.1)
        fun woken => Nat.not_lt_of_le above' woken.1
  · refine .sorted ordered ((List.pairwise_singleton _ _).filter _)
      ((List.pairwise_singleton _ _).filter _) fun pair listed => ?_
    have zero : task = 0 ↔ task' = 0 := run _ (keeps inside)
    simp only [List.mem_filter, List.mem_singleton, Bool.and_eq_true, bne_iff_ne, ne_eq]
    rw [zero, ← run pair listed]
    refine and_congr_right fun first => and_congr_left fun _ => ?_
    rw [ready pair listed]

/-- Paired tasks move, and both runs stay abreast of each other. -/
theorem moveBoth (abreast : two.Abreast pairs world world')
    (stepped : world.step? two.machine = some next)
    (stepped' : world'.step? two.machine' = some next')
    (move : World.Move two.machine world next task one change rest)
    (move' : World.Move two.machine' world' next' task' other change' rest')
    (left : task ∈ pairs.lefts) (right : task' ∈ pairs.rights) :
    ∃ more, pairs ⊆ more ∧ two.Both pairs more world world' next next' ∧
      two.Abreast more next next' := by
  obtain ⟨inside, common, clocks⟩ := abreast.meets move move' left right
  obtain ⟨one, other, there, there', alike⟩ := abreast.paired.there inside
  obtain rfl := Option.some.inj (there.symm.trans move.there)
  obtain rfl := Option.some.inj (there'.symm.trans move'.there)
  have moves := Machine.step?_alike two.lawful abreast.paired one alike
    ⟨two.calm₁ abreast.reaches₁ _ one there, two.calm₂ abreast.reaches₂ _ other there',
      abreast.come inside one there⟩
  rw [move.moved, move'.moved] at moves
  cases moves with
  | some moved =>
      obtain ⟨more, changes⟩ := moved clocks (two.permits abreast.reaches₁ abreast.reaches₂
        abreast.keeps abreast.paired inside move move' stepped stepped')
      have run : ∀ pair ∈ more, pair.1 = 0 ↔ pair.2 = 0 := by
        intro pair listed
        rcases changes.grown.fresh pair listed with known | ⟨above, above'⟩
        · exact abreast.run pair known
        · have positive := Nat.lt_of_lt_of_le (Nat.zero_lt_of_lt move.below) above
          have positive' := Nat.lt_of_lt_of_le (Nat.zero_lt_of_lt move'.below) above'
          exact iff_of_false (Nat.ne_of_gt positive) (Nat.ne_of_gt positive')
      have reaches₁ := abreast.reaches₁.tail stepped
      have reaches₂ := abreast.reaches₂.tail stepped'
      have same : next.clock = next'.clock := by
        rw [move.clock, move'.clock]
        exact clocks
      have paired := abreast.paired.moved inside move move' changes
      have ready : ∀ pair ∈ more,
          two.machine.ready next pair.1 = two.machine'.ready next' pair.2 := by
        intro pair listed
        refine ready_paired reaches₁ reaches₂ paired listed fun _ _ moment _ => ?_
        rw [same]
      exact ⟨more, changes.grown.keeps, .move inside clocks move move' changes, reaches₁, reaches₂,
        paired, run,
        abreast.common_moved inside common move move' changes run ready, .inl same,
        two.keepsBoth abreast.reaches₁ abreast.reaches₂ abreast.paired inside clocks move move'
          stepped stepped' changes abreast.keeps⟩

end

end Abreast

end Comparison

end Runbook
