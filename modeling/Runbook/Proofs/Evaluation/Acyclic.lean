import Runbook.Proofs.Evaluation.Agreement
import Runbook.Proofs.Evaluation.Order
import Mathlib.Order.WellFoundedSet

/-!
Runs do not get stuck, and those of routines that call each other in no circle end.

Without a circle each routine has a price: what it costs with the prices of those that it calls.
Then each move of a task costs something, whatever comes to be a value and whatever fails, and
between two moves the clock moves only once.
-/
namespace Runbook

section
variable {price other : Callee → Nat}

mutual

theorem Step.cost_congr : ∀ step : Step,
    (∀ callee, .routine callee ∈ step.needs → price callee = other callee) →
      step.cost price = step.cost other
  | .literal literal, same => by
      rw [Step.cost, Step.cost, Literal.cost_congr literal same]
  | .bind _ step, same => by
      rw [Step.cost, Step.cost, Step.cost_congr step same]
  | .call callee argument, same => by
      rw [Step.cost, Step.cost, same callee List.mem_cons_self,
        Step.cost_congr argument fun callee mem => same callee (List.mem_cons_of_mem _ mem)]
  | .invoke _ argument, same => by
      rw [Step.cost, Step.cost,
        Step.cost_congr argument fun callee mem => same callee (List.mem_cons_of_mem _ mem)]
  | .tuple steps, same => by
      rw [Step.cost, Step.cost, stepsCost_congr steps same]
  | .read _, _ => rfl

theorem Literal.cost_congr : ∀ literal : Literal,
    (∀ callee, .routine callee ∈ literal.needs → price callee = other callee) →
      literal.cost price = literal.cost other
  | .unit, _ | .text _, _ | .quantity _, _ => rfl
  | .tablet fields, same => by
      rw [Literal.cost, Literal.cost, fieldsCost_congr fields same]

theorem stepsCost_congr : ∀ steps : List Step,
    (∀ callee, .routine callee ∈ stepsNeeds steps → price callee = other callee) →
      stepsCost price steps = stepsCost other steps
  | [], _ => rfl
  | step :: steps, same => by
      rw [stepsCost, stepsCost,
        Step.cost_congr step fun callee mem => same callee (List.mem_append_left _ mem),
        stepsCost_congr steps fun callee mem => same callee (List.mem_append_right _ mem)]

theorem fieldsCost_congr : ∀ fields : List (Label × Step),
    (∀ callee, .routine callee ∈ fieldsNeeds fields → price callee = other callee) →
      fieldsCost price fields = fieldsCost other fields
  | [], _ => rfl
  | (_, step) :: fields, same => by
      rw [fieldsCost, fieldsCost,
        Step.cost_congr step fun callee mem => same callee (List.mem_append_left _ mem),
        fieldsCost_congr fields fun callee mem => same callee (List.mem_append_right _ mem)]

end

/-- A routine costs what it does by the prices of those that it calls. -/
theorem Routine.cost_congr {routine : Routine}
    (same : ∀ callee, .routine callee ∈ routine.needs → price callee = other callee) :
    routine.cost price = routine.cost other := by
  rw [cost, cost, entriesCost, entriesCost, stepsCost_congr _ same]

end

/-- No routine of the library comes to call itself. -/
def Library.Acyclic (library : Library) : Prop :=
  ∀ routine, ¬Relation.TransGen (Routine.Calls library) routine routine

namespace Library.Acyclic

variable {library : Library}

/-- Calls that lead to lower ranks only lead in no circle. -/
theorem of_rank (rank : Routine → Nat) (falls : ∀ caller ∈ library, ∀ called ∈ library,
    .routine called.1 ∈ caller.2.needs → rank called.2 < rank caller.2) : library.Acyclic := by
  have lower {caller called : Routine} {callee : Callee} (inside : (callee, caller) ∈ library)
      (calls : Relation.TransGen (Routine.Calls library) caller called) :
      rank called < rank caller ∧ ∃ callee, (callee, called) ∈ library := by
    induction calls with
    | single calls =>
        obtain ⟨called, mem, found⟩ := calls
        have there := mem_of_get? found
        exact ⟨falls _ inside _ there mem, called, there⟩
    | tail _ calls ih =>
        obtain ⟨less, _, inside⟩ := ih
        obtain ⟨called, mem, found⟩ := calls
        have there := mem_of_get? found
        exact ⟨(falls _ inside _ there mem).trans less, called, there⟩
  intro routine circle
  obtain ⟨_, _, callee, _, found⟩ := Relation.TransGen.tail'_iff.mp circle
  exact Nat.lt_irrefl _ (lower (mem_of_get? found) circle).1

/-- A library is finite, so calls that do not lead in a circle come to an end. -/
theorem wellFounded (acyclic : library.Acyclic) :
    WellFounded (flip (Routine.Calls library)) := by
  have finite : {routine | ∃ callee, library.get? callee = some routine}.Finite := by
    refine (library.map Prod.snd).finite_toSet.subset fun routine found => ?_
    obtain ⟨callee, found⟩ := found
    exact List.mem_map.mpr ⟨_, mem_of_get? found, rfl⟩
  have order : IsStrictOrder Routine (flip (Relation.TransGen (Routine.Calls library))) :=
    { irrefl := acyclic
      trans := fun _ _ _ first second => second.trans first }
  have ends : {routine | ∃ callee, library.get? callee = some routine}.WellFoundedOn
      (flip (Relation.TransGen (Routine.Calls library))) := finite.wellFoundedOn
  refine ⟨fun routine => ⟨routine, fun called calls => ?_⟩⟩
  obtain ⟨callee, _, found⟩ := calls
  refine ends.induction ⟨callee, found⟩ fun caller _ ih => ⟨caller, fun called calls => ?_⟩
  exact ih called (calls.imp fun _ => And.right) (.single calls)

open Classical in
/-- What a routine costs together with those that it calls. -/
noncomputable def total (acyclic : library.Acyclic) : Routine → Nat :=
  acyclic.wellFounded.fix fun routine total => routine.cost fun callee =>
    (library.get? callee).elim 0 fun called =>
      if calls : Routine.Calls library routine called then total called calls else 0

noncomputable def price (acyclic : library.Acyclic) (callee : Callee) : Nat :=
  (library.get? callee).elim 0 acyclic.total

theorem total_eq (acyclic : library.Acyclic) (routine : Routine) :
    acyclic.total routine = routine.cost acyclic.price := by
  rw [total, WellFounded.fix_eq]
  refine Routine.cost_congr fun callee mem => ?_
  rw [price]
  cases found : library.get? callee with
  | none => rfl
  | some called => exact dif_pos ⟨callee, mem, found⟩

theorem prices {host : Host} (acyclic : host.library.Acyclic) :
    (Depths.unlimited host).Prices fun _ => acyclic.price := by
  intro level inner callee routine _ found
  have same : acyclic.price callee = acyclic.total routine := by
    rw [price, found, Option.elim_some]
  exact (same.trans (acyclic.total_eq routine)).ge

end Library.Acyclic

variable {machine : Machine} {footing : Footing machine} {world next : World}

section
variable {depths : Depths machine.host} {price : depths.Level → Callee → Nat} {level : depths.Level}

/-- Going on with a value costs what was to be done with it. -/
theorem Machine.goOn_lighter (inside : depths.inside level = some level)
    (prices : depths.Prices price) (clock : Nat) (value : Value) {rest : Continuation}
    (sound : rest.Sound footing) :
    (machine.goOn clock value rest).work.cost price level <
      (Work.after (.done (.ok value)) rest).cost price level := by
  have perform {primitive : Primitive} {events : List Event} :
      (goOn.perform clock value primitive events).work.cost price level < 2 := by
    simp only [goOn.perform]
    split
    · exact Nat.two_pos
    · exact Nat.one_lt_two
  cases rest with
  | pick names place =>
      rw [goOn]
      split
      · exact Nat.one_pos
      · exact Nat.one_pos
  | call callee =>
      obtain ⟨routine, found, _⟩ := footing.routines callee sound
      have enters : (enter routine value).work.cost price level ≤ _ :=
        enter_cost routine value inside
      have priced := prices level level callee routine inside found
      rw [goOn, found]
      simp only [Work.cost, Continuation.cost]
      omega
  | invoke primitive => exact perform
  | join primitive => exact perform

theorem Work.cost_ended {work : Work} (ends : work.ended? = some work) :
    work.cost price level = 0 := by
  cases work with
  | done outcome => rfl
  | broken defect => rfl
  | _ => cases ends

/-- Each move costs something where calls can be nested without end, and have prices. -/
theorem Moves.lighter {waits own : TaskId → Prop} (inside : depths.inside level = some level)
    (prices : depths.Prices price) {work : Work} {change : Change}
    (moves : Moves machine world work change) (sound : work.Sound footing waits own) :
    change.work.cost price level + Work.costAll price level change.started <
      work.cost price level := by
  have comes {work ended : Work} (ends : ended.ended? = some ended)
      (costs : 0 < work.cost price level) :
      ended.cost price level + Work.costAll price level [] < work.cost price level := by
    rwa [Work.cost_ended ends]
  induction moves with
  | fresh =>
      rw [Work.cost_fresh]
      exact Nat.lt_succ_self _
  | wait _ ends => exact comes ends Nat.one_pos
  | race won => exact comes (Machine.race_ended won) Nat.one_pos
  | wake _ => exact Nat.one_pos
  | goOn =>
      rw [goOn_started]
      exact Machine.goOn_lighter inside prices _ _ sound.2
  | fail => exact Nat.succ_pos _
  | breaks => exact sound.1.elim
  | source _ ih =>
      have less := ih sound.1
      simp only [Change.within, Work.cost]
      omega
  | spoil spoiled =>
      obtain ⟨_, _, fails⟩ := spoiled_mem spoiled
      exact comes (Work.ended?_of_failed? fails) (Nat.succ_pos _)
  | collect _ => exact Nat.succ_pos _
  | member _ ih =>
      rw [Work.Sound, Work.soundAll_iff, List.forall_mem_append, List.forall_mem_cons] at sound
      have less := ih sound.2.1
      simp only [Change.within, Work.cost, Work.costAll_append, Work.costAll]
      omega
  | @last frame value index =>
      have fewer := List.length_filterMap_le Binding.unobserved? frame.bindings
      simp only [Change.become, Work.cost, Work.costAll, Frame.unobserved]
      omega
  | @begin frame value index entry entries =>
      obtain ⟨work, started, after, events, same, sets, _⟩ :=
        Machine.begin_eq sound.2.2 world.tasks.length index
      have le := @SetsUpEntry.cost_le _ _ price level _ _ _ _ _ _ _ _ sets
      rw [same, Work.cost_body inside, Work.cost_body inside]
      simp only [Work.cost, entriesCost, List.map_cons, stepsCost, List.length_cons] at le ⊢
      omega
  | bodyFails =>
      rw [Work.cost_body inside]
      simp only [Change.finish, Work.cost, Work.costAll]
      omega
  | bodyBreaks => exact sound.2.1.elim
  | current _ ih =>
      have less := ih sound.2.1
      simp only [Change.within, Work.cost_body inside]
      omega
  | settled => exact Nat.succ_pos _
  | @settle task count bindings result other change there settles =>
      rcases settle_cases settles with rfl | ⟨ended, events, ends, rfl⟩
      · exact Nat.lt_succ_self _
      · exact comes ends (Nat.succ_pos _)

end

namespace World

/-- A world that has a next one can go on by a task, or by its clock. -/
theorem step?_ne_none (goes : world.step? machine ≠ none) :
    (∃ task, task ∈ machine.awake world) ∨ ∃ moment, world.wake? = some moment := by
  cases awake : machine.awake world with
  | cons task others => exact .inl ⟨task, List.mem_cons_self⟩
  | nil =>
      have still (queue : List TaskId) : machine.turn? world queue = none :=
        Machine.turn?_eq_none.mpr fun task _ => not_awake awake task
      rw [step?, still, still, Ne, Option.map_eq_none_iff] at goes
      exact .inr (Option.ne_none_iff_exists'.mp goes)

section
variable {depths : Depths machine.host} {price : depths.Level → Callee → Nat} {level : depths.Level}
  {routine : Routine} {argument : Value}

/-- Until it has its outcome a run goes on, and gets lighter. -/
theorem reaches_lighter (inside : depths.inside level = some level) (prices : depths.Prices price)
    (supported : routine.Supported footing.allowed)
    (reaches : (start routine argument).Reaches machine world) (going : world.outcome? = none) :
    ∃ next, world.step? machine = some next ∧
      next.weight machine price (fun _ => level) < world.weight machine price fun _ => level := by
  obtain ⟨parent, sound⟩ := reaches_sound supported reaches
  obtain ⟨_, follows⟩ := reaches_follows reaches
  obtain ⟨next, stepped⟩ := Option.ne_none_iff_exists'.mp fun still =>
    follows.ordered.outcome?_ne_none follows.begun still going
  refine ⟨next, stepped, ?_⟩
  cases step?_goes stepped with
  | tick asleep wakes same => exact weight_tick asleep wakes same
  | move there moves _ same =>
      have less := moves.lighter inside prices (sound.works _ _ there)
      obtain ⟨tasks, _⟩ := move_sound sound there moves same
      exact weight_move (cost_moved there tasks (fun _ _ => rfl) (fun _ _ => rfl) less)

/-- A run of a routine comes to an outcome where calls can be nested without end, and have
prices. -/
theorem completes (inside : depths.inside level = some level) (prices : depths.Prices price)
    (supported : routine.Supported footing.allowed) :
    ∃ fuel outcome last,
      (start routine argument).toOutcome? machine fuel = some (.ok outcome, last) := by
  have step {weight : Nat} {world : World}
      (holds : (start routine argument).Reaches machine world ∧
        world.weight machine price (fun _ => level) = weight)
      (going : world.outcome? = none) :
      ∃ next less, world.step? machine = some next ∧ less < weight ∧
        (start routine argument).Reaches machine next ∧
          next.weight machine price (fun _ => level) = less := by
    obtain ⟨reaches, rfl⟩ := holds
    obtain ⟨next, stepped, less⟩ := reaches_lighter inside prices supported reaches going
    exact ⟨next, _, stepped, less, reaches.tail stepped, rfl⟩
  obtain ⟨fuel, outcome, last, found, _, reaches, _⟩ := toOutcome?_of_lighter step ⟨.refl, rfl⟩
  obtain ⟨parent, sound⟩ := reaches_sound supported reaches
  cases outcome with
  | ok result => exact ⟨fuel, result, last, found⟩
  | error defect =>
      obtain ⟨others, same⟩ := outcome?_broken (toOutcome?_reaches found).2
      refine absurd ?_ (sound.unbroken 0 defect)
      rw [same]
      rfl

end

end World

namespace Routine

/-- No run gets stuck. As long as it has no outcome, a task can go on or waits for a moment. For the
values of names, a task waits for bindings that its frame had before the one that the task is part
of, and a body waits for bindings of its own frame. So a run of a compiled routine has an outcome if
no routine of its library comes to call itself. -/
theorem perform_goes_on (routine : Routine) (registry : Registry) (argument : Value) :
    (∀ world : World, (World.start routine argument).Reaches ⟨registry, routine.library⟩ world →
      (world.outcome? = none → (∃ task, task ∈ Machine.awake ⟨registry, routine.library⟩ world) ∨
        ∃ moment, world.wake? = some moment) ∧
      ∀ (task : Nat) (work : Work), world.tasks[task]? = some work →
        work.Asks ((World.start routine argument).MayAsk ⟨registry, routine.library⟩ world task) ∧
          work.Framed (· < world.tasks.length)) ∧
    ∀ base : Registry, base.Built → Compiles base routine → base.Grown registry →
      Library.Acyclic routine.library → ∀ drain, ∃ fuel report,
        routine.perform? registry argument drain fuel = some (.ok report) := by
  refine ⟨fun world reaches => ?_, fun base built compiles grown acyclic drain => ?_⟩
  · obtain ⟨parent, follows⟩ := World.reaches_follows reaches
    refine ⟨fun going => World.step?_ne_none fun still => ?_, fun task work there => ?_⟩
    · exact follows.ordered.outcome?_ne_none follows.begun still going
    · have heeds := follows.heeds task work there
      exact ⟨heeds.asks, heeds.framed.mono fun other owned => owned.1⟩
  · obtain ⟨footing, supported⟩ := compiles.footing built grown
    obtain ⟨fuel, outcome, last, found⟩ := @World.completes _ _ (Depths.unlimited _) _ () _ argument
      rfl acyclic.prices supported
    refine ⟨fuel, ?_⟩
    rw [perform?, found]
    exact ⟨_, rfl⟩

theorem perform_goes_on_telling : ∃ routine,
    Document.telling.compile ⟨"", ""⟩ Registry.standard.names = .ok routine ∧
    ((∃ task, task ∈ Machine.awake ⟨Registry.standard, routine.library⟩
        (World.start routine (.text "tea"))) ∨
      ∃ moment, (World.start routine (.text "tea")).wake? = some moment) ∧
    ∃ fuel report, routine.perform? (Registry.standard.register "task" fun value =>
      .later 20 (.ok value)) (.text "tea") 5 fuel = some (.ok report) := by
  refine ⟨_, rfl, ((perform_goes_on _ Registry.standard _).1 _ .refl).1 rfl, ?_⟩
  refine (perform_goes_on _ _ _).2 _ (.inr .refl) (@Compiles.document _ _ .telling ⟨"", ""⟩ rfl)
    (.register _ _ .refl) (.of_rank (fun routine => routine.needs.length) ?_) 5
  decide

end Routine

end Runbook
