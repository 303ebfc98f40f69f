import Runbook.Proofs.Evaluation.Tandem

/-!
Runs without tasks that have ended.

Tasks that have their values do nothing any more. So a run in which some of them stand, and that
nothing waits for, goes on step for step as the run without them.
-/
namespace Runbook

theorem min?_congr {moments others : List Nat}
    (same : ∀ moment : Nat, moment ∈ others ↔ moment ∈ moments) : others.min? = moments.min? := by
  cases first : moments.min? with
  | none =>
      rw [List.min?_eq_none_iff] at first ⊢
      refine List.eq_nil_iff_forall_not_mem.mpr fun moment inside => ?_
      rw [same, first] at inside
      cases inside
  | some moment =>
      obtain ⟨inside, least⟩ := List.min?_eq_some_iff.mp first
      refine List.min?_eq_some_iff.mpr ⟨(same moment).mpr inside, fun other among => ?_⟩
      exact least other ((same other).mp among)

namespace Comparison

/-- In the first world all tasks are paired, and in the second those that have no value yet. -/
structure Prunes (two : Comparison) (pairs : Pairing) (world world' : World) : Prop where
  abreast : two.Abreast pairs world world'
  run : (0, 0) ∈ pairs
  whole : ∀ task, task < world.tasks.length → task ∈ pairs.lefts
  ended : ∀ (task : TaskId) (work : Work), world'.tasks[task]? = some work → task ∉ pairs.rights →
    ∃ value, work = .done (.ok value)
  heard : Runbook.heard world'.log = Runbook.heard world.log
  clock : world.clock = world'.clock

namespace Prunes

variable {two : Comparison} {pairs more : Pairing} {world world' next next' : World}

/-- A task that can move is paired. -/
theorem right (prunes : two.Prunes pairs world world') {task : TaskId}
    (ready : two.machine'.ready world' task = true) : task ∈ pairs.rights := by
  by_contra stray
  have below := World.ready_below ready
  obtain ⟨value, same⟩ := prunes.ended task _ (List.getElem?_eq_getElem below) stray
  rw [Machine.ready, Machine.stepTask?, List.getElem?_eq_getElem below, same] at ready
  cases ready

/-- The first tasks of both agendas are paired. -/
theorem agenda (prunes : two.Prunes pairs world world') :
    world'.agenda two.machine' = [] ↔ world.agenda two.machine = [] := by
  have none {machine : Machine} {world : World} :
      world.agenda machine = [] ↔ ∀ task, machine.ready world task = false := by
    rw [List.eq_nil_iff_forall_not_mem]
    refine forall_congr' fun task => ?_
    rw [World.mem_agenda, Bool.not_eq_true]
  rw [none, none]
  constructor
  · intro asleep task
    by_contra ready
    rw [Bool.not_eq_false] at ready
    obtain ⟨other, inside⟩ := Pairing.mem_lefts.mp (prunes.whole task (World.ready_below ready))
    rw [prunes.abreast.ready inside, asleep] at ready
    cases ready
  · intro asleep task
    by_contra ready
    rw [Bool.not_eq_false] at ready
    obtain ⟨other, inside⟩ := Pairing.mem_rights.mp (prunes.right ready)
    rw [← prunes.abreast.ready inside, asleep] at ready
    cases ready

/-- The same moments are waited for. -/
theorem wake? (prunes : two.Prunes pairs world world') : world'.wake? = world.wake? := by
  refine min?_congr fun moment => ?_
  rw [Work.mem_wakesOfAll, Work.mem_wakesOfAll]
  constructor
  · intro awaited
    obtain ⟨work, among, inside⟩ := awaited
    obtain ⟨task, there⟩ := List.mem_iff_getElem?.mp among
    by_cases right : task ∈ pairs.rights
    · obtain ⟨other, paired⟩ := Pairing.mem_rights.mp right
      obtain ⟨one, _, found, _, _⟩ := prunes.abreast.paired.there paired
      refine ⟨one, List.mem_of_getElem? found, ?_⟩
      rw [prunes.abreast.wakes paired found there]
      exact inside
    · obtain ⟨value, rfl⟩ := prunes.ended task work there right
      cases inside
  · intro awaited
    obtain ⟨work, among, inside⟩ := awaited
    obtain ⟨task, there⟩ := List.mem_iff_getElem?.mp among
    obtain ⟨other, paired⟩ :=
      Pairing.mem_lefts.mp (prunes.whole task (List.getElem?_eq_some_iff.mp there).1)
    obtain ⟨_, two, _, found, _⟩ := prunes.abreast.paired.there paired
    refine ⟨two, List.mem_of_getElem? found, ?_⟩
    rw [← prunes.abreast.wakes paired there found]
    exact inside

/-- After a step that both runs make, the tasks that are not paired have their values still. -/
theorem later (prunes : two.Prunes pairs world world') (whole : two.like.whole)
    (keeps : pairs ⊆ more) (stepped' : world'.step? two.machine' = some next')
    (both : two.Both pairs more world world' next next') (abreast : two.Abreast more next next')
    (clock : next.clock = next'.clock) : two.Prunes more next next' := by
  obtain ⟨events, tells, tells'⟩ := both.heard
  refine ⟨abreast, keeps prunes.run, fun task below => ?_, fun task work there stray => ?_, ?_,
    clock⟩
  · cases both with
    | tick same tick _ =>
        rw [tick.tasks] at below
        rw [same]
        exact prunes.whole task below
    | move _ _ move _ alike =>
        by_cases before : task < world.tasks.length
        · exact Pairing.lefts_subset keeps (prunes.whole task before)
        · rw [move.length, ← List.length_append] at below
          exact Pairing.mem_lefts.mpr
            (alike.grown.whole₁ task below ⟨whole, Nat.le_of_not_lt before⟩)
  · have before : task < world'.tasks.length := by
      cases both with
      | tick _ _ tick =>
          rw [← tick.tasks]
          exact (List.getElem?_eq_some_iff.mp there).1
      | move _ _ _ move alike =>
          by_contra fresh
          have below := (List.getElem?_eq_some_iff.mp there).1
          rw [move.length, ← List.length_append] at below
          exact stray (Pairing.mem_rights.mpr
            (alike.grown.whole₂ task below ⟨whole, Nat.le_of_not_lt fresh⟩))
    obtain ⟨value, same⟩ := prunes.ended task _ (List.getElem?_eq_getElem before)
      fun inside => stray (Pairing.rights_subset keeps inside)
    have found : world'.tasks[task]? = some (.done (.ok value)) :=
      (List.getElem?_eq_getElem before).trans (congrArg some same)
    have stays := (World.step?_goes stepped').done found
    exact ⟨value, Option.some.inj (there.symm.trans stays)⟩
  · rw [tells, tells', prunes.heard]

/-- Both runs go on together. -/
theorem step (prunes : two.Prunes pairs world world') (whole : two.like.whole) :
    Option.Rel (fun next next' => ∃ more, two.Prunes more next next') (world.step? two.machine)
      (world'.step? two.machine') := by
  have abreast := prunes.abreast
  by_cases asleep : world.agenda two.machine = []
  · have asleep' := prunes.agenda.mpr asleep
    have turns := abreast.orderly₁.step?
    have turns' := abreast.orderly₂.step?
    generalize first : world.step? two.machine = one at turns ⊢
    generalize second : world'.step? two.machine' = other at turns' ⊢
    cases turns with
    | move agenda _ _ => cases asleep.symm.trans agenda
    | tick _ =>
        cases turns' with
        | move agenda _ _ => cases asleep'.symm.trans agenda
        | tick _ =>
            have same := prunes.wake?
            cases wakes : world.wake? with
            | none =>
                rw [wakes] at same
                rw [same]
                exact .none
            | some moment =>
                rw [wakes] at same first
                rw [same] at second ⊢
                have tick : World.Tick two.machine world
                    { world with clock := moment, queue := [] } := ⟨asleep, wakes, rfl⟩
                have tick' : World.Tick two.machine' world'
                    { world' with clock := moment, queue := [] } := ⟨asleep', same, rfl⟩
                exact .some ⟨pairs, prunes.later whole (List.Subset.refl _) second
                  (.tick rfl tick tick') (abreast.tickBoth first second tick tick' rfl) rfl⟩
  · obtain ⟨next, task, work, change, rest, stepped, move⟩ := abreast.orderly₁.goes_on asleep
    obtain ⟨next', task', work', change', rest', stepped', move'⟩ :=
      abreast.orderly₂.goes_on (mt prunes.agenda.mp asleep)
    have left := prunes.whole task move.below
    have right : task' ∈ pairs.rights := by
      refine prunes.right (World.mem_agenda.mp ?_)
      rw [move'.agenda]
      exact List.mem_cons_self
    obtain ⟨more, keeps, both, later⟩ := abreast.moveBoth stepped stepped' move move' left right
    rw [stepped, stepped']
    refine .some ⟨more, prunes.later whole keeps stepped' both later ?_⟩
    rw [move.clock, move'.clock]
    exact prunes.clock

/-- Runs of which one has no tasks that have ended are in tandem. -/
theorem tandem (two : Comparison) (whole : two.like.whole) :
    Tandem two.machine two.machine' [] 0 fun world world' =>
      ∃ pairs, two.Prunes pairs world world' where
  step here := by
    obtain ⟨pairs, prunes⟩ := here
    exact prunes.step whole
  clock here := by
    obtain ⟨pairs, prunes⟩ := here
    exact prunes.clock.symm
  result here := by
    obtain ⟨pairs, prunes⟩ := here
    exact (prunes.abreast.paired.result prunes.run).symm
  log here := by
    obtain ⟨pairs, prunes⟩ := here
    exact prunes.heard.trans (List.map_id _).symm

end Prunes

end Comparison

end Runbook
