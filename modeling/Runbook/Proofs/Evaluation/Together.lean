import Runbook.Proofs.Evaluation.Abreast
import Runbook.Proofs.Evaluation.Moments

/-!
Two runs that come through a moment together.

Of two runs that are abreast of each other and that both come through a moment, either one can go on
alone, or both do so together. So their last worlds up to the moment are abreast of each other too.
-/
namespace Runbook

/-- While a task can move, or waits for no later moment, a run goes on by then. -/
theorem World.Orderly.goes_by {machine : Machine} {world : World} {moment : Nat}
    (orderly : world.Orderly machine) (come : world.clock ≤ moment)
    (due : world.agenda machine ≠ [] ∨ ∃ (task : TaskId) (work : Work),
      world.tasks[task]? = some work ∧ ∃ wake ∈ work.wakes, wake ≤ moment) :
    ∃ next, world.step? machine = some next ∧ next.clock ≤ moment := by
  by_cases awake : world.agenda machine = []
  · rcases due with occupied | ⟨task, work, there, wake, awaited, early⟩
    · exact absurd awake occupied
    · have listed : wake ∈ Work.wakesOfAll world.tasks :=
        Work.mem_wakesOfAll.mpr ⟨work, List.mem_of_getElem? there, awaited⟩
      have turns := orderly.step?
      generalize same : world.step? machine = result at turns
      cases turns with
      | move agenda _ _ => cases awake.symm.trans agenda
      | tick _ =>
          cases first : world.wake? with
          | none =>
              rw [List.min?_eq_none_iff.mp first] at listed
              cases listed
          | some earliest =>
              refine ⟨_, rfl, ?_⟩
              exact Nat.le_trans ((List.min?_eq_some_iff.mp first).2 wake listed) early
  · obtain ⟨next, task, work, change, rest, stepped, move⟩ := orderly.goes_on awake
    refine ⟨next, stepped, ?_⟩
    rw [move.clock]
    exact come

namespace Comparison.Abreast

variable {two : Comparison} {pairs : Pairing} {world world' next next' : World} {moment : Nat}

/-- A paired task that waits for a moment does so in both worlds. -/
theorem wakes (abreast : two.Abreast pairs world world') {pair : Nat × Nat} (inside : pair ∈ pairs)
    {one other : Work} (there : world.tasks[pair.1]? = some one)
    (there' : world'.tasks[pair.2]? = some other) : one.wakes = other.wakes := by
  obtain ⟨work, work', found, found', alike⟩ := abreast.paired.there inside
  obtain rfl := Option.some.inj (found.symm.trans there)
  obtain rfl := Option.some.inj (found'.symm.trans there')
  exact Work.wakes_alike work alike

/-- The first run goes on alone, or the second does, or both. -/
theorem stepLeft (abreast : two.Abreast pairs world world')
    (stepped : world.step? two.machine = some next) (early : next.clock ≤ moment)
    (come : world'.clock ≤ moment) :
    World.Aside two.machine pairs.lefts world next ∧ two.Abreast pairs next world' ∨
      ∃ next', world'.step? two.machine' = some next' ∧ next'.clock ≤ moment ∧
        (World.Aside two.machine' pairs.rights world' next' ∧ two.Abreast pairs world next' ∨
          ∃ more, pairs ⊆ more ∧ two.Both pairs more world world' next next' ∧
            two.Abreast more next next') := by
  rcases abreast.orderly₁.cases stepped with ⟨task, work, change, rest, move⟩ | tick
  · by_cases left : task ∈ pairs.lefts
    · obtain ⟨other, inside⟩ := Pairing.mem_lefts.mp left
      have listed : other ∈ world'.agenda two.machine' := by
        rw [World.mem_agenda, ← abreast.ready inside, ← World.mem_agenda, move.agenda]
        exact List.mem_cons_self
      obtain ⟨next', task', work', change', rest', stepped', move'⟩ :=
        abreast.orderly₂.goes_on (List.ne_nil_of_mem listed)
      refine .inr ⟨next', stepped', Nat.le_trans (Nat.le_of_eq move'.clock) come, ?_⟩
      by_cases right : task' ∈ pairs.rights
      · exact .inr (abreast.moveBoth stepped stepped' move move' left right)
      · exact .inl ⟨move'.aside stepped' right, abreast.strayRight stepped' move' right⟩
    · exact .inl ⟨move.aside stepped left, abreast.strayLeft stepped move left⟩
  · by_cases late : ∀ pair ∈ pairs, ∀ one, world.tasks[pair.1]? = some one →
        ∀ wake ∈ one.wakes, next.clock < wake
    · exact .inl ⟨tick.aside stepped _, abreast.tickLeft stepped tick late⟩
    · push Not at late
      obtain ⟨pair, inside, one, there, wake, awaited, due⟩ := late
      obtain ⟨_, other, _, there', _⟩ := abreast.paired.there inside
      have same := abreast.wakes inside there there'
      obtain ⟨next', stepped', early'⟩ := abreast.orderly₂.goes_by come
        (.inr ⟨pair.2, other, there', wake, same ▸ awaited, Nat.le_trans due early⟩)
      refine .inr ⟨next', stepped', early', ?_⟩
      rcases abreast.orderly₂.cases stepped' with ⟨task', work', change', rest', move'⟩ | tick'
      · have stray : task' ∉ pairs.rights := by
          intro right
          obtain ⟨task, inside⟩ := Pairing.mem_rights.mp right
          have asleep : two.machine.ready world task = false := not_ready tick.asleep
          rw [abreast.ready inside, ← Bool.not_eq_true, ← World.mem_agenda, move'.agenda] at asleep
          exact asleep List.mem_cons_self
        exact .inl ⟨move'.aside stepped' stray, abreast.strayRight stepped' move' stray⟩
      · have first : next'.clock ≤ next.clock :=
          Nat.le_trans (tick'.first there' (same ▸ awaited)) due
        by_cases clocks : next.clock = next'.clock
        · exact .inr ⟨pairs, List.Subset.refl _, .tick rfl tick tick',
            abreast.tickBoth stepped stepped' tick tick' clocks⟩
        · refine .inl ⟨tick'.aside stepped' _,
            abreast.tickRight stepped' tick' fun pair inside one there wake awaited => ?_⟩
          refine Nat.lt_of_lt_of_le (Nat.lt_of_le_of_ne first (Ne.symm clocks)) ?_
          exact tick.first there awaited

/-- If nothing more happens in the first run up to the moment, the second goes on alone. -/
theorem stepRight (abreast : two.Abreast pairs world world')
    (rests : World.Rests two.machine moment world)
    (stepped : world'.step? two.machine' = some next') (early : next'.clock ≤ moment) :
    World.Aside two.machine' pairs.rights world' next' ∧ two.Abreast pairs world next' := by
  have stuck {due : Prop} (goes : due → ∃ next, world.step? two.machine = some next ∧
      next.clock ≤ moment) : ¬due := by
    intro holds
    obtain ⟨next, stepped, early⟩ := goes holds
    exact Nat.not_lt_of_le early (rests.still next stepped)
  rcases abreast.orderly₂.cases stepped with ⟨task, work, change, rest, move⟩ | tick
  · have stray : task ∉ pairs.rights := by
      intro right
      obtain ⟨other, inside⟩ := Pairing.mem_rights.mp right
      have listed : other ∈ world.agenda two.machine := by
        rw [World.mem_agenda, abreast.ready inside, ← World.mem_agenda, move.agenda]
        exact List.mem_cons_self
      exact stuck (fun due => abreast.orderly₁.goes_by rests.come (.inl due))
        (List.ne_nil_of_mem listed)
    exact ⟨move.aside stepped stray, abreast.strayRight stepped move stray⟩
  · refine ⟨tick.aside stepped _,
      abreast.tickRight stepped tick fun pair inside one there wake awaited => ?_⟩
    by_contra due
    refine stuck (fun due => abreast.orderly₁.goes_by rests.come (.inr due)) ?_
    exact ⟨pair.1, one, there, wake, awaited, Nat.le_trans (Nat.le_of_not_lt due) early⟩

/-- Both runs come to their last worlds up to the moment, or one of them comes to a world where it
is over. -/
theorem together {halts halts' : Prop} {count count' : Nat} {last last' : World}
    (abreast : two.Abreast pairs world world')
    (steps : World.Steps two.machine count world last)
    (steps' : World.Steps two.machine' count' world' last')
    (come : last.clock ≤ moment) (come' : last'.clock ≤ moment)
    (ends : halts ∨ World.Rests two.machine moment last)
    (ends' : halts' ∨ World.Rests two.machine' moment last') :
    ∃ more one other, pairs ⊆ more ∧ two.Abreast more one other ∧
      one.Reaches two.machine last ∧ other.Reaches two.machine' last' ∧
      (one = last ∧ other = last' ∨ one = last ∧ halts ∨ other = last' ∧ halts') := by
  -- each step takes one of the runs nearer to its end
  induction whole : count + count' using Nat.strong_induction_on
    generalizing count count' pairs world world' with
  | _ total ih =>
      have stop (comes : world = last ∧ world' = last' ∨ world = last ∧ halts ∨
          world' = last' ∧ halts') : ∃ more one other, pairs ⊆ more ∧ two.Abreast more one other ∧
            one.Reaches two.machine last ∧ other.Reaches two.machine' last' ∧
            (one = last ∧ other = last' ∨ one = last ∧ halts ∨ other = last' ∧ halts') :=
        ⟨pairs, world, world', List.Subset.refl _, abreast, steps.reaches, steps'.reaches, comes⟩
      cases steps with
      | refl =>
          rcases ends with halts | rests
          · exact stop (.inr (.inl ⟨rfl, halts⟩))
          · cases steps' with
            | refl => exact stop (.inl ⟨rfl, rfl⟩)
            | @head count' _ next' _ stepped' rest' =>
                have early := Nat.le_trans (World.Reaches.clock_le rest'.reaches) come'
                exact ih (0 + count') (by omega) (abreast.stepRight rests stepped' early).2 .refl
                  rest' rfl
      | @head count _ next _ stepped rest =>
          have early := Nat.le_trans (World.Reaches.clock_le rest.reaches) come
          cases steps' with
          | refl =>
              rcases ends' with halts | rests
              · exact stop (.inr (.inr ⟨rfl, halts⟩))
              · rcases abreast.stepLeft stepped early come' with
                  ⟨_, left⟩ | ⟨next', stepped', early', _⟩
                · exact ih (count + 0) (by omega) left rest .refl rfl
                · exact absurd early' (Nat.not_le_of_lt (rests.still next' stepped'))
          | @head count' _ next' _ stepped' rest' =>
              have early' := Nat.le_trans (World.Reaches.clock_le rest'.reaches) come'
              have current := Nat.le_trans (World.step?_goes stepped').clock_le early'
              rcases abreast.stepLeft stepped early current with
                ⟨_, left⟩ | ⟨after, again, _, ⟨_, right⟩ | ⟨more, keeps, _, both⟩⟩
              · exact ih (count + (count' + 1)) (by omega) left rest (.head stepped' rest') rfl
              · obtain rfl := Option.some.inj (again.symm.trans stepped')
                exact ih (count + 1 + count') (by omega) right (.head stepped rest) rest' rfl
              · obtain rfl := Option.some.inj (again.symm.trans stepped')
                obtain ⟨most, one, other, le, found⟩ :=
                  ih (count + count') (by omega) both rest rest' rfl
                exact ⟨most, one, other, List.Subset.trans keeps le, found⟩

end Comparison.Abreast

end Runbook
