import Runbook.Proofs.Evaluation.Sequel

/-!
A run that trails another one.

A run trails another if it does what the other does, some steps of the other taking two of its own:
a silent one, which nobody hears and in which the run does not come to an outcome, and that step. So
it needs more fuel for the same report. In the long run, what the two are heard to do is the same;
and so is, at the end of each moment, what each of their tasks has come to.
-/
namespace Runbook

/-- What a work that has ended has come to. -/
def Work.result? : Work → Option (Except Defect Outcome)
  | .done outcome => some (.ok outcome)
  | .broken defect => some (.error defect)
  | _ => none

namespace World

variable {machine machine' : Machine} {same : World → World → Prop}

/-- What a step of the other run does, the one run does in a step, or in a silent step and one
more. -/
inductive Strides (machine machine' : Machine) (same : World → World → Prop) (world other : World) :
    Prop
  | together : Option.Rel same (world.step? machine) (other.step? machine') →
      Strides machine machine' same world other
  | silent {middle next next' : World} : world.step? machine = some middle →
      middle.outcome? = world.outcome? → heard middle.log = heard world.log →
      middle.step? machine = some next → next.clock = world.clock →
      other.step? machine' = some next' → same next next' →
      Strides machine machine' same world other

/-- The one run trails the other. -/
structure Trails (machine machine' : Machine) (same : World → World → Prop) : Prop where
  step : ∀ {world other}, same world other → Strides machine machine' same world other
  clock : ∀ {world other}, same world other → other.clock = world.clock
  ends : ∀ {world other}, same world other → ∀ task : TaskId,
    other.tasks[task]?.bind Work.ended? = world.tasks[task]?.bind Work.ended?
  log : ∀ {world other}, same world other → heard other.log = heard world.log

variable {world other next first : World} {found : Except Defect Outcome × World}
  {limit fuel more : Nat}

theorem toOutcome?_step (going : world.outcome? = none)
    (stepped : world.step? machine = some next) :
    world.toOutcome? machine (fuel + 1) = next.toOutcome? machine fuel := by
  rw [toOutcome?, going, stepped]

theorem toMoment_step (stepped : world.step? machine = some next) (early : ¬ limit < next.clock) :
    world.toMoment machine limit (fuel + 1) = next.toMoment machine limit fuel := by
  rw [toMoment, stepped]
  exact if_neg early

theorem outcome?_eq_bind (world : World) :
    world.outcome? = (world.tasks[0]?.bind Work.ended?).bind Work.result? := by
  obtain ⟨_, works, _, _⟩ := world
  cases works with
  | nil => rfl
  | cons work works => cases work <;> rfl

/-- A run that goes on takes back nothing of what has been heard. -/
theorem heard_toMoment (machine : Machine) (limit fuel : Nat) (world : World) :
    heard world.log <+: heard (world.toMoment machine limit fuel).log := by
  obtain ⟨events, log, _⟩ := (toMoment_reaches machine limit fuel world).log
  rw [log, heard_append]
  exact List.prefix_append _ _

namespace Trails

variable (trails : Trails machine machine' same)
include trails

theorem outcome? (here : same world other) : other.outcome? = world.outcome? := by
  rw [outcome?_eq_bind, outcome?_eq_bind, trails.ends here]

/-- With twice the fuel, the one run comes to the outcome of the other. -/
theorem toOutcome? (here : same world other) (finds : other.toOutcome? machine' fuel = some found) :
    ∃ first, same first found.2 ∧ world.toOutcome? machine (2 * fuel) = some (found.1, first) := by
  induction fuel generalizing world other with
  | zero => cases finds
  | succ fuel ih =>
      have ends := trails.outcome? here
      rw [World.toOutcome?] at finds
      split at finds
      · rename_i ended
        cases finds
        refine ⟨world, here, ?_⟩
        rw [Nat.mul_succ, World.toOutcome?, ← ends, ended]
      · rename_i going
        rw [ends] at going
        split at finds
        · rename_i stepped'
          cases trails.step here with
          | together both =>
              rw [stepped'] at both
              generalize stepped : world.step? machine = next at both
              cases both with
              | some later =>
                  obtain ⟨first, there, comes⟩ := ih later finds
                  refine ⟨first, there, toOutcome?_more ?_ (Nat.le_succ (2 * fuel + 1))⟩
                  rw [toOutcome?_step going stepped, comes]
          | silent stepped still _ onward _ stepped'' later =>
              cases stepped'.symm.trans stepped''
              obtain ⟨first, there, comes⟩ := ih later finds
              refine ⟨first, there, ?_⟩
              rw [Nat.mul_succ, toOutcome?_step going stepped,
                toOutcome?_step (still.trans going) onward, comes]
        · cases finds

/-- With the same fuel, the other run comes to the outcome of the one. -/
theorem toOutcome?_back (here : same world other)
    (finds : world.toOutcome? machine fuel = some found) :
    ∃ first, same found.2 first ∧ other.toOutcome? machine' fuel = some (found.1, first) := by
  induction fuel using Nat.strong_induction_on generalizing world other with
  | _ fuel ih =>
      have ends := trails.outcome? here
      cases fuel with
      | zero => cases finds
      | succ fuel =>
          cases going : world.outcome? with
          | some ended =>
              rw [World.toOutcome?, going] at finds
              cases finds
              exact ⟨other, here, by rw [World.toOutcome?, ends, going]⟩
          | none =>
              rw [going] at ends
              cases trails.step here with
              | together both =>
                  cases stepped : world.step? machine with
                  | none =>
                      rw [World.toOutcome?, going, stepped] at finds
                      cases finds
                  | some next =>
                      rw [stepped] at both
                      rw [toOutcome?_step going stepped] at finds
                      generalize stepped' : other.step? machine' = next' at both
                      cases both with
                      | some later =>
                          rw [toOutcome?_step ends stepped']
                          exact ih fuel (Nat.lt_succ_self _) later finds
              | silent stepped still _ onward _ stepped' later =>
                  rw [toOutcome?_step going stepped] at finds
                  cases fuel with
                  | zero => cases finds
                  | succ fuel =>
                      rw [toOutcome?_step (still.trans going) onward] at finds
                      obtain ⟨first, there, comes⟩ := ih fuel (by omega) later finds
                      refine ⟨first, there, toOutcome?_more ?_ (Nat.le_succ (fuel + 1))⟩
                      rw [toOutcome?_step ends stepped', comes]

/-- With twice the fuel, what is heard of the other run up to a moment is heard of the one. -/
theorem toMoment (here : same world other) (enough : 2 * fuel ≤ more) :
    heard (other.toMoment machine' limit fuel).log <+:
      heard (world.toMoment machine limit more).log := by
  induction fuel generalizing world other more with
  | zero =>
      rw [World.toMoment, trails.log here]
      exact heard_toMoment machine limit more world
  | succ fuel ih =>
      have grown := heard_toMoment machine limit more world
      rw [← trails.log here] at grown
      rw [World.toMoment]
      split
      · exact grown
      · rename_i next' stepped'
        split
        · exact grown
        · rename_i early
          obtain ⟨more, rfl⟩ := Nat.exists_eq_add_of_le' enough
          rw [Nat.mul_succ, ← Nat.add_assoc]
          cases trails.step here with
          | together both =>
              rw [stepped'] at both
              generalize stepped : world.step? machine = next at both
              cases both with
              | some later =>
                  rw [trails.clock later] at early
                  rw [toMoment_step stepped early]
                  exact ih later (by omega)
          | silent stepped _ _ onward _ stepped'' later =>
              cases stepped'.symm.trans stepped''
              rw [trails.clock later] at early
              have soon := fun late =>
                early (Nat.lt_of_lt_of_le late (step?_goes onward).clock_le)
              rw [toMoment_step stepped soon, toMoment_step onward early]
              exact ih later (Nat.le_add_left _ _)

/-- With the same fuel, what is heard of the one run up to a moment is heard of the other. -/
theorem toMoment_back (here : same world other) (enough : fuel ≤ more) :
    heard (world.toMoment machine limit fuel).log <+:
      heard (other.toMoment machine' limit more).log := by
  induction fuel using Nat.strong_induction_on generalizing world other more with
  | _ fuel ih =>
      have grown := heard_toMoment machine' limit more other
      rw [trails.log here] at grown
      cases fuel with
      | zero => exact grown
      | succ fuel =>
          obtain ⟨more, rfl⟩ := Nat.exists_eq_add_of_le' enough
          cases trails.step here with
          | together both =>
              rw [World.toMoment]
              split
              · exact grown
              · rename_i next stepped
                split
                · exact grown
                · rename_i early
                  rw [stepped] at both
                  generalize stepped' : other.step? machine' = next' at both
                  cases both with
                  | some later =>
                      rw [← Nat.add_assoc,
                        toMoment_step stepped' (trails.clock later ▸ early)]
                      exact ih fuel (Nat.lt_succ_self _) later (Nat.le_add_left _ _)
          | silent stepped _ quiet onward _ stepped' later =>
              rw [← quiet] at grown
              rw [World.toMoment, stepped]
              dsimp only
              split
              · rw [← quiet]
                exact grown
              · cases fuel with
                | zero => exact grown
                | succ fuel =>
                    rw [World.toMoment, onward]
                    dsimp only
                    split
                    · exact grown
                    · rename_i early
                      rw [← Nat.add_assoc,
                        toMoment_step stepped' (trails.clock later ▸ early)]
                      exact ih fuel (by omega) later (by omega)

/-- Of worlds that make the same step, both are the last ones up to a moment or neither is. -/
theorem rests {moment : Nat} (here : same world other)
    (both : Option.Rel same (world.step? machine) (other.step? machine')) :
    Rests machine moment world ↔ Rests machine' moment other := by
  have clock := trails.clock here
  constructor
  · rintro ⟨come, still⟩
    refine ⟨clock ▸ come, fun next' stepped' => ?_⟩
    rw [stepped'] at both
    generalize stepped : world.step? machine = next at both
    cases both with
    | some later => exact trails.clock later ▸ still _ stepped
  · rintro ⟨come, still⟩
    refine ⟨clock ▸ come, fun next stepped => ?_⟩
    rw [stepped] at both
    generalize stepped' : other.step? machine' = next' at both
    cases both with
    | some later => exact (trails.clock later).symm ▸ still _ stepped'

/-- If the one run comes through a moment, the other does. -/
theorem through {moment : Nat} {last : World} (here : same world other)
    (through : Through machine moment world last) :
    ∃ last', Through machine' moment other last' ∧ same last last' := by
  obtain ⟨count, steps⟩ := through.reaches.steps
  have rests := through.toRests
  clear through
  induction count using Nat.strong_induction_on generalizing world other with
  | _ count ih =>
      have onward {count' : Nat} {next next' : World} (less : count' < count)
          (stepped' : other.step? machine' = some next') (later : same next next')
          (steps : Steps machine count' next last) :
          ∃ last', Through machine' moment other last' ∧ same last last' := by
        obtain ⟨last', passes, there⟩ := ih count' less later steps
        exact ⟨last', ⟨passes.toRests, .head stepped' passes.reaches⟩, there⟩
      cases trails.step here with
      | together both =>
          cases steps with
          | refl => exact ⟨other, ⟨(trails.rests here both).mp rests, .refl⟩, here⟩
          | head stepped steps =>
              rw [stepped] at both
              generalize stepped' : other.step? machine' = next' at both
              cases both with
              | some later => exact onward (Nat.lt_succ_self _) stepped' later steps
      | silent stepped _ _ after timely stepped' later =>
          -- the clock does not move in the silent step and the one after it
          have early := (step?_goes stepped).clock_le
          have soon := (step?_goes after).clock_le
          cases steps with
          | refl =>
              have passed := rests.still _ stepped
              have come := rests.come
              omega
          | head again steps =>
              cases stepped.symm.trans again
              cases steps with
              | refl =>
                  have passed := rests.still _ after
                  have come := rests.come
                  omega
              | head again steps =>
                  cases after.symm.trans again
                  exact onward (by omega) stepped' later steps

/-- If the other run comes through a moment, the one does. -/
theorem through_back {moment : Nat} {last : World} (here : same world other)
    (through : Through machine' moment other last) :
    ∃ first, Through machine moment world first ∧ same first last := by
  obtain ⟨count, steps⟩ := through.reaches.steps
  have rests := through.toRests
  clear through
  induction count generalizing world other with
  | zero =>
      cases steps
      cases trails.step here with
      | together both => exact ⟨world, ⟨(trails.rests here both).mpr rests, .refl⟩, here⟩
      | silent _ _ _ _ timely stepped' later =>
          have passed := rests.still _ stepped'
          have come := rests.come
          rw [trails.clock later, timely, ← trails.clock here] at passed
          omega
  | succ count ih =>
      cases steps with
      | head stepped' steps =>
          cases trails.step here with
          | together both =>
              rw [stepped'] at both
              generalize stepped : world.step? machine = next at both
              cases both with
              | some later =>
                  obtain ⟨first, passes, there⟩ := ih later steps
                  exact ⟨first, ⟨passes.toRests, .head stepped passes.reaches⟩, there⟩
          | silent stepped _ _ after _ again later =>
              cases stepped'.symm.trans again
              obtain ⟨first, passes, there⟩ := ih later steps
              exact ⟨first, ⟨passes.toRests, .head stepped (.head after passes.reaches)⟩, there⟩

end Trails

end World

namespace Routine

variable {one other : Routine} {registry : Registry} {argument : Value}

/-- Whatever performing the one routine is heard to do, performing the other is heard to do as well,
from some fuel on. What is heard after the outcome may be cut short by the fuel, and goes on with
more of it. -/
structure Echoes (one other : Routine) (registry : Registry) (argument : Value) : Prop where
  breaks : ∀ {drain fuel : Nat} {defect : Defect},
    one.perform? registry argument drain fuel = some (.error defect) →
      ∃ enough, ∀ more, enough ≤ more →
        other.perform? registry argument drain more = some (.error defect)
  reports : ∀ {drain fuel : Nat} {report : Report},
    one.perform? registry argument drain fuel = some (.ok report) →
      ∃ enough, ∀ more, enough ≤ more → ∃ log,
        other.perform? registry argument drain more =
          some (.ok ⟨report.outcome, report.elapsed, log⟩) ∧
        heard report.log <+: heard log

/-- From some fuel on, that is what performing the routine is heard to do. -/
def Sounds (routine : Routine) (registry : Registry) (argument : Value) (drain : Nat)
    (result : Except Defect Report) : Prop :=
  ∃ enough, ∀ fuel, enough ≤ fuel →
    (routine.perform? registry argument drain fuel).map (Except.map Report.heard) = some result

/-- A routine echoes another if its run comes to the outcome of the other one at the same moment,
and more is heard of it then. -/
theorem Echoes.of_comes
    (comes : ∀ {fuel : Nat} {found : Except Defect Outcome × World},
      (World.start one argument).toOutcome? ⟨registry, one.library⟩ fuel = some found →
        ∃ enough first, first.clock = found.2.clock ∧
          (World.start other argument).toOutcome? ⟨registry, other.library⟩ enough =
            some (found.1, first) ∧
          ∀ limit fuel, ∃ enough, ∀ more, enough ≤ more →
            heard (found.2.toMoment ⟨registry, one.library⟩ limit fuel).log <+:
              heard (first.toMoment ⟨registry, other.library⟩ limit more).log) :
    one.Echoes other registry argument where
  breaks := by
    intro drain fuel defect performed
    rw [perform?] at performed
    split at performed
    · cases performed
    · rename_i finds
      cases performed
      obtain ⟨enough, first, _, there, _⟩ := comes finds
      refine ⟨enough, fun more late => ?_⟩
      rw [perform?, World.toOutcome?_more there late]
    · cases performed
  reports := by
    intro drain fuel report performed
    obtain ⟨outcome, last, finds, rfl⟩ := perform?_eq_ok.mp performed
    obtain ⟨enough, first, clock, there, heard⟩ := comes finds
    obtain ⟨enough', longer⟩ := heard (last.clock + drain) fuel
    refine ⟨max enough enough', fun more late => ⟨_, perform?_eq_ok.mpr ⟨outcome, first,
      World.toOutcome?_more there (Nat.le_trans (Nat.le_max_left _ _) late), ?_⟩,
      longer more (Nat.le_trans (Nat.le_max_right _ _) late)⟩⟩
    rw [clock]

/-- Routines that echo each other sound the same. -/
theorem Echoes.sounds (onward : one.Echoes other registry argument)
    (back : other.Echoes one registry argument) {drain : Nat} {result : Except Defect Report}
    (sounds : one.Sounds registry argument drain result) :
    other.Sounds registry argument drain result := by
  obtain ⟨enough, settled⟩ := sounds
  obtain ⟨found, performed, rfl⟩ := Option.map_eq_some_iff.mp (settled enough (Nat.le_refl _))
  cases found with
  | error defect =>
      obtain ⟨fuel, breaks⟩ := onward.breaks performed
      refine ⟨fuel, fun more late => ?_⟩
      rw [breaks more late]
      rfl
  | ok report =>
      obtain ⟨fuel, reports⟩ := onward.reports performed
      refine ⟨fuel, fun more late => ?_⟩
      obtain ⟨log, again, shorter⟩ := reports more late
      -- what is heard of the other run is no more than what is heard of the one in the long run
      obtain ⟨fuel', reports'⟩ := back.reports again
      obtain ⟨log', still, longer⟩ := reports' (max fuel' enough) (Nat.le_max_left _ _)
      have same := settled _ (Nat.le_max_right fuel' enough)
      rw [still] at same
      have same : heard log' = heard report.log :=
        congrArg Report.log (Except.ok.inj (Option.some.inj same))
      rw [same] at longer
      rw [again]
      have heard : Runbook.heard log = Runbook.heard report.log :=
        longer.eq_of_length_le shorter.length_le
      exact congrArg
        (fun log => some (Except.ok (Report.mk report.outcome report.elapsed log))) heard

/-- By the end of each moment, all that the tasks of the one run have come to, those of the other
have come to, and the same has been heard. -/
def KeepsUp (one other : Routine) (registry : Registry) (argument : Value) : Prop :=
  ∀ moment last, World.Through ⟨registry, one.library⟩ moment (World.start one argument) last →
    ∃ last', World.Through ⟨registry, other.library⟩ moment (World.start other argument) last' ∧
      heard last'.log = heard last.log ∧
      ∀ task : TaskId,
        last'.tasks[task]?.bind Work.ended? = last.tasks[task]?.bind Work.ended?

/-- Two routines are heard to do the same. -/
structure HeardAlike (one other : Routine) (registry : Registry) (argument : Value) : Prop where
  onward : one.Echoes other registry argument
  back : other.Echoes one registry argument
  sounds : ∀ drain result,
    one.Sounds registry argument drain result ↔ other.Sounds registry argument drain result
  moments : one.KeepsUp other registry argument
  moments_back : other.KeepsUp one registry argument

variable {same : World → World → Prop}

/-- Routines are heard to do the same if the run of the one trails that of the other. -/
theorem heardAlike_of_trails
    (trails : World.Trails ⟨registry, one.library⟩ ⟨registry, other.library⟩ same)
    (here : same (World.start one argument) (World.start other argument)) :
    one.HeardAlike other registry argument := by
  have onward : one.Echoes other registry argument := by
    refine .of_comes fun {fuel found} finds => ?_
    obtain ⟨first, there, comes⟩ := trails.toOutcome?_back here finds
    exact ⟨fuel, first, trails.clock there, comes, fun limit fuel =>
      ⟨fuel, fun more => trails.toMoment_back there⟩⟩
  have back : other.Echoes one registry argument := by
    refine .of_comes fun {fuel found} finds => ?_
    obtain ⟨first, there, comes⟩ := trails.toOutcome? here finds
    exact ⟨2 * fuel, first, (trails.clock there).symm, comes, fun limit fuel =>
      ⟨2 * fuel, fun more => trails.toMoment there⟩⟩
  refine ⟨onward, back, fun drain result => ⟨onward.sounds back, back.sounds onward⟩, ?_, ?_⟩
  · intro moment last through
    obtain ⟨last', passes, there⟩ := trails.through here through
    exact ⟨last', passes, trails.log there, trails.ends there⟩
  · intro moment last through
    obtain ⟨first, passes, there⟩ := trails.through_back here through
    exact ⟨first, passes, (trails.log there).symm, fun task => (trails.ends there task).symm⟩

end Routine

end Runbook
