import Runbook.Proofs.Evaluation.Combining

/-!
Reports of two runs that are abreast of each other.

What one of the runs has come to, the other has come to as well when it has come through that
moment. So both report the same at the same time. That a run does not come through a moment is
possible: it then goes on forever without its clock.
-/
namespace Runbook

open World (Through)

namespace World

variable {machine machine' : Machine} {world world' next last other first : World} {moment : Nat}

/-- What a run has come to: `some none` is that it has broken down. -/
def result? (world : World) : Option (Option Outcome) := world.outcome?.map Except.toOption

theorem result?_eq_some {outcome : Outcome} :
    world.result? = some (some outcome) ↔ world.outcome? = some (.ok outcome) := by
  rw [result?]
  cases world.outcome? with
  | none => exact iff_of_false nofun nofun
  | some result =>
      cases result with
      | ok found => simp only [Option.map_some, Except.toOption, Option.some.injEq, Except.ok.injEq]
      | error defect =>
          exact iff_of_false (fun same => by cases same) (fun same => by cases same)

theorem result?_eq_none : world.result? = none ↔ world.outcome? = none := by
  rw [result?, Option.map_eq_none_iff]

/-- What a run has come to is final. -/
theorem Reaches.result {result : Option Outcome} (reaches : world.Reaches machine last)
    (ends : world.result? = some result) : last.result? = some result := by
  obtain ⟨found, there, rfl⟩ := Option.map_eq_some_iff.mp ends
  cases found with
  | ok outcome => exact result?_eq_some.mpr (reaches.outcome there)
  | error defect =>
      obtain ⟨other, broken⟩ := reaches.broken there
      rw [result?, broken]
      rfl

/-- The world that is reported is the first one that has come to something. -/
theorem toOutcome?_earliest {outcome : Except Defect Outcome} {fuel : Nat}
    (found : world.toOutcome? machine fuel = some (outcome, first))
    (reaches : world.Reaches machine other) (ends : other.result? ≠ none) :
    first.Reaches machine other := by
  induction fuel generalizing world with
  | zero => cases found
  | succ fuel ih =>
      rw [toOutcome?] at found
      split at found
      · cases found
        exact reaches
      · rename_i going
        rcases reaches.cases_head with same | ⟨next, stepped, rest⟩
        · exact absurd (result?_eq_none.mpr going) (same ▸ ends)
        · rw [stepped] at found
          exact ih found rest

/-- On its way to a later world, a run comes through the moments before. -/
theorem Reaches.through (reaches : world.Reaches machine last) (come : world.clock ≤ moment)
    (late : moment < last.clock) : ∃ middle, Through machine moment world middle := by
  induction reaches using Relation.ReflTransGen.head_induction_on with
  | refl => exact absurd late (Nat.not_lt_of_le come)
  | @head world next stepped _ ih =>
      rcases Nat.lt_or_ge moment next.clock with passed | early
      · refine ⟨world, ⟨come, fun after again => ?_⟩, .refl⟩
        obtain rfl := Option.some.inj (again.symm.trans stepped)
        exact passed
      · obtain ⟨middle, through⟩ := ih early
        exact ⟨middle, through.toRests, .head stepped through.reaches⟩

/-- A run that comes through a moment comes through those before. -/
theorem Through.earlier {early : Nat} (through : Through machine moment world last)
    (come : world.clock ≤ early) (before : early ≤ moment) :
    ∃ middle, Through machine early world middle := by
  rcases Nat.lt_or_ge early last.clock with passed | within
  · exact through.reaches.through come passed
  · refine ⟨last, ⟨within, fun next stepped => ?_⟩, through.reaches⟩
    exact Nat.lt_of_le_of_lt before (through.still next stepped)

/-- At the end of a moment before the one that is reported, a run has come to nothing. -/
theorem Through.result_eq_none {outcome : Except Defect Outcome} {fuel : Nat}
    (through : Through machine moment world last)
    (found : world.toOutcome? machine fuel = some (outcome, first)) (early : moment < first.clock) :
    last.result? = none := by
  by_contra some
  have after := toOutcome?_earliest found through.reaches some
  exact Nat.not_lt_of_le (Nat.le_trans (Reaches.clock_le after) through.come) early

/-- What the one run has come to by a moment, the other has come to when it has come through it. -/
def Mirrored (machine machine' : Machine) (world world' : World) : Prop :=
  ∀ moment first last result, world.Reaches machine first → first.clock ≤ moment →
    first.result? = some result → Through machine' moment world' last →
      last.result? = some result

/-- Paired tasks have come to the same. -/
theorem Paired.result {like : Likeness} {pairs : Pairing}
    (paired : World.Paired like pairs world world') (run : (0, 0) ∈ pairs) :
    world.result? = world'.result? := by
  obtain ⟨one, other, there, there', alike⟩ := paired.there run
  have going {world : World} {work : Work} (there : world.tasks[0]? = some work)
      (going : work.ended? = none) : world.result? = none :=
    result?_eq_none.mpr (outcome?_eq_none there going)
  cases alike with
  | done outcome =>
      rw [result?_eq_some.mpr (outcome?_eq_ok.mpr there),
        result?_eq_some.mpr (outcome?_eq_ok.mpr there')]
  | broken defect defect' =>
      rw [result?, result?, outcome?_eq_error.mpr there, outcome?_eq_error.mpr there']
      rfl
  | _ => rw [going there rfl, going there' rfl]

end World

namespace Comparison.Abreast

variable {two : Comparison} {pairs : Pairing} {world world' last last' : World} {moment : Nat}
  {result result' : Option Outcome}

/-- On their way to worlds up to a moment, both runs come to worlds that have come to the same: to
the last ones, or to one of these if it is over there. -/
theorem comes (halts halts' : Prop) (abreast : two.Abreast pairs world world')
    (run : (0, 0) ∈ pairs) (reaches : world.Reaches two.machine last)
    (reaches' : world'.Reaches two.machine' last') (come : last.clock ≤ moment)
    (come' : last'.clock ≤ moment)
    (ends : halts ∨ World.Rests two.machine moment last)
    (ends' : halts' ∨ World.Rests two.machine' moment last') :
    ∃ one other : World, one.Reaches two.machine last ∧ other.Reaches two.machine' last' ∧
      one.result? = other.result? ∧
      (one = last ∧ other = last' ∨ one = last ∧ halts ∨ other = last' ∧ halts') := by
  obtain ⟨count, steps⟩ := reaches.steps
  obtain ⟨count', steps'⟩ := reaches'.steps
  obtain ⟨more, one, other, keeps, later, before, after, stops⟩ :=
    abreast.together steps steps' come come' ends ends'
  exact ⟨one, other, before, after, later.paired.result (keeps run), stops⟩

theorem mirrored (abreast : two.Abreast pairs world world') (run : (0, 0) ∈ pairs) :
    World.Mirrored two.machine two.machine' world world' := by
  intro moment first last result reaches come ends through
  obtain ⟨one, other, _, after, same, stops⟩ := abreast.comes True False run
    reaches through.reaches come through.come (.inl trivial) (.inr through.toRests)
  have there : one = first := by
    rcases stops with ⟨there, _⟩ | ⟨there, _⟩ | ⟨_, never⟩
    · exact there
    · exact there
    · exact never.elim
  refine after.result ?_
  rw [← same, there, ends]

theorem mirrored' (abreast : two.Abreast pairs world world') (run : (0, 0) ∈ pairs) :
    World.Mirrored two.machine' two.machine world' world := by
  intro moment first last result reaches come ends through
  obtain ⟨one, other, before, _, same, stops⟩ := abreast.comes False True run
    through.reaches reaches through.come come (.inr through.toRests) (.inl trivial)
  have there : other = first := by
    rcases stops with ⟨_, there⟩ | ⟨_, never⟩ | ⟨there, _⟩
    · exact there
    · exact never.elim
    · exact there
  refine before.result ?_
  rw [same, there, ends]

/-- Two worlds that have come to something have come to the same. -/
theorem same_result (abreast : two.Abreast pairs world world') (run : (0, 0) ∈ pairs)
    (reaches : world.Reaches two.machine last) (reaches' : world'.Reaches two.machine' last')
    (ends : last.result? = some result) (ends' : last'.result? = some result') :
    result = result' := by
  obtain ⟨one, other, before, after, same, stops⟩ := abreast.comes True True
    run reaches reaches' (Nat.le_max_left _ _) (Nat.le_max_right _ _) (.inl trivial) (.inl trivial)
  have left (there : one = last) : result = result' := by
    have found := after.result (same.symm.trans (there ▸ ends))
    exact Option.some.inj (found.symm.trans ends')
  rcases stops with ⟨there, _⟩ | ⟨there, _⟩ | ⟨there, _⟩
  · exact left there
  · exact left there
  · have found := before.result (same.trans (there ▸ ends'))
    exact Option.some.inj (ends.symm.trans found)

end Comparison.Abreast

namespace Routine

variable {one other : Routine} {registry : Registry} {argument : Value}

/-- What is reported of a run that is mirrored in another one is reported of that one, if it comes
through the moment. -/
theorem reports_of_mirrored
    (mirrored : World.Mirrored ⟨registry, one.library⟩ ⟨registry, other.library⟩
      (World.start one argument) (World.start other argument))
    (back : World.Mirrored ⟨registry, other.library⟩ ⟨registry, one.library⟩
      (World.start other argument) (World.start one argument))
    {drain fuel : Nat} {report : Report}
    (reports : one.perform? registry argument drain fuel = some (.ok report))
    (comes : ∃ last, Through ⟨registry, other.library⟩ report.elapsed
      (World.start other argument) last) :
    ∃ fuel, ∀ more, fuel ≤ more → ∀ drain, ∃ log, other.perform? registry argument drain more =
      some (.ok ⟨report.outcome, report.elapsed, log⟩) := by
  obtain ⟨outcome, first, found, rfl⟩ := perform?_eq_ok.mp reports
  obtain ⟨reaches, ends⟩ := World.toOutcome?_reaches found
  have ends := World.result?_eq_some.mpr ends
  obtain ⟨last, through⟩ := comes
  have law : other.Ends registry argument first.clock first.clock outcome := by
    refine .of_comes fun moment within => ?_
    obtain ⟨middle, passes⟩ := through.earlier (Nat.zero_le moment) within
    refine ⟨middle, passes, fun late => ?_, fun early => ?_⟩
    · have late := ENat.natCast_le_natCast.mp late
      exact World.result?_eq_some.mp (mirrored moment first middle _ reaches late ends passes)
    · -- else the run itself would have come to it before
      have early := ENat.natCast_lt_natCast.mp early
      rw [← World.result?_eq_none]
      by_contra some
      obtain ⟨result, there⟩ := Option.ne_none_iff_exists'.mp some
      obtain ⟨before, comes⟩ := reaches.through (Nat.zero_le moment) early
      have already := back moment middle before result passes.reaches passes.come there comes
      cases already.symm.trans (comes.result_eq_none found early)
  exact law.reports first.clock (Nat.le_refl _) rfl

/-- A run that is mirrored in another one does not report a moment before that one does. -/
theorem elapsed_le_of_mirrored
    (mirrored : World.Mirrored ⟨registry, one.library⟩ ⟨registry, other.library⟩
      (World.start one argument) (World.start other argument))
    {drain fuel drain' fuel' : Nat} {report report' : Report}
    (reports : one.perform? registry argument drain fuel = some (.ok report))
    (reports' : other.perform? registry argument drain' fuel' = some (.ok report')) :
    report'.elapsed ≤ report.elapsed := by
  obtain ⟨outcome, first, found, rfl⟩ := perform?_eq_ok.mp reports
  obtain ⟨outcome', first', found', rfl⟩ := perform?_eq_ok.mp reports'
  obtain ⟨reaches, ends⟩ := World.toOutcome?_reaches found
  by_contra early
  have early := Nat.lt_of_not_le early
  obtain ⟨middle, passes⟩ :=
    (World.toOutcome?_reaches found').1.through (Nat.zero_le first.clock) early
  have already := mirrored first.clock first middle _ reaches (Nat.le_refl _)
    (World.result?_eq_some.mpr ends) passes
  cases already.symm.trans (passes.result_eq_none found' early)

/-- Two routines report the same outcome at the same time. Where only one of them is known to have a
report, the other has it too, provided that its clock passes that moment. -/
structure Matches (one other : Routine) (registry : Registry) (argument : Value) : Prop where
  same : ∀ {drain fuel drain' fuel' : Nat} {report report' : Report},
    one.perform? registry argument drain fuel = some (.ok report) →
    other.perform? registry argument drain' fuel' = some (.ok report') →
      report'.outcome = report.outcome ∧ report'.elapsed = report.elapsed
  onward : ∀ {drain fuel : Nat} {report : Report},
    one.perform? registry argument drain fuel = some (.ok report) →
    (∃ last, Through ⟨registry, other.library⟩ report.elapsed (World.start other argument) last) →
      ∃ fuel, ∀ more, fuel ≤ more → ∀ drain, ∃ log, other.perform? registry argument drain more =
        some (.ok ⟨report.outcome, report.elapsed, log⟩)
  back : ∀ {drain fuel : Nat} {report : Report},
    other.perform? registry argument drain fuel = some (.ok report) →
    (∃ last, Through ⟨registry, one.library⟩ report.elapsed (World.start one argument) last) →
      ∃ fuel, ∀ more, fuel ≤ more → ∀ drain, ∃ log, one.perform? registry argument drain more =
        some (.ok ⟨report.outcome, report.elapsed, log⟩)

end Routine

end Runbook
