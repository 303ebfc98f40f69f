import Runbook.Proofs.Evaluation.Joining

/-!
What operators do with their operands.

Each operand is started at once, and none of them is ever stopped: up to each moment the run of an
operator tells what its operands tell when they are performed alone. `wait_either` has the outcome of
the operand that ends first; the others have what they make of both values, or the first failure.
-/
namespace Runbook

open World (Through)

/-- Nothing can move in the last world up to a moment. -/
theorem World.Rests.asleep {machine : Machine} {world : World} {moment : Nat}
    (rests : World.Rests machine moment world) (orderly : world.Orderly machine) (task : TaskId) :
    machine.ready world task = false := by
  rw [← Bool.not_eq_true, ← World.mem_agenda]
  intro listed
  obtain ⟨next, stepped, early⟩ :=
    orderly.goes_by rests.come (.inl (List.ne_nil_of_mem listed))
  exact Nat.not_lt_of_le early (rests.still next stepped)

/-- Paired tasks have the same outcome, or have both broken down. -/
theorem World.Paired.has_iff {like : Likeness} {pairs : Pairing} {world world' : World}
    (paired : World.Paired like pairs world world') {task task' : TaskId}
    (inside : (task, task') ∈ pairs) :
    (∀ outcome, world.Has task outcome ↔ world'.Has task' outcome) ∧
      (world.Breaks task ↔ world'.Breaks task') := by
  obtain ⟨one, other, there, there', alike⟩ := paired.there inside
  simp only [World.Has, World.Breaks, there, there', Option.some.injEq]
  cases alike with
  | done outcome => exact ⟨fun _ => Iff.rfl, Iff.rfl⟩
  | broken defect defect' =>
      exact ⟨fun _ => iff_of_false nofun nofun, iff_of_true ⟨defect, rfl⟩ ⟨defect', rfl⟩⟩
  | _ =>
      refine ⟨fun _ => iff_of_false nofun nofun, iff_of_false ?_ ?_⟩
      · rintro ⟨_, ⟨⟩⟩
      · rintro ⟨_, ⟨⟩⟩

namespace Operands

variable {operands : Operands} {moment : Nat} {last₁ last₂ : World}

/-- At the end of a moment, the run of an operator has told what its operands have told alone. It has
an outcome that it can have for theirs, or waits for more. -/
theorem through (through₁ : Through operands.machine moment operands.joint.start₁ last₁)
    (whole₁ : ∀ defect, last₁.outcome? ≠ some (.error defect))
    (through₂ : Through operands.machine moment operands.joint.start₂ last₂)
    (whole₂ : ∀ defect, last₂.outcome? ≠ some (.error defect)) :
    ∃ last left right, Through operands.machine moment operands.joint.start last ∧
      (heard last.log).Perm (heard last₁.log ++ heard last₂.log) ∧
      (∀ outcome, last.Has left outcome ↔ last₁.outcome? = some (.ok outcome)) ∧
      (∀ outcome, last.Has right outcome ↔ last₂.outcome? = some (.ok outcome)) ∧
      ((∃ outcome, last.outcome? = some (.ok outcome) ∧
          operands.operator.Gives last left right outcome) ∨
        last.outcome? = none ∧ operands.operator.Waits last left right) := by
  obtain ⟨next, one, two, pairs₁, pairs₂, count, stepped, holds, after₁, after₂, left, right, left',
    right', opened⟩ := opens through₁ whole₁ through₂ whole₂
  obtain ⟨count₁, steps₁⟩ := after₁.reaches.steps
  obtain ⟨count₂, steps₂⟩ := after₂.reaches.steps
  have come : next.clock ≤ moment := by
    rw [opened.clock]
    exact Nat.zero_le moment
  obtain ⟨more₁, more₂, fewer, last, keeps₁, keeps₂, later, reaches, rests⟩ :=
    holds.through come steps₁ steps₂ after₁.toRests after₂.toRests
  -- each operand has what its own run has
  obtain ⟨frame₁, none₁, run₁⟩ := opened.run₁
  obtain ⟨frame₂, none₂, run₂⟩ := opened.run₂
  have stands₁ : (Awaiting.alone left').Stands one := ⟨_, run₁, .body none₁ rfl⟩
  have stands₂ : (Awaiting.alone right').Stands two := ⟨_, run₂, .body none₂ rfl⟩
  obtain ⟨has₁, sound₁⟩ := Awaiting.alone_still
    (stands₁.reaches (Awaiting.alone_lawful _ _) holds.first.orderly₂ after₁.reaches)
    (after₁.asleep later.first.orderly₂ 0) whole₁
  obtain ⟨has₂, sound₂⟩ := Awaiting.alone_still
    (stands₂.reaches (Awaiting.alone_lawful _ _) holds.second.orderly₂ after₂.reaches)
    (after₂.asleep later.second.orderly₂ 0) whole₂
  obtain ⟨same₁, breaks₁⟩ := later.first.paired.has_iff (keeps₁ opened.paired₁)
  obtain ⟨same₂, breaks₂⟩ := later.second.paired.has_iff (keeps₂ opened.paired₂)
  -- and the run of the operator makes of it what it can
  obtain ⟨frame, none, run⟩ := opened.run
  have stands : (Awaiting.operands operands.operator left right).Stands next :=
    ⟨_, run, .body none (operands.operator.await_pends next left right)⟩
  have stands := stands.reaches (Awaiting.operands_lawful operands.machine _ _ _)
    holds.first.orderly₁ reaches
  refine ⟨last, left, right, ⟨rests, .head stepped reaches⟩, later.heard,
    fun outcome => (same₁ outcome).trans (has₁ outcome),
    fun outcome => (same₂ outcome).trans (has₂ outcome), ?_⟩
  rcases stands.still (rests.asleep later.first.orderly₁ 0) with
    ends | ⟨none, work, pends, stuck⟩ | ⟨_, broken⟩
  · exact .inl ends
  · exact .inr ⟨none, Operator.Pends.still pends stuck⟩
  · have broken : last.Breaks left ∨ last.Breaks right := broken
    exact (broken.elim (sound₁ ∘ breaks₁.mp) (sound₂ ∘ breaks₂.mp)).elim

end Operands

/-- A run whose outcome comes at that time, and not before, has it from then on. -/
theorem Routine.Ends.of_first {routine : Routine} {registry : Registry} {argument : Value}
    {horizon : Nat} {time : ℕ∞} {outcome : Outcome}
    (found : ∀ moment : Nat, moment ≤ horizon → ∃ last,
      Through ⟨registry, routine.library⟩ moment (World.start routine argument) last ∧
        (time = moment → last.outcome? = some (.ok outcome)) ∧
        (moment < time → last.outcome? = none)) :
    routine.Ends registry argument horizon time outcome := by
  refine .of_comes fun moment within => ?_
  obtain ⟨last, through, _, none⟩ := found moment within
  refine ⟨last, through, fun come => ?_, none⟩
  obtain ⟨first, same, early⟩ := ENat.le_natCast_iff.mp come
  obtain ⟨before, passes, ends, _⟩ := found first (Nat.le_trans early within)
  have early := Nat.le_trans passes.come early
  exact (through.later passes.reaches early).reaches.outcome (ends same)

/-- By the moment, the task has that outcome if its time has come, and none otherwise. -/
def World.By (world : World) (moment : Nat) (task : TaskId) (time : ℕ∞) (outcome : Outcome) :
    Prop :=
  ∀ found, world.Has task found ↔ time ≤ moment ∧ found = outcome

/-- A run that has an outcome from that time on has it by each moment. -/
theorem Routine.Ends.by {routine : Routine} {registry : Registry} {argument : Value}
    {horizon moment : Nat} {time : ℕ∞} {outcome : Outcome}
    (ends : routine.Ends registry argument horizon time outcome) (within : moment ≤ horizon) :
    ∃ last, Through ⟨registry, routine.library⟩ moment (World.start routine argument) last ∧
      (∀ defect, last.outcome? ≠ some (.error defect)) ∧
      ∀ found, last.outcome? = some (.ok found) ↔ time ≤ moment ∧ found = outcome := by
  obtain ⟨last, through, late, early⟩ := ends.comes moment within
  refine ⟨last, through, ?_⟩
  rcases le_or_gt time moment with come | before
  · rw [late come]
    refine ⟨nofun, fun found => ?_⟩
    rw [Option.some.injEq, Except.ok.injEq, eq_comm]
    exact (and_iff_right come).symm
  · rw [early before]
    exact ⟨nofun, fun found => iff_of_false nofun fun come => absurd come.1 (not_le_of_gt before)⟩

/-- The merge of two values starts with the first one. -/
theorem Value.mergeAll_pair (value value' : Value) :
    Value.mergeAll [value, value'] = value.merge value' := by
  have first : Value.merge .unit value = .ok value := by
    cases value <;> rfl
  rw [mergeAll, List.foldlM_cons, first]
  exact bind_pure (value.merge value')

namespace Operator

variable {operator : Operator} {world : World} {left right : TaskId} {outcome : Outcome}

theorem gives_either :
    Gives .waitEither world left right outcome ↔ world.Has left outcome ∨ world.Has right outcome := by
  constructor
  · rintro ⟨made, makes, rfl⟩
    cases made with
    | ok value =>
        obtain ⟨first, rfl, has⟩ := makes
        exact has
    | error failure => exact makes
  · intro has
    cases outcome with
    | ok value => exact ⟨.ok (.parallel [value]), ⟨value, rfl, has⟩, rfl⟩
    | error failure => exact ⟨.error failure, has, rfl⟩

/-- What an operator gives that waits for both operands. -/
theorem gives_both (several : operator ≠ .waitEither)
    (gives : operator.Gives world left right outcome) :
    (∃ one two, world.Has left (.ok one) ∧ world.Has right (.ok two) ∧
        outcome = operator.join (.parallel [one, two])) ∨
      ∃ failure, outcome = .error failure ∧
        (world.Has left (.error failure) ∨ world.Has right (.error failure)) := by
  obtain ⟨made, makes, rfl⟩ := gives
  cases made with
  | error failure => exact .inr ⟨failure, rfl, makes⟩
  | ok value =>
      cases operator with
      | waitEither => exact absurd rfl several
      | _ =>
          obtain ⟨one, two, rfl, first, second⟩ := makes
          exact .inl ⟨one, two, first, second, rfl⟩

/-- When an operator that waits for both operands waits no more. -/
theorem not_waits_both (several : operator ≠ .waitEither)
    (has : (∃ one two, world.Has left (.ok one) ∧ world.Has right (.ok two)) ∨
      ∃ failure, world.Has left (.error failure) ∨ world.Has right (.error failure)) :
    ¬operator.Waits world left right := by
  intro waits
  have waits : (∀ failure, ¬world.Has left (.error failure) ∧
      ¬world.Has right (.error failure)) ∧
      ∀ one two, world.Has left (.ok one) → ¬world.Has right (.ok two) := by
    cases operator with
    | waitEither => exact absurd rfl several
    | _ => exact waits
  rcases has with ⟨one, two, first, second⟩ | ⟨failure, failed | failed⟩
  · exact waits.2 one two first second
  · exact (waits.1 failure).1 failed
  · exact (waits.1 failure).2 failed

/-- With operands that come at such times, an operator comes to that outcome at that time. -/
def Settles (operator : Operator) (time₁ time₂ : ℕ∞) (outcome₁ outcome₂ : Outcome) (time : ℕ∞)
    (outcome : Outcome) : Prop :=
  ∀ (world : World) (moment : Nat) (left right : TaskId), world.By moment left time₁ outcome₁ →
    world.By moment right time₂ outcome₂ →
      (time = moment → ¬operator.Waits world left right) ∧
      ∀ found, operator.Gives world left right found →
        time ≤ moment ∧ (time = moment → found = outcome)

section Settles

variable {time₁ time₂ : ℕ∞} {outcome₁ outcome₂ : Outcome}

theorem settles_either (apart : time₁ ≠ time₂) :
    Settles .waitEither time₁ time₂ outcome₁ outcome₂ (min time₁ time₂)
      (if time₁ < time₂ then outcome₁ else outcome₂) := by
  intro world moment left right one two
  refine ⟨fun now waits => ?_, fun found gives => ?_⟩
  · rcases min_eq_iff.mp now with ⟨same, _⟩ | ⟨same, _⟩
    · exact (waits outcome₁).1 ((one outcome₁).mpr ⟨le_of_eq same, rfl⟩)
    · exact (waits outcome₂).2 ((two outcome₂).mpr ⟨le_of_eq same, rfl⟩)
  · rcases gives_either.mp gives with has | has
    · obtain ⟨come, rfl⟩ := (one found).mp has
      refine ⟨min_le_of_left_le come, fun now => ?_⟩
      rw [if_pos]
      exact lt_of_le_of_ne (le_trans come (le_of_eq_of_le now.symm (min_le_right _ _))) apart
    · obtain ⟨come, rfl⟩ := (two found).mp has
      refine ⟨min_le_of_right_le come, fun now => ?_⟩
      rw [if_neg]
      exact not_lt_of_ge (le_trans come (le_of_eq_of_le now.symm (min_le_left _ _)))

theorem settles_both (several : operator ≠ .waitEither) {value₁ value₂ : Value} :
    operator.Settles time₁ time₂ (.ok value₁) (.ok value₂) (max time₁ time₂)
      (operator.join (.parallel [value₁, value₂])) := by
  intro world moment left right one two
  refine ⟨fun now => not_waits_both several (.inl ⟨value₁, value₂, ?_, ?_⟩), fun found gives => ?_⟩
  · exact (one _).mpr ⟨le_of_le_of_eq (le_max_left _ _) now, rfl⟩
  · exact (two _).mpr ⟨le_of_le_of_eq (le_max_right _ _) now, rfl⟩
  · rcases gives_both several gives with ⟨a, b, first, second, rfl⟩ | ⟨failure, _, failed | failed⟩
    · obtain ⟨come₁, same₁⟩ := (one _).mp first
      obtain ⟨come₂, same₂⟩ := (two _).mp second
      cases same₁
      cases same₂
      exact ⟨max_le come₁ come₂, fun _ => rfl⟩
    · cases ((one _).mp failed).2
    · cases ((two _).mp failed).2

/-- The first failure is the outcome, and it is not waited for the other operand. -/
theorem settles_left (several : operator ≠ .waitEither) {failure : Failure}
    (first : ∀ other, outcome₂ = .error other → time₁ < time₂) :
    operator.Settles time₁ time₂ (.error failure) outcome₂ time₁ (.error failure) := by
  intro world moment left right one two
  refine ⟨fun now => not_waits_both several (.inr ⟨failure, .inl ?_⟩), fun found gives => ?_⟩
  · exact (one _).mpr ⟨le_of_eq now, rfl⟩
  · rcases gives_both several gives with ⟨a, b, here, _, _⟩ | ⟨other, rfl, failed | failed⟩
    · cases ((one _).mp here).2
    · obtain ⟨come, same⟩ := (one _).mp failed
      exact ⟨come, fun _ => same⟩
    · obtain ⟨come, same⟩ := (two _).mp failed
      have before := first other same.symm
      exact ⟨le_trans (le_of_lt before) come, fun now => absurd come (not_le_of_gt (now ▸ before))⟩

theorem settles_right (several : operator ≠ .waitEither) {failure : Failure}
    (first : ∀ other, outcome₁ = .error other → time₂ < time₁) :
    operator.Settles time₁ time₂ outcome₁ (.error failure) time₂ (.error failure) := by
  intro world moment left right one two
  refine ⟨fun now => not_waits_both several (.inr ⟨failure, .inr ?_⟩), fun found gives => ?_⟩
  · exact (two _).mpr ⟨le_of_eq now, rfl⟩
  · rcases gives_both several gives with ⟨a, b, _, there, _⟩ | ⟨other, rfl, failed | failed⟩
    · cases ((two _).mp there).2
    · obtain ⟨come, same⟩ := (one _).mp failed
      have before := first other same.symm
      exact ⟨le_trans (le_of_lt before) come, fun now => absurd come (not_le_of_gt (now ▸ before))⟩
    · obtain ⟨come, same⟩ := (two _).mp failed
      exact ⟨come, fun _ => same⟩

end Settles

end Operator

/-- The run of an operator comes to the outcome to which its operands settle it. -/
theorem Operands.ends {operands : Operands} {horizon : Nat} {time₁ time₂ time : ℕ∞}
    {outcome₁ outcome₂ outcome : Outcome}
    (settles : operands.operator.Settles time₁ time₂ outcome₁ outcome₂ time outcome)
    (one : (operands.routine (.bind operands.names operands.left)).Ends operands.registry .unit
      horizon time₁ outcome₁)
    (two : (operands.routine (.bind operands.names' operands.right)).Ends operands.registry .unit
      horizon time₂ outcome₂) :
    (operands.routine (operands.operator.step operands.left operands.right)).Ends
      operands.registry .unit horizon time outcome := by
  refine .of_first fun moment within => ?_
  obtain ⟨last₁, through₁, whole₁, ends₁⟩ := one.by within
  obtain ⟨last₂, through₂, whole₂, ends₂⟩ := two.by within
  obtain ⟨last, left, right, through, _, has₁, has₂, comes⟩ :=
    Operands.through through₁ whole₁ through₂ whole₂
  obtain ⟨goes_on, gives⟩ := settles last moment left right
    (fun found => (has₁ found).trans (ends₁ found)) (fun found => (has₂ found).trans (ends₂ found))
  refine ⟨last, through, fun now => ?_, fun early => ?_⟩
  · rcases comes with ⟨found, ends, given⟩ | ⟨_, waits⟩
    · rw [ends, (gives found given).2 now]
    · exact absurd waits (goes_on now)
  · rcases comes with ⟨found, _, given⟩ | ⟨none, _⟩
    · exact absurd (gives found given).1 (not_le_of_gt early)
    · exact none

namespace Routine

/-- The law of the operators. Two steps that read no name bound outside of them come to their
outcomes at different times, each in a run of its own. Then `wait_either` of them has, at the first of
these times, the outcome that comes then. If both have values, `wait_both` has both at the later time,
and `combine` has their merge. If one fails, these fail as the first one does that fails, and then.

In a run of its own a step is bound to names, so that it has a task of its own, as operands have. A
time is `⊤` if there is no outcome up to the horizon, which is any moment that the clock comes to in
both runs. -/
theorem operators_end (registry : Registry)
    (own : ∀ operator : Operator,
      registry.lookup operator.primitive = some operator.asPrimitive)
    (library : Library) (procedure : Procedure) (setting : Setting) (left right : Step)
    (bound : left.Bound []) (bound' : right.Bound []) (names names' : List Name) (horizon : Nat)
    (time time' : ℕ∞) (outcome outcome' : Outcome)
    (ends : (performing procedure setting (.bind names left) library).Ends registry .unit horizon
      time outcome)
    (ends' : (performing procedure setting (.bind names' right) library).Ends registry .unit horizon
      time' outcome')
    (apart : time ≠ time') :
    (performing procedure setting (Operator.step .waitEither left right) library).Ends registry .unit
      horizon (min time time') (if time < time' then outcome else outcome') ∧
    (∀ value value', outcome = .ok value → outcome' = .ok value' →
      (performing procedure setting (Operator.step .waitBoth left right) library).Ends registry .unit
        horizon (max time time') (.ok (.parallel [value, value'])) ∧
      (performing procedure setting (Operator.step .combine left right) library).Ends registry .unit
        horizon (max time time') (value.merge value')) ∧
    (∀ failure, outcome = .error failure →
      (∀ other, outcome' = .error other → time < time') →
      (performing procedure setting (Operator.step .waitBoth left right) library).Ends registry .unit
        horizon time (.error failure) ∧
      (performing procedure setting (Operator.step .combine left right) library).Ends registry .unit
        horizon time (.error failure)) ∧
    ∀ failure, outcome' = .error failure →
      (∀ other, outcome = .error other → time' < time) →
      (performing procedure setting (Operator.step .waitBoth left right) library).Ends registry .unit
        horizon time' (.error failure) ∧
      (performing procedure setting (Operator.step .combine left right) library).Ends registry .unit
        horizon time' (.error failure) := by
  let operands (operator : Operator) : Operands := ⟨registry, library, procedure, setting, operator,
    left, right, names, names', own operator, bound, bound'⟩
  have comes (operator : Operator) {last : ℕ∞} {made : Outcome}
      (settles : operator.Settles time time' outcome outcome' last made) :
      (performing procedure setting (operator.step left right) library).Ends registry .unit horizon
        last made := @Operands.ends (operands operator) _ _ _ _ _ _ _ settles ends ends'
  have waits : Operator.waitBoth ≠ .waitEither := nofun
  have combines : Operator.combine ≠ .waitEither := nofun
  refine ⟨comes .waitEither (Operator.settles_either apart), ?_, ?_, ?_⟩
  · rintro value value' rfl rfl
    have joined := comes .combine (Operator.settles_both combines)
    rw [Operator.join, Value.mergeAll_pair] at joined
    exact ⟨comes .waitBoth (Operator.settles_both waits), joined⟩
  · rintro failure rfl first
    exact ⟨comes .waitBoth (Operator.settles_left waits first),
      comes .combine (Operator.settles_left combines first)⟩
  · rintro failure rfl first
    exact ⟨comes .waitBoth (Operator.settles_right waits first),
      comes .combine (Operator.settles_right combines first)⟩

end Routine

/-- A step that has its value at once. -/
def Step.tea : Step := .literal (.text "tea")

/-- A step that sleeps. -/
def Step.nap : Step := .invoke "sleep" (.literal (.quantity (.number 5)))

/-- A routine that performs a step, and calls no other. -/
def Routine.lone (step : Step) : Routine := .performing ⟨0, "main", [], none, []⟩ .inherit step []

theorem Registry.standard_own (operator : Operator) :
    Registry.standard.lookup operator.primitive = some operator.asPrimitive := by
  cases operator <;> rfl

theorem Routine.operators_end_napping :
    (lone (.bind [⟨0, "a"⟩] .tea)).Ends .standard .unit 5 0 (.ok (.text "tea")) ∧
      (lone (.bind [⟨0, "a"⟩] .nap)).Ends .standard .unit 5 5 (.ok .unit) ∧
      (lone (Operator.step .waitEither .tea .nap)).Ends .standard .unit 5 0 (.ok (.text "tea")) ∧
      (lone (Operator.step .combine .tea .nap)).Ends .standard .unit 5 5 (.ok (.text "tea")) := by
  have done : ∃ last, (World.start (lone (.bind [⟨0, "a"⟩] .tea)) .unit).toMoment ⟨.standard, []⟩
      5 9 = last ∧ last.clock = 0 ∧ (last.step? ⟨.standard, []⟩).map World.clock = none ∧
      last.outcome? = some (.ok (.ok (.text "tea"))) := ⟨_, rfl, rfl, rfl, rfl⟩
  have asleep : ∃ last, (World.start (lone (.bind [⟨0, "a"⟩] .nap)) .unit).toMoment ⟨.standard, []⟩
      4 9 = last ∧ last.clock = 0 ∧ (last.step? ⟨.standard, []⟩).map World.clock = some 5 ∧
      last.outcome? = none := ⟨_, rfl, rfl, rfl, rfl⟩
  have awake : ∃ last, (World.start (lone (.bind [⟨0, "a"⟩] .nap)) .unit).toMoment ⟨.standard, []⟩
      5 20 = last ∧ last.clock = 5 ∧ (last.step? ⟨.standard, []⟩).map World.clock = none ∧
      last.outcome? = some (.ok (.ok .unit)) := ⟨_, rfl, rfl, rfl, rfl⟩
  have first : (lone (.bind [⟨0, "a"⟩] .tea)).Ends .standard .unit 5 0 (.ok (.text "tea")) := by
    obtain ⟨last, same, now, next, ends⟩ := done
    refine .of_comes fun moment within => ⟨last,
      .of_toMoment same now next (Nat.zero_le moment) nofun, fun _ => ends, fun early => ?_⟩
    exact absurd early not_lt_zero
  have second : (lone (.bind [⟨0, "a"⟩] .nap)).Ends .standard .unit 5 5 (.ok .unit) := by
    refine .of_comes fun moment within => ?_
    by_cases early : moment < 5
    · obtain ⟨last, same, now, next, none⟩ := asleep
      refine ⟨last, .of_toMoment same now next (Nat.zero_le moment) ?_, fun come => ?_, fun _ => none⟩
      · rintro _ ⟨⟩
        exact early
      · exact absurd (ENat.natCast_le_natCast.mp come) (Nat.not_le_of_lt early)
    · obtain ⟨last, same, now, next, ends⟩ := awake
      refine ⟨last, .of_toMoment same now next (Nat.le_of_not_lt early) nofun, fun _ => ends, ?_⟩
      exact fun before => absurd (ENat.natCast_lt_natCast.mp before) early
  have law := operators_end .standard Registry.standard_own [] ⟨0, "main", [], none, []⟩ .inherit
    .tea .nap trivial trivial [⟨0, "a"⟩] [⟨0, "a"⟩] 5 0 5 _ _ first second nofun
  exact ⟨first, second, law.1, (law.2.1 _ _ rfl rfl).2⟩

end Runbook
