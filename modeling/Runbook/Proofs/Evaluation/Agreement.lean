import Runbook.Proofs.Evaluation.Compiled
import Runbook.Proofs.Evaluation.Foreseen
import Runbook.Proofs.Evaluation.Progress

/-!
Runs agree with the evaluation from left to right.

A compiled routine has a value if and only if evaluating it from left to right has, and it is the
same: unless the routine waits for the first of two tasks somewhere, neither the order in which its
tasks go on nor the time that primitives take can be told from its value.
-/
namespace Runbook

namespace World

variable {machine : Machine} {footing : Footing machine} {depths : Depths machine.host}
  {env : TaskId → Option Value} {levels : TaskId → depths.Level} {parent : Nat → Nat}
  {world next : World}

/-- What a run has come to is what was foreseen. -/
theorem Foreseen.outcome (foreseen : world.Foreseen footing depths env levels parent)
    {outcome : Except Defect Outcome} (ends : world.outcome? = some outcome) :
    ∃ result, outcome = .ok result ∧ env 0 = result.toOption := by
  rw [outcome?] at ends
  split at ends
  · rename_i result others same
    refine ⟨result, (Option.some.inj ends).symm, foreseen.expects 0 result ?_⟩
    rw [same]
    rfl
  · rename_i defect others same
    refine absurd ?_ (foreseen.sound.unbroken 0 defect)
    rw [same]
    rfl
  · cases ends

/-- The cost of a world, and whether its clock has still to move before a task can. -/
def weight (machine : Machine) (price : depths.Level → Callee → Nat)
    (levels : TaskId → depths.Level) (world : World) : Nat :=
  2 * world.cost price levels + if machine.awake world = [] then 1 else 0

theorem weight_tick {price : depths.Level → Callee → Nat} (asleep : machine.awake world = [])
    (wakes : world.wake? = some next.clock) (same : next.tasks = world.tasks) :
    next.weight machine price levels < world.weight machine price levels := by
  rw [weight, weight, if_pos asleep, if_neg (awake_after_tick wakes same), cost, cost, same]
  exact Nat.lt_succ_self _

theorem weight_move {price : depths.Level → Callee → Nat} {others : TaskId → depths.Level}
    (cheaper : next.cost price others < world.cost price levels) :
    next.weight machine price others < world.weight machine price levels := by
  rw [weight, weight]
  split <;> split <;> omega

/-- A run to which a value is foreseen gets lighter with each step. -/
theorem goes_lighter (calm : ¬footing.races) {price : depths.Level → Callee → Nat}
    (prices : depths.Prices price)
    (foreseen : world.Foreseen footing depths env levels parent) (some : env 0 ≠ none)
    (goes : world.Goes machine next) :
    ∃ other others parent, next.Foreseen footing depths other others parent ∧ other 0 = env 0 ∧
      next.weight machine price others < world.weight machine price levels := by
  cases goes with
  | tick asleep wakes same =>
      exact ⟨env, levels, parent, foreseen.same same, rfl, weight_tick asleep wakes same⟩
  | move there moves _ same =>
      obtain ⟨other, others, parent, kept, agree, less⟩ :=
        move_foreseen calm foreseen (.inr some) there moves same
      exact ⟨other, others, parent, kept, agree 0 foreseen.begun,
        weight_move (less price prices some)⟩

/-- The value is foreseen to a run that is so heavy. -/
def Expecting (footing : Footing machine) (depths : Depths machine.host)
    (price : depths.Level → Callee → Nat) (value : Value) (weight : Nat) (world : World) : Prop :=
  ∃ env levels parent, world.Foreseen footing depths env levels parent ∧ env 0 = some value ∧
    world.weight machine price levels = weight

/-- A run to which a value is foreseen comes to it. -/
theorem Foreseen.completes (calm : ¬footing.races) {price : depths.Level → Callee → Nat}
    (prices : depths.Prices price) {value : Value}
    (foreseen : world.Foreseen footing depths env levels parent) (run : env 0 = some value) :
    ∃ fuel last, world.toOutcome? machine fuel = some (.ok (.ok value), last) := by
  have step {weight : Nat} {world : World}
      (expecting : world.Expecting footing depths price value weight)
      (going : world.outcome? = none) :
      ∃ next less, world.step? machine = some next ∧ less < weight ∧
        next.Expecting footing depths price value less := by
    obtain ⟨env, levels, parent, foreseen, run, rfl⟩ := expecting
    obtain ⟨next, stepped⟩ := Option.ne_none_iff_exists'.mp fun still =>
      foreseen.sound.ordered.outcome?_ne_none foreseen.begun still going
    obtain ⟨other, others, parent, kept, first, less⟩ := goes_lighter calm prices foreseen
      (Option.ne_none_iff_exists'.mpr ⟨value, run⟩) (step?_goes stepped)
    exact ⟨next, _, stepped, less, other, others, parent, kept, first.trans run, rfl⟩
  obtain ⟨fuel, outcome, last, found, _, _, _, _, foreseen, run, _⟩ :=
    toOutcome?_of_lighter step ⟨env, levels, parent, foreseen, run, rfl⟩
  obtain ⟨result, rfl, same⟩ := foreseen.outcome (toOutcome?_reaches found).2
  obtain rfl := toOption_eq_some.mp (same.symm.trans run)
  exact ⟨fuel, last, found⟩

end World

theorem Library.mem_of_get? {library : Library} {callee : Callee} {routine : Routine}
    (found : library.get? callee = some routine) : (callee, routine) ∈ library := by
  induction library with
  | nil => cases found
  | cons entry library ih =>
      obtain ⟨other, kept⟩ := entry
      rw [get?] at found
      split at found
      · rename_i same
        rw [same, Option.some.inj found]
        exact List.mem_cons_self
      · exact List.mem_cons_of_mem _ (ih found)

namespace Routine

def needs (routine : Routine) : List Need := stepsNeeds (routine.sequence.map Entry.step)

/-- A step of the first routine calls the second one. -/
def Calls (library : Library) (caller routine : Routine) : Prop :=
  ∃ callee, .routine callee ∈ caller.needs ∧ library.get? callee = some routine

/-- The routines that can come to be performed: the routine itself and those that these call. -/
def Reaches (routine : Routine) : Routine → Prop :=
  Relation.ReflTransGen (Calls routine.library) routine

/-- No routine that can come to be performed waits for the first of two tasks. -/
def Calm (routine : Routine) : Prop :=
  ∀ other, routine.Reaches other → .primitive Operator.waitEither.primitive ∉ other.needs

variable {registry later : Registry} {routine : Routine}

/-- A calm routine finds what the routines need that can come to be performed. -/
theorem Calm.footing (calm : routine.Calm) (built : registry.Built)
    (compiles : Compiles registry routine) (grown : registry.Grown later) :
    ∃ footing : Footing ⟨later, routine.library⟩,
      ¬footing.races ∧ routine.Supported footing.allowed := by
  obtain ⟨footing, supported⟩ := compiles.footing built grown
  let allowed (need : Need) : Prop :=
    footing.allowed need ∧ ∃ other, routine.Reaches other ∧ need ∈ other.needs
  refine ⟨⟨allowed, False, ?_, ?_, ?_⟩, id, supported.bound, ?_⟩
  · intro name allowed
    exact footing.hosts name allowed.1
  · intro name primitive allowed found performs
    obtain ⟨_, other, reaches, member⟩ := allowed
    rw [(built.grown grown).performs found performs] at member
    exact calm other reaches member
  · intro callee allowed
    obtain ⟨allowed, caller, reaches, member⟩ := allowed
    obtain ⟨called, found, supported⟩ := footing.routines callee allowed
    refine ⟨called, found, supported.bound, fun need inside => ?_⟩
    exact ⟨supported.needs need inside, called, reaches.tail ⟨callee, member, found⟩, inside⟩
  · intro need member
    exact ⟨supported.needs need member, routine, .refl, member⟩

/-- A run of the routine has the value. -/
def Gives (routine : Routine) (registry : Registry) (argument : Value) (drain : Nat)
    (value : Value) : Prop :=
  ∃ fuel report, routine.perform? registry argument drain fuel = some (.ok report) ∧
    report.outcome = .ok value

theorem gives_iff_toOutcome? {argument value : Value} {drain : Nat} :
    routine.Gives registry argument drain value ↔ ∃ fuel last,
      (World.start routine argument).toOutcome? ⟨registry, routine.library⟩ fuel =
        some (.ok (.ok value), last) := by
  constructor
  · intro gives
    obtain ⟨fuel, report, performed, has⟩ := gives
    obtain ⟨outcome, last, found, rfl⟩ := perform?_eq_ok.mp performed
    obtain rfl : outcome = .ok value := has
    exact ⟨fuel, last, found⟩
  · intro found
    obtain ⟨fuel, last, found⟩ := found
    exact ⟨fuel, _, perform?_eq_ok.mpr ⟨_, last, found, rfl⟩, rfl⟩

/-- The value that a run has is the one that evaluating the routine gives. -/
theorem evaluates {footing : Footing ⟨later, routine.library⟩} (still : ¬footing.races)
    (supported : routine.Supported footing.allowed) {argument value : Value} {fuel : Nat}
    {last : World}
    (found : (World.start routine argument).toOutcome? ⟨later, routine.library⟩ fuel =
      some (.ok (.ok value), last)) :
    ∃ depth, (Machine.host ⟨later, routine.library⟩).run depth routine argument = .ok value := by
  obtain ⟨reaches, ends⟩ := World.toOutcome?_reaches found
  obtain ⟨env, levels, parent, foreseen, first⟩ := @World.reaches_foreseen _ footing
    (Depths.unlimited _) _ still nofun routine supported argument () reaches
  obtain ⟨result, same, final⟩ := foreseen.outcome ends
  cases same
  rw [← Host.evaluateRoutine_callAny]
  exact toOption_eq_some.mp (first.symm.trans final)

/-- A run comes to the value that evaluating the routine gives. -/
theorem completes {footing : Footing ⟨later, routine.library⟩} (still : ¬footing.races)
    (supported : routine.Supported footing.allowed) {argument value : Value} {depth : Nat}
    (gives : (Machine.host ⟨later, routine.library⟩).run depth routine argument = .ok value) :
    ∃ fuel last, (World.start routine argument).toOutcome? ⟨later, routine.library⟩ fuel =
      some (.ok (.ok value), last) := by
  obtain ⟨env, levels, parent, foreseen, first⟩ := @World.start_foreseen _ footing
    (Depths.limited _) routine supported argument (depth + 1 : Nat)
  refine foreseen.completes still (Depths.limited_prices _) (first.trans ?_)
  exact toOption_eq_some.mpr gives

/-- A run of a calm routine has a value if and only if evaluating it gives the value with calls
nested up to some depth. Time does not matter: with primitives of the same outcomes the routine has
the same values. -/
theorem perform_agrees (built : registry.Built) (compiles : Compiles registry routine)
    (grown : registry.Grown later) (calm : routine.Calm) (argument value : Value) (drain : Nat) :
    (routine.Gives later argument drain value ↔
      ∃ depth, (Machine.host ⟨later, routine.library⟩).run depth routine argument = .ok value) ∧
    ∀ other : Registry, registry.Grown other → other.outcomes = later.outcomes →
      (routine.Gives other argument drain value ↔ routine.Gives later argument drain value) := by
  have agrees {later : Registry} (grown : registry.Grown later) :
      routine.Gives later argument drain value ↔
        ∃ depth, (Machine.host ⟨later, routine.library⟩).run depth routine argument =
          .ok value := by
    obtain ⟨footing, still, supported⟩ := calm.footing built compiles grown
    rw [gives_iff_toOutcome?]
    constructor
    · intro performed
      obtain ⟨fuel, last, found⟩ := performed
      exact evaluates still supported found
    · intro evaluated
      obtain ⟨depth, gives⟩ := evaluated
      exact completes still supported gives
  refine ⟨agrees grown, fun other grows same => ?_⟩
  have host : Machine.host ⟨other, routine.library⟩ = Machine.host ⟨later, routine.library⟩ := by
    rw [Machine.host, Machine.host, same]
  rw [agrees grows, agrees grown, host]

/-- A routine is calm if it and those of its library are. -/
theorem Calm.of_library (own : .primitive Operator.waitEither.primitive ∉ routine.needs)
    (others : ∀ entry ∈ routine.library,
      .primitive Operator.waitEither.primitive ∉ entry.2.needs) : routine.Calm := by
  intro other reaches
  cases reaches with
  | refl => exact own
  | tail _ calls =>
      obtain ⟨callee, _, found⟩ := calls
      exact others (callee, other) (Library.mem_of_get? found)

theorem perform_agrees_telling : ∃ routine,
    Document.telling.compile ⟨"", ""⟩ Registry.standard.names = .ok routine ∧
    routine.Gives (Registry.standard.register "task" fun value => .later 20 (.ok value))
      (.text "tea") 0 (.text "teatea") := by
  refine ⟨_, rfl, ?_⟩
  refine (perform_agrees (.inr .refl) (@Compiles.document _ _ .telling ⟨"", ""⟩ rfl)
    (.register _ _ .refl) (.of_library ?_ ?_) (.text "tea") (.text "teatea") 0).1.mpr ⟨1, ?_⟩
  · decide
  · decide
  · rfl

end Routine

/-- A document that ends with a group of names that no step reads. -/
def Document.grouping : Document where
  procedures := [⟨0, "main", [], none, [.assignment 0 ["a", "b"] (.amount 0 (.number 5))]⟩]

/-- A binding at the end is not split where its whole value is taken as the routine's. If only
reading one of its names counted as asking for it, it would be. -/
theorem Routine.gives_grouping : ∃ routine,
    Document.grouping.compile ⟨"", ""⟩ Registry.standard.names = .ok routine ∧ routine.Calm ∧
    routine.Gives Registry.standard .unit 0 (.quantity (.number 5)) ∧
    ∀ depth, Host.run { Machine.host ⟨Registry.standard, routine.library⟩ with wholes := false }
      depth routine .unit = .error (.failed (.arity 2 1)) := by
  refine ⟨_, rfl, ?_, ⟨10, _, rfl, rfl⟩, fun depth => rfl⟩
  exact .of_library (by decide) (by decide)

end Runbook
