import Runbook.Proofs.Evaluation.Combining
import Runbook.Proofs.Evaluation.Failing

/-!
What is started goes on.

No task is given up, whatever becomes of who waits for it. So the run of an operator tells all that
its operands tell in runs of their own, and a run that begins with a binding tells all that the
bound step does, however soon it fails itself.
-/
namespace Runbook

open World (Through)

/-- The run of an operator tells what its operands tell in runs of their own. -/
theorem Operands.tells {operands : Operands} {moment : Nat} {events₁ events₂ : List Logged}
    (one : (operands.routine (.bind operands.names operands.left)).Tells operands.registry .unit
      moment events₁)
    (two : (operands.routine (.bind operands.names' operands.right)).Tells operands.registry .unit
      moment events₂) :
    ∃ events, (operands.routine (operands.operator.step operands.left operands.right)).Tells
      operands.registry .unit moment events ∧ events.Perm (events₁ ++ events₂) := by
  obtain ⟨last₁, through₁, whole₁, rfl⟩ := one.comes
  obtain ⟨last₂, through₂, whole₂, rfl⟩ := two.comes
  obtain ⟨last, left, right, through, heard, _, _, comes⟩ :=
    Operands.through through₁ whole₁ through₂ whole₂
  refine ⟨_, .of_comes through fun defect broken => ?_, heard⟩
  rcases comes with ⟨outcome, ends, _⟩ | ⟨none, _⟩
  · cases ends.symm.trans broken
  · cases none.symm.trans broken

/-- The second run only waits for its paired tasks, and all that it has told the first has too. -/
structure World.Held (pairs : Pairing) (world world' : World) : Prop where
  idle : ∃ count, world'.Idle pairs.rights count
  told : (heard world'.log).Sublist (heard world.log)

namespace World.Held

variable {machine : Machine} {pairs more : Pairing} {world world' next next' : World}

theorem left (held : Held pairs world world') (stepped : world.step? machine = some next) :
    Held pairs next world' := by
  obtain ⟨events, log, _⟩ := step?_log stepped
  refine ⟨held.idle, ?_⟩
  rw [log, heard_append]
  exact held.told.trans (List.sublist_append_left _ _)

theorem right (held : Held pairs world world') (orderly : world'.Orderly machine)
    (aside : World.Aside machine pairs.rights world' next') : Held pairs world next' := by
  obtain ⟨count, idle⟩ := held.idle
  obtain ⟨heard, later⟩ := idle.aside orderly aside
  refine ⟨?_, ?_⟩
  · rcases later with ⟨fewer, _, later⟩ | ⟨_, later⟩
    · exact ⟨fewer, later⟩
    · exact ⟨count, later⟩
  · rw [heard]
    exact held.told

theorem both {two : Comparison} (held : Held pairs world world') (whole : two.like.whole)
    (keeps : pairs ⊆ more) (both : two.Both pairs more world world' next next') :
    Held more next next' := by
  obtain ⟨count, idle⟩ := held.idle
  obtain ⟨events, tells, tells'⟩ := both.heard
  have later := both.idleRight whole idle (List.Subset.refl _)
  refine ⟨⟨count, later.congr ?_ (List.subset_append_right _ _)⟩, ?_⟩
  · exact List.append_subset.mpr ⟨Pairing.rights_subset keeps, List.Subset.refl _⟩
  · rw [tells, tells']
    exact held.told.append (List.Sublist.refl events)

end World.Held

/-- Of two runs of one machine, the first is to hold the second. -/
def Comparison.holding (machine : Machine) (start start' : World) (orderly : start.Orderly machine)
    (orderly' : start'.Orderly machine) : Comparison :=
  { Comparison.same machine start start' orderly orderly' with
    keeps := World.Held
    permits := fun _ _ _ _ _ _ _ _ _ _ _ _ _ _ _ => trivial
    keepsLeft := fun _ _ aside held => held.left aside.stepped
    keepsRight := fun reaches _ aside held => held.right (orderly'.reaches reaches) aside
    keepsBoth := fun _ _ _ inside clocks move move' _ _ alike held =>
      @World.Held.both _ _ _ _ _ _ (Comparison.same machine start start' orderly orderly') held trivial
        alike.grown.keeps (.move inside clocks move move' alike) }

namespace Routine

/-- The argument has a part for each parameter of the routine, so that its body is performed. -/
def Accepts (routine : Routine) (argument : Value) : Prop :=
  routine.parameters = [] ∨ ∃ parts, argument.split routine.parameters.length = .ok parts

variable {routine : Routine} {argument : Value}

/-- A run with such an argument begins with the body, whose frame has only parameters. -/
theorem Accepts.start (accepts : routine.Accepts argument) :
    ∃ frame : Frame, (World.start routine argument).tasks =
        [.body frame (.done (.ok .unit)) 0 routine.sequence] ∧
      ∀ binding ∈ frame.bindings, binding.unobserved? = none := by
  rw [World.start, enter]
  by_cases empty : routine.parameters.isEmpty = true
  · rw [if_pos empty]
    exact ⟨.empty, rfl, List.forall_mem_nil _⟩
  · rw [if_neg empty]
    split
    · refine ⟨_, rfl, fun binding inside => ?_⟩
      obtain ⟨_, _, rfl⟩ := List.mem_map.mp inside
      rfl
    · rename_i failure fails
      rcases accepts with none | ⟨parts, splits⟩
      · rw [none] at empty
        exact absurd rfl empty
      · cases splits.symm.trans fails

/-- A run that begins with a binding tells all that the bound step tells in a run of its own. -/
theorem holds {registry : Registry} {procedure : Procedure} {setting : Setting}
    {names names' : List Name} {step : Step} {entries : List Entry} {moment : Nat}
    {events events' : List Logged} (accepts : routine.Accepts argument)
    (first : routine.sequence = ⟨setting, .bind names step⟩ :: entries) (bound : step.Bound [])
    (tells : routine.Tells registry argument moment events)
    (tells' : (performing procedure setting (.bind names' step) routine.library).Tells registry .unit
      moment events') : events'.Sublist events := by
  obtain ⟨last, through, whole, rfl⟩ := tells.comes
  obtain ⟨last', through', whole', rfl⟩ := tells'.comes
  obtain ⟨frame, tasks, settled⟩ := accepts.start
  have orderly : (World.start routine argument).Orderly ⟨registry, routine.library⟩ :=
    World.start_orderly routine argument
  rw [first] at tasks
  obtain ⟨work, state, next, gives, stepped, through, move⟩ := orderly.begins tasks through whole
  obtain ⟨inner, middle, sets, rfl, rfl⟩ := SetUp.setUpEntry_bind gives
  obtain ⟨next', work', middle', frame', solo, through'⟩ :=
    @World.Solo.opens ⟨registry, routine.library⟩ _ _ _ _ _ _ bound through' whole'
  have beginning : 1 = ((World.start routine argument).tasks ++ []).length := by
    rw [tasks]
    rfl
  obtain ⟨again, after, pairs, sets', _, _, grown⟩ :=
    @World.Solo.paired _ _ _ _ _ _ _ _ _ solo bound (World.start routine argument)
      ⟨frame, 1, [], [.starting 0 setting, .binding names setting]⟩ settled beginning rfl
  cases sets.symm.trans sets'
  have held : World.Held pairs next next' := by
    refine ⟨⟨_, solo.idle grown⟩, ?_⟩
    rw [solo.heard]
    exact List.nil_sublist _
  have abreast : (Comparison.holding ⟨registry, routine.library⟩ (World.start routine argument)
      (.solo ⟨registry, routine.library⟩ procedure setting names' step) orderly
      (World.start_orderly _ _)).Abreast pairs next next' :=
    Comparison.opens rfl rfl rfl rfl tasks rfl ⟨Nat.one_pos, Nat.one_pos⟩ rfl stepped solo.stepped
      move solo.move grown held
  obtain ⟨count, steps⟩ := through.reaches.steps
  obtain ⟨count', steps'⟩ := through'.reaches.steps
  obtain ⟨more, one, other, _, later, _, _, comes⟩ := @Comparison.Abreast.together _ _ _ _ _ False
    False _ _ _ _ abreast steps steps' through.come through'.come (.inr through.toRests)
    (.inr through'.toRests)
  rcases comes with ⟨rfl, rfl⟩ | ⟨_, never⟩ | ⟨_, never⟩
  · exact later.keeps.told
  · exact never.elim
  · exact never.elim

/-- What is started goes on. Two steps that read no name bound outside of them tell certain events up
to a moment, each in a run of its own. Then each operator of them tells all these events up to then,
each with its time, and no other. A run that begins with a binding of the first step, whatever comes
after it, tells all that this step does. And a run is never given up: that is its outcome only if a
primitive of its registry answers so. -/
theorem started_goes_on (registry : Registry)
    (own : ∀ operator : Operator,
      registry.lookup operator.primitive = some operator.asPrimitive)
    (library : Library) (procedure : Procedure) (setting : Setting) (left right : Step)
    (bound : left.Bound []) (bound' : right.Bound []) (names names' : List Name) (moment : Nat)
    (events events' : List Logged)
    (tells : (performing procedure setting (.bind names left) library).Tells registry .unit moment
      events)
    (tells' : (performing procedure setting (.bind names' right) library).Tells registry .unit moment
      events') :
    (∀ operator : Operator, ∃ joined,
      (performing procedure setting (operator.step left right) library).Tells registry .unit moment
        joined ∧ joined.Perm (events ++ events')) ∧
    (∀ (routine : Routine) (argument : Value) (others : List Name) (entries : List Entry)
      (told : List Logged), routine.library = library → routine.Accepts argument →
      routine.sequence = ⟨setting, .bind others left⟩ :: entries →
      routine.Tells registry argument moment told → events.Sublist told) ∧
    ∀ (routine : Routine) (argument : Value) (drain fuel : Nat) (report : Report),
      routine.perform? registry argument drain fuel = some (.ok report) →
      report.outcome = .error .cancelled →
      ∃ primitive ∈ registry.primitives, ∃ value,
        (primitive.action value).outcome = .error .cancelled := by
  refine ⟨fun operator => ?_, ?_, ?_⟩
  · let operands : Operands := ⟨registry, library, procedure, setting, operator, left, right, names,
      names', own operator, bound, bound'⟩
    exact @Operands.tells operands _ _ _ tells tells'
  · rintro routine argument others entries told rfl accepts first told_by
    exact holds accepts first bound told_by tells
  · intro routine argument drain fuel report reports given_up
    cases outcome_yields reports _ given_up with
    | answered inside answers => exact ⟨_, inside, _, answers⟩

/-- A step that tells of its end after a nap. -/
def waking : Step := .invoke "task" .nap

/-- A step that writes, and fails at once. -/
def spilling : Step :=
  .tuple [.invoke "write" (.literal (.text "tea")), .invoke "fail" (.literal (.text "spilt"))]

/-- A routine that begins a step and fails before its end. -/
def hasty : Routine :=
  ⟨⟨0, "main", [], none, []⟩, [], [⟨.inherit, .bind [⟨0, "a"⟩] waking⟩, ⟨.inherit, spilling⟩], []⟩

theorem started_goes_on_waking :
    (lone (.bind [⟨0, "a"⟩] waking)).Tells .standard .unit 5 [⟨5, .said .task .unit⟩] ∧
      (lone (.bind [⟨0, "a"⟩] spilling)).Tells .standard .unit 5 [⟨0, .said .write (.text "tea")⟩] ∧
      (∃ joined, (lone (Operator.step .waitBoth waking spilling)).Tells .standard .unit 5 joined ∧
        joined.Perm [⟨5, .said .task .unit⟩, ⟨0, .said .write (.text "tea")⟩]) ∧
      ∃ told, hasty.Tells .standard .unit 5 told ∧
        [⟨5, .said .task .unit⟩].Sublist told := by
  have tells {routine : Routine} {last : World} {clock : Nat} {wake : Option Nat}
      {outcome : Outcome} {told : List Logged}
      (same : (World.start routine .unit).toMoment ⟨.standard, routine.library⟩ 5 40 = last)
      (now : last.clock = clock)
      (next : (last.step? ⟨.standard, routine.library⟩).map World.clock = wake)
      (come : clock ≤ 5) (late : ∀ later ∈ wake, 5 < later)
      (ends : last.outcome? = some (.ok outcome)) (heard : heard last.log = told) :
      routine.Tells .standard .unit 5 told := by
    rw [← heard]
    refine .of_comes (.of_toMoment same now next come late) fun defect broken => ?_
    cases ends.symm.trans broken
  have first : (lone (.bind [⟨0, "a"⟩] waking)).Tells .standard .unit 5 [⟨5, .said .task .unit⟩] :=
    tells rfl rfl rfl (Nat.le_refl 5) nofun rfl rfl
  have second : (lone (.bind [⟨0, "a"⟩] spilling)).Tells .standard .unit 5
      [⟨0, .said .write (.text "tea")⟩] := tells rfl rfl rfl (Nat.zero_le 5) nofun rfl rfl
  have hasty : hasty.Tells .standard .unit 5
      [⟨0, .said .write (.text "tea")⟩, ⟨5, .said .task .unit⟩] :=
    tells rfl rfl rfl (Nat.le_refl 5) nofun rfl rfl
  obtain ⟨joins, holds, _⟩ := started_goes_on .standard Registry.standard_own []
    ⟨0, "main", [], none, []⟩ .inherit waking spilling trivial ⟨trivial, trivial, trivial⟩
    [⟨0, "a"⟩] [⟨0, "a"⟩] 5 _ _ first second
  exact ⟨first, second, joins .waitBoth,
    _, hasty, holds Routine.hasty .unit _ _ _ rfl (.inl rfl) rfl hasty⟩

end Routine

end Runbook
