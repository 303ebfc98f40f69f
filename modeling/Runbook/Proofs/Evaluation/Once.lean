import Runbook.Proofs.Evaluation.Readers
import Runbook.Proofs.Evaluation.Sequel

/-!
What happens once.

In a run of a compiled routine each call is that of one step of one invocation, and no step of an
invocation calls twice, however often the binding around it is read. A task has its outcome once and
for all, and all that read a name see the same part of it.
-/
namespace Runbook

/-- In a run of `main`, the step is one of the routine that an invocation at the place performs from
the start. -/
structure Site.Occurs (machine : Machine) (main : Routine) (argument : Value) (routine : Routine)
    (task : TaskId) (place : List Nat) (start : World) (site : Site) (step : Step) : Prop where
  opens : Opens machine main argument routine task place start
  inside : routine.sequence = site.sequence step

theorem Opens.reaches {machine : Machine} {main routine : Routine} {argument : Value}
    {task : TaskId} {place : List Nat} {start : World}
    (opens : Opens machine main argument routine task place start) :
    (World.start main argument).Reaches machine start := by
  cases opens with
  | run => exact .refl
  | call reaches stepped => exact reaches.tail stepped

namespace Routine

variable {base registry : Registry} {program : Routine}

/-- In each run of a compiled routine: a call is that of a step of an invocation. Each step of an
invocation calls at most once, and does so if the invocation returns a value and waits nowhere for
the first of two tasks. What a task has come to never changes; and all steps of an invocation that
read a name see what the binding shows that has it, whenever they do so. -/
theorem calls_once (compiles : Compiles base program) (built : base.Built)
    (grown : base.Grown registry)
    (argument : Value) :
    let machine : Machine := ⟨registry, program.library⟩
    let begun := World.start program argument
    (∀ (world : World) (task : TaskId) (place : List Nat) (use : Continuation),
      begun.Reaches machine world →
      (world.CallsAt machine task place use ↔
        ∃ (routine : Routine) (owner : TaskId) (own : List Nat) (start : World) (site : Site)
          (step : Step) (count : Nat),
          site.Occurs machine program argument routine owner own start step ∧
          step.Uses registry use ∧ World.Steps machine count start world ∧
          site.Calls machine owner own start step count task place)) ∧
    (∀ (routine : Routine) (task : TaskId) (place : List Nat) (start : World) (site : Site)
      (step : Step),
      site.Occurs machine program argument routine task place start step → step.calls = true →
      (∀ (count count' : Nat) (other other' : TaskId) (spot spot' : List Nat),
        site.Calls machine task place start step count other spot →
        site.Calls machine task place start step count' other' spot' →
          count = count' ∧ other = other' ∧ spot = spot') ∧
      (({ routine with library := program.library } : Routine).Calm →
        ∀ (total : Nat) (final : Standing) (value : Value),
          (⟨start, []⟩ : Standing).after? machine task place total = some final →
          final.Returns task place value →
          ∃ (count : Nat) (other : TaskId) (spot : List Nat), count < total ∧
            site.Calls machine task place start step count other spot)) ∧
    (∀ (world later : World) (task : TaskId) (outcome : Outcome), begun.Reaches machine world →
      world.Reaches machine later → world.tasks[task]? = some (.done outcome) →
        later.tasks[task]? = some (.done outcome)) ∧
    ∀ (routine : Routine) (task : TaskId) (place : List Nat) (start : World) (site : Site)
      (name : Name) (count : Nat) (world : World) (other : TaskId) (spot : List Nat)
      (seen : Outcome),
      site.Occurs machine program argument routine task place start (.read name) →
      site.ComesTo machine task place start (.read name) count world other spot (.done seen) →
      ∀ (now : Standing) (frame : Frame) (current : Work) (index : Nat) (entries : List Entry),
        Proceeds machine task place ⟨start, []⟩ now →
        now.world.part? task place = some (.body frame current index entries) →
        ∀ binding ∈ frame.bindings, ∀ position, placeOf? name binding.names = some position →
          binding.Shows world seen position := by
  intro machine begun
  have whole := (perform_intact built compiles grown argument).1
  refine ⟨?_, ?_, ?_, ?_⟩
  · intro world task place use reaches
    constructor
    · intro calls
      obtain ⟨routine, owner, own, start, site, step, count, opens, inside, uses, steps, calls⟩ :=
        calls.caller reaches whole
      exact ⟨routine, owner, own, start, site, step, count, ⟨opens, inside⟩, uses, steps, calls⟩
    · rintro ⟨routine, owner, own, start, site, step, count, _, uses, steps, calls⟩
      exact calls.callsAt steps uses
  · intro routine task place start site step occurs calls
    refine ⟨fun _ _ _ _ _ _ calls again => calls.once again, ?_⟩
    intro calm total final value found returns
    let placed : Routine := { routine with library := program.library }
    have needs : ∀ need ∈ routine.needs, ∃ other, placed.Reaches other ∧ need ∈ other.needs :=
      fun need needs => ⟨placed, .refl, needs⟩
    exact returns.calls (calm.raceless (built.grown grown)).machine needs occurs.opens found
      occurs.inside calls
  · intro world later task outcome _ reaches there
    exact reaches.keeps (fun there goes => goes.done there) there
  · intro routine task place start site name count world other spot seen occurs comes now frame
      current index entries reached there binding among position named
    refine comes.shows occurs.opens occurs.inside (fun proceeds stands => ?_) reached there among
      named
    exact compiles.frame_distinct (occurs.opens.reaches.trans proceeds.reaches) stands

end Routine

/-- What can be told of an invocation so many steps later. -/
def Standing.tell? {α : Type} (machine : Machine) (task : TaskId) (place : List Nat)
    (now : Standing) (count : Nat) (told : Work → Option α) : Option α :=
  (now.after? machine task place count).bind fun later =>
    (later.world.part? task place).bind told

theorem Standing.tell?_eq_some {α : Type} {machine : Machine} {task : TaskId} {place : List Nat}
    {now : Standing} {count : Nat} {told : Work → Option α} {a : α} :
    now.tell? machine task place count told = some a ↔ ∃ later work,
      now.after? machine task place count = some later ∧
      later.world.part? task place = some work ∧ told work = some a := by
  rw [tell?, Option.bind_eq_some_iff]
  constructor
  · rintro ⟨later, reached, found⟩
    obtain ⟨work, there, tells⟩ := Option.bind_eq_some_iff.mp found
    exact ⟨later, work, reached, there, tells⟩
  · rintro ⟨later, work, reached, there, tells⟩
    exact ⟨later, reached, Option.bind_eq_some_iff.mpr ⟨work, there, tells⟩⟩

theorem Work.eq_of_value? {work : Work} {value : Value} (has : work.value? = some value) :
    work = .done (.ok value) := by
  cases work with
  | done outcome =>
      cases outcome with
      | ok result =>
          cases has
          rfl
      | error failure => cases has
  | _ => cases has

/-- A routine that reads both names of a binding after a task of its own has given them values. -/
def Document.sharing : Document where
  procedures := [
    ⟨0, "main", ["x"], none, [
      .assignment 0 ["a", "b"] (.application 0 "both" (.application 0 "task" (.reference 0 ["x"]))),
      .execute 0 (.reference 0 ["a", "b"])]⟩,
    ⟨0, "both", ["y"], none, [.execute 0 (.reference 0 ["y", "y"])]⟩]

/-- In a run that has returned, the procedure that the binding is made by was called once; and when
the second of the readers has seen its part, the first has been through. -/
theorem Routine.calls_once_sharing : ∃ program,
    Document.sharing.compile ⟨"", ""⟩ Registry.standard.names = .ok program ∧
    let machine : Machine := ⟨Registry.standard.register "task" fun value => .later 20 (.ok value),
      program.library⟩
    let start := World.start program (.text "tea")
    ∃ (calling reading : Site) (call : Step) (final : Standing) (world : World)
      (meaning : Frame.Meaning),
      calling.Occurs machine program (.text "tea") program 0 [] start call ∧ call.calls = true ∧
      (⟨start, []⟩ : Standing).after? machine 0 [] 19 = some final ∧
      final.Returns 0 [] (.parallel [.text "tea", .text "tea"]) ∧
      (∃ count other spot, count < 19 ∧ calling.Calls machine 0 [] start call count other spot) ∧
      reading.ComesTo machine 0 [] start (.read ⟨2, "b"⟩) 16 world 0 [0, 1]
        (.done (.ok (.text "tea"))) ∧
      meaning.binding.task? = some 1 ∧
      meaning.binding.Shows world (.ok (.text "tea")) meaning.place := by
  refine ⟨_, rfl, ?_⟩
  intro machine start
  have runs := @Routine.calls_once _
    (Registry.standard.register "task" fun value => .later 20 (.ok value)) _
    (@Compiles.document _ _ .sharing ⟨"", ""⟩ rfl) (.inr .refl) (.register _ _ .refl) (.text "tea")
  let call : Step := .call 1 (.invoke "task" (.tuple [.read ⟨0, "x"⟩]))
  let names : List Name := [⟨1, "a"⟩, ⟨2, "b"⟩]
  let calling : Site := ⟨[], .inherit, .bind names .here, [⟨.inherit, .tuple (names.map .read)⟩]⟩
  let reading : Site :=
    ⟨[⟨.inherit, .bind names call⟩], .inherit, .tuple [.read ⟨1, "a"⟩] .here [], []⟩
  have calls : calling.Occurs machine _ (.text "tea") _ 0 [] start call :=
    ⟨.run rfl rfl rfl, rfl⟩
  have reads : reading.Occurs machine _ (.text "tea") _ 0 [] start (.read ⟨2, "b"⟩) :=
    ⟨.run rfl rfl rfl, rfl⟩
  have ends : (⟨start, []⟩ : Standing).tell? machine 0 [] 19 Work.value? =
      some (.parallel [.text "tea", .text "tea"]) := by decide +kernel
  have before : ((⟨start, []⟩ : Standing).tell? machine 0 [] 1 fun work =>
      (work.performing? 0).bind Work.value?) = some .unit := by decide +kernel
  have begins : ((⟨start, []⟩ : Standing).tell? machine 0 [] 2 fun work =>
      (work.performing? 1).bind fun _ => work.bodies.head?.bind fun body =>
        (body.1.find? ⟨2, "b"⟩).bind fun meaning => meaning.binding.task?) = some 1 := by
    decide +kernel
  have sees : ((⟨start, []⟩ : Standing).tell? machine 0 [] 16 fun work =>
      (work.performing? 1).bind fun work => (work.seat? [1]).bind Work.value?) =
        some (.text "tea") := by decide +kernel
  obtain ⟨final, _, ended, there, value⟩ := Standing.tell?_eq_some.mp ends
  obtain rfl := Work.eq_of_value? value
  -- the invocation begins its last entry after its first one
  obtain ⟨now, _, reached, stood, tells⟩ := Standing.tell?_eq_some.mp before
  obtain ⟨_, entry, value⟩ := Option.bind_eq_some_iff.mp tells
  obtain rfl := Work.eq_of_value? value
  obtain ⟨frame, entries, rfl⟩ := Work.performing?_eq_some.mp entry
  obtain ⟨later, _, come, stands, tells⟩ := Standing.tell?_eq_some.mp sees
  obtain ⟨work, entry', tells⟩ := Option.bind_eq_some_iff.mp tells
  obtain ⟨_, seat, value⟩ := Option.bind_eq_some_iff.mp tells
  obtain rfl := Work.eq_of_value? value
  obtain ⟨begun, goesOn, rest⟩ : ∃ begun, GoesOn machine 0 [] now begun ∧
      begun.after? machine 0 [] 14 = some later := by
    change (⟨start, []⟩ : Standing).after? machine 0 [] (1 + 15) = _ at come
    rw [Standing.after?_add, reached] at come
    exact Standing.after?_succ.mp come
  obtain ⟨other, _, again, opened, tells⟩ := Standing.tell?_eq_some.mp begins
  obtain rfl := Option.some.inj ((Standing.after?_snoc reached goesOn).symm.trans again)
  obtain ⟨current, entry, tells⟩ := Option.bind_eq_some_iff.mp tells
  obtain ⟨frame', entries', rfl⟩ := Work.performing?_eq_some.mp entry
  obtain ⟨_, outermost, tells⟩ := Option.bind_eq_some_iff.mp tells
  cases outermost
  obtain ⟨meaning, means, bound⟩ := Option.bind_eq_some_iff.mp tells
  have begins : Standing.Begins machine 0 [] 1 now begun :=
    ⟨goesOn, ⟨frame, .unit, entries, stood⟩, current, World.performing opened⟩
  have position : reading.context.seat machine.registry (.read ⟨2, "b"⟩) = ⟨none, [1]⟩ := rfl
  have carries : CarriesOut machine 0 [] start 1 none 16 later.world 0 [0] work :=
    .own reached begins rest (Option.bind_eq_some_iff.mpr ⟨_, stands, entry'⟩)
  have comes : reading.ComesTo machine 0 [] start (.read ⟨2, "b"⟩) 16 later.world 0 [0, 1]
      (.done (.ok (.text "tea"))) := Site.ComesTo.of_seat position carries seat
  have called :=
    (runs.2.1 _ _ _ _ _ _ calls rfl).2 (.of_library (by decide) (by decide)) _ _ _ ended there
  have shows := runs.2.2.2 _ _ _ _ _ _ _ _ _ _ _ reads comes begun frame' current 2 entries'
    (.of_after? (Standing.after?_snoc reached goesOn)) opened meaning.binding
    (Frame.find?_mem means) meaning.place (Frame.find?_place means)
  exact ⟨calling, reading, call, final, later.world, meaning, calls, rfl, ended, there, called,
    comes, bound, shows⟩

end Runbook
