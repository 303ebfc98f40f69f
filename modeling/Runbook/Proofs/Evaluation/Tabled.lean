import Runbook.Proofs.Evaluation.Lacking
import Runbook.Registry.Rehearsal

/-!
Frames that are sound for every routine.

No property of what is compiled is used: a name may be registered again, or stand in a group twice, a
group may have no names, and what is called may not be there. Still the table of a frame leads
everywhere to bindings that it has, what is read of a name is the part of its last place, and a run
breaks down for nothing but what it lacks.
-/
namespace Runbook

/-- The table has come about from values of the parameters by what is mentioned, and has been sound
all along. -/
def Table.SoundThroughout (parameters : List Name) (mentions : List Mention) (table : Table) :
    Prop :=
  ∃ values deeds, values.length = parameters.length ∧ deeds.map Deed.mention = mentions ∧
    table = (Table.ofParameters parameters values).performAll deeds ∧
    ∀ count, ((Table.ofParameters parameters values).performAll (deeds.take count)).Sound

theorem Frame.Made.soundThroughout {parameters : List Name} {mentions : List Mention}
    {frame : Frame} (made : frame.Made parameters mentions) :
    frame.table.SoundThroughout parameters mentions := by
  obtain ⟨values, deeds, length, same, rfl⟩ := made
  refine ⟨values, deeds, length, same, ?_, fun count => ?_⟩
  · rw [Frame.table_performAll, Frame.table_ofParameters]
  · exact ((Table.indexed_ofParameters parameters values).performAll _).sound

/-- A run that ends with a defect comes to a world in which the run itself has broken down for it. -/
theorem Routine.perform?_eq_error {routine : Routine} {registry : Registry} {argument : Value}
    {drain fuel : Nat} {defect : Defect}
    (performed : routine.perform? registry argument drain fuel = some (.error defect)) :
    ∃ world, (World.start routine argument).Reaches ⟨registry, routine.library⟩ world ∧
      world.tasks[0]? = some (.broken defect) := by
  rw [perform?] at performed
  split at performed
  · cases performed
  · rename_i broken world found
    cases performed
    obtain ⟨reaches, ends⟩ := World.toOutcome?_reaches found
    obtain ⟨others, same⟩ := World.outcome?_broken ends
    exact ⟨world, reaches, by rw [same]; rfl⟩
  · cases performed

section
variable {machine : Machine} {main routine : Routine} {argument : Value} {task other : TaskId}
  {place spot : List Nat} {start world next : World} {site : Site} {name : Name}
  {state : SetUp.State} {count index position : Nat} {seen : Outcome}

/-- A step that reads a name breaks down when it is its turn, if no group that is registered then has
the name. -/
theorem Site.Arrives.misses
    (arrives : site.Arrives machine task place start (.read name) world next state)
    (occurs : site.Occurs machine main argument routine task place start (.read name))
    (absent : ∀ group ∈ site.groups routine.parameters, name ∉ group) :
    state.frame.table.ask name = .error .unbound ∧
      (SetUp.read name).Breaks state (.unboundName name) state := by
  rw [← arrives.groups occurs.opens occurs.inside] at absent
  rcases SetUp.read_table state name with ⟨asked, _, breaks⟩ | ⟨_, _, _, _, _, found, _⟩
  · exact ⟨asked, breaks⟩
  · exact absurd absent (state.frame.table_indexed.latest found).not_absent

/-- When it is the turn of a step that reads a name, it reads the last place of the name in the groups
that are registered then. -/
theorem Site.Arrives.reads
    (arrives : site.Arrives machine task place start (.read name) world next state)
    (occurs : site.Occurs machine main argument routine task place start (.read name))
    (latest : Latest name (site.groups routine.parameters) index position) :
    ∃ (binding : Binding) (inside : position < binding.names.length) (work : Work)
      (after : SetUp.State), state.frame.bindings[index]? = some binding ∧
        state.frame.table.ask name = .ok (binding, position, after.frame.table) ∧
        (SetUp.read name).Gives state work after ∧
        ∀ world, binding.ReadBy world work ⟨position, inside⟩ := by
  rw [← arrives.groups occurs.opens occurs.inside] at latest
  rcases SetUp.read_table state name with ⟨_, missing, _⟩ |
    ⟨_, binding, own, work, after, found, there, gives, asked, reads⟩
  · exact absurd (state.frame.table_indexed.whole missing) latest.not_absent
  · obtain ⟨rfl, rfl⟩ := latest.unique (state.frame.table_indexed.latest found)
    exact ⟨binding, own.isLt, work, after, there, asked, gives, reads⟩

/-- What a step that reads a name has come to see is the part of the binding at the last place of the
name in the groups that were registered when it was its turn. -/
theorem Site.ComesTo.sees
    (comes : site.ComesTo machine task place start (.read name) count world other spot (.done seen))
    (occurs : site.Occurs machine main argument routine task place start (.read name))
    (latest : Latest name (site.groups routine.parameters) index position) :
    ∃ (earlier begun : World) (state : SetUp.State) (binding : Binding)
      (inside : position < binding.names.length),
      site.Arrives machine task place start (.read name) earlier begun state ∧
      begun.Reaches machine world ∧ state.frame.bindings[index]? = some binding ∧
      binding.Shows world seen ⟨position, inside⟩ := by
  obtain ⟨_, now, begun, _, _, _, _, state, inner, ended, _, _, _, _, reaches, arrives, sets, _, _,
    keeps⟩ := comes.setUp rfl occurs.opens occurs.inside (fun steps => by simp)
      (fun names inner => by simp)
  rw [Runbook.setUp] at sets
  obtain ⟨binding, inside, work, after, there, _, gives, reads⟩ := arrives.reads occurs latest
  obtain ⟨rfl, rfl⟩ := sets.unique gives
  exact ⟨_, _, state, binding, inside, arrives, reaches, there,
    (keeps (Lasting.readBy machine binding ⟨position, inside⟩) (reads begun.world)).shows⟩

end

/-- In each run of any routine: the table of a frame has come about from the parameters by what its
invocation has begun, and on the way each of its entries has pointed to a binding that is there and
has the name at the position; and so it is each time that it is the turn of a step. The groups that
stand before a step decide what it reads. If none of them has the name, the reading breaks down;
otherwise it asks for the last place of the name in the last group that has it, and if it comes to
see anything, this is the part there of what the binding shows. And whatever the run breaks down for
is a primitive, a procedure or a name that it lacks, or such a defect that another work has met. -/
theorem Routine.frames_sound (program : Routine) (registry : Registry) (argument : Value) :
    let machine : Machine := ⟨registry, program.library⟩
    let begun := World.start program argument
    (∀ (world : World) (task : TaskId) (place : List Nat) (frame : Frame) (current : Work)
      (index : Nat) (entries : List Entry), begun.Reaches machine world →
      world.part? task place = some (.body frame current index entries) →
      ∃ (routine : Routine) (start : World) (bound : List (Option TaskId)),
        Opens machine program argument routine task place start ∧
        Proceeds machine task place ⟨start, []⟩ ⟨world, bound⟩ ∧
        frame.table.SoundThroughout routine.parameters
          (Sequence.mentions (routine.sequence.take index))) ∧
    (∀ (routine : Routine) (task : TaskId) (place : List Nat) (start : World) (site : Site)
      (step : Step) (world next : World) (state : SetUp.State),
      site.Occurs machine program argument routine task place start step →
      site.Arrives machine task place start step world next state →
      state.frame.table.SoundThroughout routine.parameters
        (site.before.mentions ++ site.context.earlier) ∧
      state.frame.table.groups = site.groups routine.parameters) ∧
    (∀ (routine : Routine) (task : TaskId) (place : List Nat) (start : World) (site : Site)
      (name : Name),
      site.Occurs machine program argument routine task place start (.read name) →
      ((∀ group ∈ site.groups routine.parameters, name ∉ group) ∧
        ∀ (world next : World) (state : SetUp.State),
          site.Arrives machine task place start (.read name) world next state →
          state.frame.table.ask name = .error .unbound ∧
          (SetUp.read name).Breaks state (.unboundName name) state) ∨
      ∃ index position, Latest name (site.groups routine.parameters) index position ∧
        (∀ (world next : World) (state : SetUp.State),
          site.Arrives machine task place start (.read name) world next state →
          ∃ (binding : Binding) (inside : position < binding.names.length) (work : Work)
            (after : SetUp.State), state.frame.bindings[index]? = some binding ∧
              state.frame.table.ask name = .ok (binding, position, after.frame.table) ∧
              (SetUp.read name).Gives state work after ∧
              binding.ReadBy world work ⟨position, inside⟩) ∧
        ∀ (count : Nat) (world : World) (other : TaskId) (spot : List Nat) (seen : Outcome),
          site.ComesTo machine task place start (.read name) count world other spot (.done seen) →
          ∃ (earlier later : World) (state : SetUp.State) (binding : Binding)
            (inside : position < binding.names.length),
            site.Arrives machine task place start (.read name) earlier later state ∧
            later.Reaches machine world ∧ state.frame.bindings[index]? = some binding ∧
            binding.Shows world seen ⟨position, inside⟩) ∧
    (∀ world : World, begun.Reaches machine world → ∀ work ∈ world.tasks,
      ∀ defect ∈ work.defects, world.Accounts machine program argument defect) ∧
    ∀ (drain fuel : Nat) (defect : Defect),
      program.perform? registry argument drain fuel = some (.error defect) →
      ∃ world : World, begun.Reaches machine world ∧ world.tasks[0]? = some (.broken defect) ∧
        world.Accounts machine program argument defect := by
  intro machine begun
  refine ⟨?_, ?_, ?_, fun _ reaches => reaches.accounts, ?_⟩
  · intro world task place frame current index entries reaches there
    obtain ⟨routine, start, bound, opens, proceeds⟩ := reaches.invoked there
    obtain ⟨made, _⟩ := opens.made proceeds there
    exact ⟨routine, start, bound, opens, proceeds, made.soundThroughout⟩
  · intro routine task place start site step world next state occurs arrives
    have made := arrives.made occurs.opens occurs.inside
    exact ⟨made.soundThroughout, made.groups⟩
  · intro routine task place start site name occurs
    refine (Latest.absent_or_latest name (site.groups routine.parameters)).imp ?_ ?_
    · exact fun absent => ⟨absent, fun _ _ _ arrives => arrives.misses occurs absent⟩
    · rintro ⟨index, position, latest⟩
      refine ⟨index, position, latest, fun world next state arrives => ?_, ?_⟩
      · obtain ⟨binding, inside, work, after, there, asked, gives, reads⟩ :=
          arrives.reads occurs latest
        exact ⟨binding, inside, work, after, there, asked, gives, reads world⟩
      · exact fun _ _ _ _ _ comes => comes.sees occurs latest
  · intro drain fuel defect performed
    obtain ⟨world, reaches, there⟩ := perform?_eq_error performed
    exact ⟨world, reaches, there,
      reaches.accounts _ (List.mem_of_getElem? there) defect List.mem_cons_self⟩

/-- The defect that a run ends with. -/
def Routine.defect? (routine : Routine) (registry : Registry) (argument : Value)
    (drain fuel : Nat) : Option Defect :=
  match routine.perform? registry argument drain fuel with
  | some (.error defect) => some defect
  | _ => none

theorem Routine.defect?_eq_some {routine : Routine} {registry : Registry} {argument : Value}
    {drain fuel : Nat} {defect : Defect} :
    routine.defect? registry argument drain fuel = some defect ↔
      routine.perform? registry argument drain fuel = some (.error defect) := by
  rw [defect?]
  split
  · rename_i found
    rw [found, Option.some.injEq, Option.some.injEq, Except.error.injEq]
  · rename_i other
    exact ⟨nofun, fun found => absurd found (other defect)⟩

/-- A routine in which a name is registered three times and a group has no names, and which calls
what is not there. -/
def Routine.careless : Routine where
  procedure := ⟨0, "careless", ["a"], none, []⟩
  parameters := [⟨0, "a"⟩]
  sequence := [
    ⟨.inherit, .bind [⟨0, "a"⟩, ⟨1, "b"⟩, ⟨0, "a"⟩]
      (.tuple [.literal (.text "one"), .literal (.text "two"), .literal (.text "three")])⟩,
    ⟨.inherit, .bind [] (.tuple [])⟩,
    ⟨.inherit, .bind [⟨2, "c"⟩] (.call 9 (.read ⟨0, "a"⟩))⟩,
    ⟨.inherit, .read ⟨0, "a"⟩⟩]
  library := []

/-- The last entry sees the third part of what the name was last registered with, before the run
breaks down for the procedure that it lacks. -/
theorem Routine.frames_sound_careless :
    let machine : Machine := ⟨.standard, []⟩
    let start := World.start .careless (.text "tea")
    ∃ (site : Site) (world last : World) (binding : Binding) (inside : 2 < binding.names.length),
      site.Occurs machine .careless (.text "tea") .careless 0 [] start (.read ⟨0, "a"⟩) ∧
      Latest ⟨0, "a"⟩ (site.groups [⟨0, "a"⟩]) 1 2 ∧
      site.ComesTo machine 0 [] start (.read ⟨0, "a"⟩) 14 world 0 [0]
        (.done (.ok (.text "three"))) ∧
      binding.Shows world (.ok (.text "three")) ⟨2, inside⟩ ∧
      Routine.careless.perform? .standard (.text "tea") 0 60 = some (.error (.missingRoutine 9)) ∧
      start.Reaches machine last ∧ last.tasks[0]? = some (.broken (.missingRoutine 9)) ∧
      last.Accounts machine .careless (.text "tea") (.missingRoutine 9) := by
  intro machine start
  obtain ⟨_, _, reads, _, breaks⟩ := Routine.frames_sound .careless .standard (.text "tea")
  let site : Site := ⟨Routine.careless.sequence.take 3, .inherit, .here, []⟩
  have occurs : site.Occurs machine .careless (.text "tea") .careless 0 [] start (.read ⟨0, "a"⟩) :=
    ⟨.run rfl rfl rfl, rfl⟩
  have latest : Latest ⟨0, "a"⟩ (site.groups [⟨0, "a"⟩]) 1 2 :=
    @Latest.here _ [[⟨0, "a"⟩]] [[], [⟨2, "c"⟩]] [⟨0, "a"⟩, ⟨1, "b"⟩] [] (by decide) (by decide)
  have before : ((⟨start, []⟩ : Standing).tell? machine 0 [] 3 fun work =>
      (work.performing? 2).bind Work.value?) = some .unit := by decide +kernel
  have begins : ((⟨start, []⟩ : Standing).tell? machine 0 [] 4 fun work =>
      (work.performing? 3).bind fun _ => some ()) = some () := by decide +kernel
  have sees : ((⟨start, []⟩ : Standing).tell? machine 0 [] 14 fun work =>
      (work.performing? 3).bind fun work => (work.seat? []).bind Work.value?) =
        some (.text "three") := by decide +kernel
  have performed : Routine.careless.perform? .standard (.text "tea") 0 60 =
      some (.error (.missingRoutine 9)) := defect?_eq_some.mp (by decide +kernel)
  -- the invocation begins its last entry after the three bindings
  obtain ⟨now, _, reached, stood, tells⟩ := Standing.tell?_eq_some.mp before
  obtain ⟨_, entry, value⟩ := Option.bind_eq_some_iff.mp tells
  obtain rfl := Work.eq_of_value? value
  obtain ⟨frame, entries, rfl⟩ := Work.performing?_eq_some.mp entry
  obtain ⟨later, _, come, stands, tells⟩ := Standing.tell?_eq_some.mp sees
  obtain ⟨work, entry', tells⟩ := Option.bind_eq_some_iff.mp tells
  obtain ⟨_, seat, value⟩ := Option.bind_eq_some_iff.mp tells
  obtain rfl := Work.eq_of_value? value
  obtain ⟨begun, goesOn, rest⟩ : ∃ begun, GoesOn machine 0 [] now begun ∧
      begun.after? machine 0 [] 10 = some later := by
    change (⟨start, []⟩ : Standing).after? machine 0 [] (3 + 11) = _ at come
    rw [Standing.after?_add, reached] at come
    exact Standing.after?_succ.mp come
  obtain ⟨other, _, again, opened, tells⟩ := Standing.tell?_eq_some.mp begins
  obtain rfl := Option.some.inj ((Standing.after?_snoc reached goesOn).symm.trans again)
  obtain ⟨current, entry, _⟩ := Option.bind_eq_some_iff.mp tells
  obtain ⟨frame', entries', rfl⟩ := Work.performing?_eq_some.mp entry
  have begins : Standing.Begins machine 0 [] 3 now begun :=
    ⟨goesOn, ⟨frame, .unit, entries, stood⟩, current, World.performing opened⟩
  have position : site.context.seat machine.registry (.read ⟨0, "a"⟩) = ⟨none, []⟩ := rfl
  have carries : CarriesOut machine 0 [] start 3 none 14 later.world 0 [0] work :=
    .own reached begins rest (Option.bind_eq_some_iff.mpr ⟨_, stands, entry'⟩)
  have comes : site.ComesTo machine 0 [] start (.read ⟨0, "a"⟩) 14 later.world 0 [0]
      (.done (.ok (.text "three"))) := Site.ComesTo.of_seat position carries seat
  obtain ⟨last, reaches, broke, accounts⟩ := breaks _ _ _ performed
  rcases reads _ _ _ _ _ _ occurs with ⟨absent, _⟩ | ⟨index, place, latest', _, shows⟩
  · exact absurd absent latest.not_absent
  · obtain ⟨rfl, rfl⟩ := latest.unique latest'
    obtain ⟨_, _, _, binding, inside, _, _, _, shown⟩ := shows _ _ _ _ _ comes
    exact ⟨site, later.world, last, binding, inside, occurs, latest, comes, shown, performed,
      reaches, broke, accounts⟩

/-- A routine that reads a name, once on its own and once in the task of another binding, for which
a procedure that is not there is called. -/
def Routine.waiting : Routine where
  procedure := ⟨0, "bare", [], none, []⟩
  parameters := []
  sequence := [
    ⟨.inherit, .bind [⟨0, "a"⟩]
      (.call 9 (.invoke "delay" (.literal (.quantity (.number 10)))))⟩,
    ⟨.inherit, .bind [⟨1, "b"⟩] (.read ⟨0, "a"⟩)⟩,
    ⟨.inherit, .invoke "delay" (.literal (.quantity (.number 50)))⟩,
    ⟨.inherit, .read ⟨0, "a"⟩⟩]
  library := []

/-- The second to wait for a task that has broken down does not break down for what the run lacks,
but because the first has met the defect. -/
theorem Routine.waiting_breaks_met :
    ∃ defect : Defect,
      Routine.waiting.perform? (Registry.standard.rehearse "delay" .delay)
        Routine.waiting.defaultArgument 0 100 = some (.error defect) ∧
      (∀ name, defect ≠ .unknownPrimitive name) ∧ (∀ callee, defect ≠ .missingRoutine callee) ∧
      (∀ name, defect ≠ .unboundName name) ∧
      defect.message = "inner future panicked during poll" := by
  have performed : Routine.waiting.perform? (Registry.standard.rehearse "delay" .delay)
      Routine.waiting.defaultArgument 0 100 = some (.error .met) :=
    defect?_eq_some.mp (by decide +kernel)
  exact ⟨.met, performed, nofun, nofun, nofun, rfl⟩

end Runbook
