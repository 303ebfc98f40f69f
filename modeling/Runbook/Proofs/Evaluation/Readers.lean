import Runbook.Proofs.Evaluation.Fulfilled
import Runbook.Proofs.Evaluation.Loser
import Runbook.Proofs.Evaluation.Readback
import Runbook.Proofs.Evaluation.Registering

/-!
What readers see.

A step that reads a name is set up to wait for the task of the binding that has it, and then takes
the name's part of the outcome. A frame only gets more bindings, and no name twice: so the binding
that has the name is the same one whenever the step is set up, and all readers take their parts of
one and the same outcome.
-/
namespace Runbook

/-- A work that reads a name of that place sees the outcome when the binding is so in the world. -/
def Binding.Shows (world : World) (seen : Outcome) :
    (binding : Binding) → Fin binding.names.length → Prop
  | .parameter _ value, _ => seen = .ok value
  | .started _ task _, place =>
    ∃ outcome, world.tasks[task]? = some (.done outcome) ∧ seen = Outcome.part place outcome

/-- The work waits for the task, and takes the part of the outcome that it has. -/
inductive Work.Reads (world : World) (task : TaskId) {count : Nat} (place : Fin count) : Work → Prop
  | waits : Reads world task place (.after (.wait task) (.pick count place))
  | has {outcome} : world.tasks[task]? = some (.done outcome) →
      Reads world task place (.after (.done outcome) (.pick count place))
  | sees {outcome} : world.tasks[task]? = some (.done outcome) →
      Reads world task place (.done (Outcome.part place outcome))
  | loses {defect} : Reads world task place (.after (.broken defect) (.pick count place))
  | breaks {defect} : Reads world task place (.broken defect)

/-- A work that is set up for a step that reads the name of that place. -/
def Binding.ReadBy (world : World) (work : Work) :
    (binding : Binding) → Fin binding.names.length → Prop
  | .parameter _ value, _ => work = .done (.ok value)
  | .started _ task _, place => work.Reads world task place

/-- Where the numbers lead there is such a work, unless one on the way has gone on. -/
inductive Work.Held (holds : Work → Prop) : List Nat → Work → Prop
  | fresh {path work} : Held holds path work → Held holds path (.fresh work)
  | here {work} : holds work → Held holds [] work
  | operand {index path work inner} : work.operand? index = some inner → Held holds path inner →
      Held holds (index :: path) work
  | gone {index path work} : work.composed = false → Held holds (index :: path) work

section
variable {machine : Machine} {world : World} {task : TaskId} {place path : List Nat}
  {work inner : Work}

namespace Work

theorem held_of_seat {holds : Work → Prop} (there : work.seat? path = some inner)
    (here : holds inner) : work.Held holds path := by
  induction path generalizing work with
  | nil =>
      cases there
      exact .here here
  | cons index path ih =>
      obtain ⟨outer, operand, there⟩ := Option.bind_eq_some_iff.mp there
      exact .operand operand (ih there)

theorem Held.seat {holds : Work → Prop} (held : work.Held holds path)
    (there : work.seat? path = some inner) (plain : inner.composed = false) : holds inner := by
  induction held with
  | @fresh path work _ _ =>
      cases path with
      | nil =>
          cases there
          cases plain
      | cons index path => cases there
  | here holds =>
      cases there
      exact holds
  | operand operand _ ih =>
      obtain ⟨outer, within, there⟩ := Option.bind_eq_some_iff.mp there
      obtain rfl := Option.some.inj (within.symm.trans operand)
      exact ih there
  | gone gone =>
      obtain ⟨outer, within, there⟩ := Option.bind_eq_some_iff.mp there
      cases gone.symm.trans (composed_of_operand within)

theorem Held.mono {holds later : Work → Prop} (held : work.Held holds path)
    (weaker : ∀ work, holds work → later work) : work.Held later path := by
  induction held with
  | fresh _ ih => exact .fresh ih
  | here holds => exact .here (weaker _ holds)
  | operand operand _ ih => exact .operand operand ih
  | gone gone => exact .gone gone

end Work

namespace Lasting

/-- What goes on to hold of a work does so where the work has its seat. -/
theorem held {holds : World → Work → Prop} (lasting : Lasting machine holds) (path : List Nat) :
    Lasting machine fun world work => work.Held (holds world) path where
  moves := by
    intro world work change moves held
    induction held generalizing change with
    | fresh held _ =>
        cases moves with
        | fresh => exact held
    | here holds => exact .here (lasting.moves moves holds)
    | operand operand held ih =>
        rcases moves.operand operand with ⟨gone, _⟩ | ⟨_, later, rfl | ⟨part, moves, rfl, _⟩⟩
        · exact .gone gone
        · exact .operand later held
        · exact .operand later (ih moves)
    | gone gone => exact .gone (moves.uncomposed gone)
  meet := by
    intro world work held
    cases work with
    | broken defect =>
        cases held with
        | here holds => exact .here (lasting.meet holds)
        | operand operand _ => cases operand
        | gone _ => exact .gone rfl
    | _ => exact held
  goes := fun goes held => held.mono fun _ => lasting.goes goes

/-- A reader goes on to read. -/
theorem reads (machine : Machine) (task : TaskId) {count : Nat} (place : Fin count) :
    Lasting machine fun world work => work.Reads world task place where
  moves := by
    intro world work change moves reads
    cases reads with
    | waits =>
        cases moves with
        | source moves =>
            cases moves with
            | @wait _ ended there ends =>
                cases ended with
                | done outcome => exact .has there
                | broken defect => exact .loses
                | _ => cases ends
    | has there =>
        cases moves with
        | goOn =>
            rw [Machine.goOn_pick]
            exact .sees there
        | fail => exact .sees there
        | source moves => cases moves
    | sees _ => cases moves
    | loses =>
        cases moves with
        | breaks => exact .breaks
        | source moves => cases moves
    | breaks => cases moves
  meet := by
    intro world work reads
    cases reads with
    | breaks => exact .breaks
    | waits => exact .waits
    | has there => exact .has there
    | sees there => exact .sees there
    | loses => exact .loses
  goes := by
    intro world next work goes reads
    cases reads with
    | has there => exact .has (goes.done there)
    | sees there => exact .sees (goes.done there)
    | waits => exact .waits
    | loses => exact .loses
    | breaks => exact .breaks

theorem readBy (machine : Machine) (binding : Binding) (place : Fin binding.names.length) :
    Lasting machine fun world work => binding.ReadBy world work place := by
  cases binding with
  | started names task observed => exact reads machine task place
  | parameter name value =>
      constructor
      · rintro world work change moves rfl
        cases moves
      · rintro world work rfl
        rfl
      · exact fun _ same => same

end Lasting

/-- What a reader has come to is what the binding shows. -/
theorem Binding.ReadBy.shows {binding : Binding} {place : Fin binding.names.length} {seen : Outcome}
    (reads : binding.ReadBy world (.done seen) place) : binding.Shows world seen place := by
  cases binding with
  | started names task observed =>
      cases reads with
      | sees there => exact ⟨_, there, rfl⟩
  | parameter name value =>
      cases reads
      rfl

/-- Bindings that are the same but for whether they are asked for show the same. -/
theorem Binding.Shows.of_same {binding other : Binding} {name : Name} {seen : Outcome}
    {position : Fin binding.names.length} {place : Fin other.names.length}
    (shows : other.Shows world seen place) (same : binding.observe = other.observe)
    (named : placeOf? name binding.names = some position)
    (named' : placeOf? name other.names = some place) : binding.Shows world seen position := by
  cases binding with
  | started names task observed =>
      cases other with
      | started others own asked =>
          cases same
          obtain rfl := Option.some.inj (named.symm.trans named')
          exact shows
      | parameter => cases same
  | parameter name value =>
      cases other with
      | started => cases same
      | parameter =>
          cases same
          exact shows

namespace Frame

variable {frame other common : Frame} {name : Name} {binding : Binding}

theorem names_wires (frame : Frame) : frame.wires.flatMap Binding.names = frame.names := by
  rw [wires, List.flatMap_map, names]
  simp only [Binding.names_observe]

/-- A name that is found has the place that it has in its binding. -/
theorem find?_place {meaning : Meaning} (found : frame.find? name = some meaning) :
    placeOf? name meaning.binding.names = some meaning.place := by
  obtain ⟨bindings⟩ := frame
  induction bindings using List.reverseRecOn with
  | nil => cases found
  | append_singleton bindings last ih =>
      change (Frame.add ⟨bindings⟩ last).find? name = _ at found
      rw [find?_add] at found
      split at found
      · cases found
        assumption
      · exact ih found

/-- In frames that become one in which no name is bound twice, a name has the same binding. -/
theorem Grows.same {found : Binding} (distinct : common.names.Nodup) (one : frame.Grows common)
    (two : other.Grows common) (inside : binding ∈ frame.bindings)
    (inside' : found ∈ other.bindings)
    (named : name ∈ binding.names) (named' : name ∈ found.names) :
    binding.observe = found.observe := by
  have among {frame : Frame} {binding : Binding} (grows : frame.Grows common)
      (inside : binding ∈ frame.bindings) : binding.observe ∈ common.wires :=
    grows.subset (List.mem_map_of_mem inside)
  rw [← names_wires] at distinct
  by_contra differs
  have swaps : Std.Symm (Function.onFun List.Disjoint Binding.names) :=
    ⟨fun _ _ => List.Disjoint.symm⟩
  have apart := (List.nodup_flatMap.mp distinct).2.forall (among one inside) (among two inside')
    differs
  rw [Function.onFun, Binding.names_observe, Binding.names_observe] at apart
  exact apart named named'

end Frame

/-- The frame of an invocation only gets more bindings. -/
theorem Lasting.grows (machine : Machine) (frame : Frame) :
    Lasting machine fun _ work => work.Entered fun later _ _ => frame.Grows later :=
  .entered fun gives grows => by
    obtain ⟨_, adds⟩ := SetUp.adds_setUpEntry gives
    exact grows.trans adds.frame

section
variable {main routine : Routine} {argument : Value} {start : World} {site : Site} {step : Step}
  {count : Nat} {now later : Standing} {frame frame' : Frame} {current current' : Work}
  {index index' : Nat} {entries entries' : List Entry} {other : TaskId} {spot : List Nat}

theorem Proceeds.grows (proceeds : Proceeds machine task place now later)
    (there : now.world.part? task place = some (.body frame current index entries))
    (there' : later.world.part? task place = some (.body frame' current' index' entries')) :
    frame.Grows frame' :=
  (Lasting.grows machine frame).proceeds proceeds (fun work found => by
    obtain rfl := Option.some.inj (found.symm.trans there)
    exact Frame.Grows.refl frame) _ there'

/-- As an invocation goes on from the start, it begins the entry of the site in the step from one
world to the next; and when the entry is set up, it is the turn of the step in the state. -/
def Site.Arrives (machine : Machine) (task : TaskId) (place : List Nat) (start : World)
    (site : Site) (step : Step) (world next : World) (state : SetUp.State) : Prop :=
  let entry : Entry := ⟨site.setting, site.context.fill step⟩
  let index := site.before.length
  ∃ bound frame value, Proceeds machine task place ⟨start, []⟩ ⟨world, bound⟩ ∧
    world.step? machine = some next ∧
    world.part? task place = some (.body frame (.done (.ok value)) index (entry :: site.after)) ∧
    next.part? task place =
      some (machine.begin world.tasks.length frame index entry site.after).work ∧
    SetUp.Arrives machine.registry site.setting step site.context
      ⟨frame, world.tasks.length, [], [.starting index site.setting]⟩ state

/-- A step has been set up when the invocation began its entry, and what goes on to hold of its work
since then holds of what it has come to. -/
theorem Site.ComesTo.setUp
    (comes : site.ComesTo machine task place start step count world other spot work)
    (plain : work.composed = false)
    (opens : Opens machine main argument routine task place start)
    (inside : routine.sequence = site.sequence step) (single : ∀ steps, step ≠ .tuple steps)
    (plainly : ∀ names inner, step ≠ .bind names inner) :
    ∃ first now begun frame value current later began inner ended,
      (⟨start, []⟩ : Standing).after? machine task place first = some now ∧
      GoesOn machine task place now begun ∧
      now.world.part? task place = some (.body frame (.done (.ok value)) site.before.length
        (⟨site.setting, site.context.fill step⟩ :: site.after)) ∧
      begun.world.part? task place =
        some (.body later current (site.before.length + 1) site.after) ∧
      begun.world.Reaches machine world ∧
      site.Arrives machine task place start step now.world begun.world began ∧
      (Runbook.setUp machine.registry site.setting step).Gives began inner ended ∧
      frame.Grows began.frame ∧ ended.frame.Grows later ∧
      ∀ {holds : World → Work → Prop}, Lasting machine holds → holds begun.world inner →
        holds world work := by
  obtain ⟨base, outer, carries, seat, _⟩ := comes
  cases position : site.context.seat machine.registry step with
  | mk number path =>
      rw [position] at carries seat
      cases carries with
      | own found begins rest entry =>
          obtain ⟨frame, value, own, state, began, inner, ended, there, gives, stands, _, arrives,
            sets, seated⟩ := begins.seats opens found inside single plainly
          have holds := seated.holds
          rw [position] at holds
          refine ⟨_, _, _, frame, value, own, state.frame, began, inner, ended, found, begins.1,
            there, stands, (Standing.steps_of_after? rest).reaches,
            ⟨_, frame, value, .of_after? found, begins.1.1, there, ?_, arrives⟩, sets,
            seated.early, seated.late, fun lasting here => ?_⟩
          · rw [Machine.begin_gives gives]
            exact stands
          · have first := CarriesOut.own found begins (Standing.after?_zero _)
              (World.performing stands)
            exact ((lasting.held path).carries first (.own found begins rest entry)
              (Nat.le_add_right _ _) (Work.held_of_seat holds here)).seat seat plain
      | started found begins steps task =>
          obtain ⟨frame, value, own, state, began, inner, ended, there, gives, stands, starts,
            arrives, sets, seated⟩ := begins.seats opens found inside single plainly
          have holds := seated.holds
          rw [position] at holds
          obtain ⟨outer, starts', holds⟩ := holds
          obtain ⟨fresh, begun, met⟩ := starts _ _ starts'
          obtain rfl : fresh = .fresh outer := met.elim id id
          refine ⟨_, _, _, frame, value, own, state.frame, began, inner, ended, found, begins.1,
            there, stands, steps.reaches,
            ⟨_, frame, value, .of_after? found, begins.1.1, there, ?_, arrives⟩, sets,
            seated.early, seated.late, fun lasting here => ?_⟩
          · rw [Machine.begin_gives gives]
            exact stands
          · have first := CarriesOut.started found begins .refl begun
            exact ((lasting.held path).carries first (.started found begins steps task)
              (Nat.le_add_right _ _) (.fresh (Work.held_of_seat holds here))).seat seat plain

/-- Of two times of an invocation the later one comes after the earlier one. -/
theorem Standing.onward {first second : Nat} (le : first ≤ second)
    (found : (⟨start, []⟩ : Standing).after? machine task place first = some now)
    (found' : (⟨start, []⟩ : Standing).after? machine task place second = some later) :
    Proceeds machine task place now later := by
  obtain ⟨more, rfl⟩ := Nat.exists_eq_add_of_le le
  rw [after?_add, found, Option.bind_some] at found'
  exact .of_after? found'

/-- A step that reads a name has come to see what the binding shows that has the name at any time.
-/
theorem Site.ComesTo.shows {name : Name} {seen : Outcome} {binding : Binding}
    {at' : Fin binding.names.length}
    (comes : site.ComesTo machine task place start (.read name) count world other spot (.done seen))
    (opens : Opens machine main argument routine task place start)
    (inside : routine.sequence = site.sequence (.read name))
    (distinct : ∀ {now : Standing} {frame : Frame} {current : Work} {index : Nat}
      {entries : List Entry}, Proceeds machine task place ⟨start, []⟩ now →
      now.world.part? task place = some (.body frame current index entries) → frame.names.Nodup)
    (reached : Proceeds machine task place ⟨start, []⟩ now)
    (there : now.world.part? task place = some (.body frame current index entries))
    (among : binding ∈ frame.bindings) (named : placeOf? name binding.names = some at') :
    binding.Shows world seen at' := by
  obtain ⟨first, before, begun, earlier, value, work, later, began, inner, ended, found, goesOn,
    stood, stands, _, _, sets, early, late, keeps⟩ :=
    comes.setUp rfl opens inside (fun steps => by simp) (fun names inner => by simp)
  rw [Runbook.setUp] at sets
  obtain ⟨meaning, means, reads, grows⟩ : ∃ meaning, began.frame.find? name = some meaning ∧
      meaning.binding.ReadBy begun.world inner meaning.place ∧ began.frame.Grows ended.frame := by
    rcases SetUp.read_cases sets with
      ⟨other, value, place, found, rfl, rfl⟩ | ⟨names, own, observed, place, found, rfl, rfl⟩
    · exact ⟨_, found, rfl, .refl _⟩
    · exact ⟨_, found, .waits, Frame.grows_observe _ _⟩
  have shows := (keeps (Lasting.readBy machine meaning.binding meaning.place) reads).shows
  obtain ⟨common, whole, one, two⟩ : ∃ common : Frame, common.names.Nodup ∧ frame.Grows common ∧
      began.frame.Grows common := by
    obtain ⟨count, reached'⟩ := Standing.after?_of_proceeds reached
    have next := Standing.after?_snoc found goesOn
    have grows := grows.trans late
    rcases Nat.lt_or_ge first count with less | le
    · have onward := (Standing.onward less next reached').grows stands there
      exact ⟨frame, distinct reached there, .refl _, grows.trans onward⟩
    · have onward := (Standing.onward le reached' found).grows there stood
      exact ⟨later, distinct (.of_after? next) stands, (onward.trans early).trans grows, grows⟩
  have same := Frame.Grows.same whole one two among (Frame.find?_mem means)
    (Frame.placeOf?_isSome_iff.mp (Option.isSome_of_eq_some named))
    (Frame.placeOf?_isSome_iff.mp (Option.isSome_of_eq_some (Frame.find?_place means)))
  exact shows.of_same same named (Frame.find?_place means)

end

/-- In no part of a work is a name registered twice, if it is not in the work. -/
theorem Work.Distinct.of_inside {index : Nat} (inside : work.inner? index = some inner)
    (distinct : work.Distinct) : inner.Distinct := by
  cases work with
  | gather shape members =>
      exact Work.distinct_gather.mp distinct inner (List.mem_of_getElem? inside)
  | after source next =>
      cases index with
      | zero =>
          cases inside
          exact distinct
      | succ index => cases inside
  | body frame current count entries =>
      cases index with
      | zero =>
          cases inside
          exact (List.forall_mem_cons.mp distinct).2
      | succ index => cases inside
  | _ => cases inside

/-- In no frame of a run of a compiled routine is a name bound twice. -/
theorem Compiles.frame_distinct {base registry : Registry} {program : Routine} {argument : Value}
    {frame : Frame} {current : Work} {index : Nat} {entries : List Entry}
    (compiles : Compiles base program)
    (reaches : (World.start program argument).Reaches ⟨registry, program.library⟩ world)
    (there : world.part? task place = some (.body frame current index entries)) :
    frame.names.Nodup := by
  have member {callee : Callee} {routine : Routine}
      (found : Library.get? program.library callee = some routine) : routine.binders.Nodup :=
    Library.binders_nodup compiles.distinct found
  obtain ⟨main, found, parameters, sequence⟩ := compiles.main
  have first : program.binders.Nodup := by
    rw [Routine.binders, parameters, sequence]
    exact member found
  obtain ⟨work, stands, there⟩ := Option.bind_eq_some_iff.mp there
  have whole := World.reaches_distinct first (fun _ _ => member) reaches task work stands
  exact (Work.inside Work.Distinct.of_inside there whole).names _ List.mem_cons_self

end

end Runbook
