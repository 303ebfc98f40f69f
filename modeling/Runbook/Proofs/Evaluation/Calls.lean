import Runbook.Proofs.Evaluation.Seats

/-!
The calls of an invocation.

An invocation begins each of its entries at most once, and with it the works of its steps. A step
calls its operation or procedure when its work goes on at its seat: no other work of a step ever
stands there, so that it calls at most once.
-/
namespace Runbook

/-- The work that performs the entry of that number, while an invocation performs it. -/
def Work.performing? (index : Nat) : Work → Option Work
  | .body _ current later _ => if later = index + 1 then some current else none
  | _ => none

/-- The work is that of an invocation. Until all its entries have succeeded, so it is with its
frame, how many entries it has begun, and those that it has still to begin. -/
def Work.Entered (holds : Frame → Nat → List Entry → Prop) : Work → Prop
  | .body frame _ index entries => holds frame index entries
  | .settle _ _ | .done _ | .broken _ => True
  | _ => False

/-- The invocation has begun the entry of that number, and maybe others. -/
def Work.Past (index : Nat) : Work → Prop := Entered fun _ later _ => index < later

/-- The invocation has begun the entry of that number, and the work of it is such while the
invocation performs it. -/
def Work.During (index : Nat) (holds : Work → Prop) (work : Work) : Prop :=
  work.Past (index + 1) ∨ ∃ frame current entries,
    work = .body frame current (index + 1) entries ∧ holds current

variable {machine : Machine} {world next : World} {task : TaskId} {place path : List Nat}
  {index : Nat} {work : Work} {change : Change}

theorem Work.performing?_eq_some {current : Work} : work.performing? index = some current ↔
    ∃ frame entries, work = .body frame current (index + 1) entries := by
  constructor
  · intro found
    cases work with
    | body frame current later entries =>
        rw [performing?] at found
        split at found
        · rename_i same
          subst same
          cases found
          exact ⟨frame, entries, rfl⟩
        · cases found
    | _ => cases found
  · rintro ⟨frame, entries, rfl⟩
    exact if_pos rfl

theorem World.performing {frame : Frame} {current : Work} {entries : List Entry}
    (there : world.part? task place = some (.body frame current (index + 1) entries)) :
    (world.part? task place).bind (Work.performing? index) = some current := by
  rw [there]
  exact if_pos rfl

namespace Work

/-- Where the work of a step stands, its place leads to it. -/
theorem part?_of_seat {inner : Work} (there : work.seat? path = some inner) :
    work.part? path = some inner := by
  induction path generalizing work with
  | nil => exact there
  | cons index path ih =>
      obtain ⟨part, operand, there⟩ := Option.bind_eq_some_iff.mp there
      refine Option.bind_eq_some_iff.mpr ⟨part, ?_, ih there⟩
      cases work with
      | gather shape members => exact operand
      | after source next =>
          cases index with
          | zero => exact operand
          | succ index => cases operand
      | _ => cases operand

theorem part?_append {first rest : List Nat} : work.part? (first ++ rest) =
    (work.part? first).bind (part? rest) := by
  induction first generalizing work with
  | nil => rfl
  | cons index first ih =>
      rw [List.cons_append, part?, part?, Option.bind_assoc]
      exact congrArg _ (funext fun _ => ih)

end Work

/-- What holds of a work and of all that is inside what it holds of holds of its parts. -/
theorem Work.inside {holds : Work → Prop} {part : Work}
    (inner : ∀ {work part : Work} {index : Nat}, work.inner? index = some part → holds work →
      holds part)
    (there : work.part? path = some part) (here : holds work) : holds part := by
  induction path generalizing work with
  | nil =>
      cases there
      exact here
  | cons index path ih =>
      obtain ⟨outer, within, there⟩ := Option.bind_eq_some_iff.mp there
      exact ih there (inner within here)

/-- Only a defect is changed when it is met. -/
theorem Work.eq_of_going {after : Work} (met : after = work ∨ after = work.meet)
    (going : after.ended? = none) : work = after := by
  rcases met with same | same
  · exact same.symm
  · cases work with
    | broken defect =>
        rw [same] at going
        cases going
    | _ => exact same.symm

/-- What holds of a work in a world goes on to hold as the work moves and the world goes on. -/
structure Lasting (machine : Machine) (holds : World → Work → Prop) : Prop where
  moves : ∀ {world : World} {work : Work} {change : Change}, Moves machine world work change →
    holds world work → holds world change.work
  meet : ∀ {world : World} {work : Work}, holds world work → holds world work.meet
  goes : ∀ {world next : World} {work : Work}, world.Goes machine next → holds world work →
    holds next work

section
variable {holds : Work → Prop} {current : Work}

theorem Work.During.performing (during : work.During index holds)
    (entry : work.performing? index = some current) : holds current := by
  obtain ⟨frame, entries, rfl⟩ := Work.performing?_eq_some.mp entry
  rcases during with past | ⟨_, _, _, same, here⟩
  · exact absurd past (Nat.lt_irrefl _)
  · cases same
    exact here

theorem Work.During.of_performing (entry : work.performing? index = some current)
    (here : holds current) : work.During index holds := by
  obtain ⟨frame, entries, rfl⟩ := Work.performing?_eq_some.mp entry
  exact .inr ⟨frame, current, entries, rfl, here⟩

end

namespace Lasting

/-- What entries keep as they are begun holds of an invocation throughout. -/
theorem entered {machine : Machine} {holds : Frame → Nat → List Entry → Prop}
    (begins : ∀ {frame : Frame} {next : TaskId} {index : Nat} {entry : Entry} {entries : List Entry}
      {work : Work} {state : SetUp.State},
      (setUpEntry machine.registry index entries.isEmpty entry).Gives ⟨frame, next, [], []⟩ work
        state → holds frame index (entry :: entries) → holds state.frame (index + 1) entries) :
    Lasting machine fun _ work => work.Entered holds where
  moves := by
    intro world work change moves entered
    cases moves with
    | @begin frame value index entry entries =>
        rcases machine.begin_cases world.tasks.length frame index entry entries with
          ⟨_, _, gives, same⟩ | ⟨_, _, _, same⟩
        · rw [same]
          exact begins gives entered
        · rw [same]
          trivial
    | last => trivial
    | bodyFails => trivial
    | bodyBreaks => trivial
    | current _ => exact entered
    | settled => trivial
    | settle _ settles =>
        rcases Moves.settle_cases settles with rfl | ⟨ended, _, ends, rfl⟩
        · trivial
        · cases ended with
          | done outcome => trivial
          | broken defect => trivial
          | _ => cases ends
    | _ => cases entered
  meet := by
    intro world work entered
    cases work with
    | broken defect => trivial
    | _ => exact entered
  goes := fun _ entered => entered

/-- What an invocation has begun stays begun. -/
theorem past (machine : Machine) (index : Nat) :
    Lasting machine fun _ work => work.Past index :=
  entered fun _ past => Nat.lt_succ_of_lt past

theorem spent (machine : Machine) (path : List Nat) :
    Lasting machine fun _ work => work.Spent path where
  moves := fun moves spent => moves.spent spent
  meet := fun spent => spent.meet
  goes := fun _ spent => spent

variable {holds : World → Work → Prop} (lasting : Lasting machine holds)
include lasting

/-- What goes on to hold of the work of an entry does so while it is performed. -/
theorem during (index : Nat) :
    Lasting machine fun world work => work.During index (holds world) where
  moves := by
    intro world work change moves during
    rcases during with past | ⟨frame, current, entries, rfl, here⟩
    · exact .inl ((Lasting.past machine (index + 1)).moves moves past)
    · cases moves with
      | @begin _ value _ entry entries =>
          rcases machine.begin_sets world.tasks.length frame (index + 1) entry entries with
            ⟨_, _, _, _, same, _⟩ | ⟨_, _, _, same⟩
          · rw [same]
            exact .inl (Nat.lt_succ_self _)
          · rw [same]
            exact .inl trivial
      | current moves => exact .inr ⟨frame, _, entries, rfl, lasting.moves moves here⟩
      | _ => exact .inl trivial
  meet := by
    intro world work during
    rcases during with past | ⟨frame, current, entries, rfl, here⟩
    · exact .inl (@(Lasting.past machine (index + 1)).meet world _ past)
    · exact .inr ⟨frame, current, entries, rfl, here⟩
  goes := by
    intro world next work goes during
    rcases during with past | ⟨frame, current, entries, rfl, here⟩
    · exact .inl past
    · exact .inr ⟨frame, current, entries, rfl, lasting.goes goes here⟩

/-- What holds of the work of a task holds of it later. -/
theorem reaches {last : World} (reaches : world.Reaches machine last)
    (there : world.tasks[task]? = some work) (here : holds world work) :
    ∃ later, last.tasks[task]? = some later ∧ holds last later := by
  let stands (world : World) : Prop := ∃ work, world.tasks[task]? = some work ∧ holds world work
  suffices step : ∀ {world next : World}, stands world → world.Goes machine next → stands next from
    reaches.keeps step ⟨work, there, here⟩
  rintro world next ⟨work, there, here⟩ goes
  obtain ⟨later, origin, now, met, source⟩ := goes.stands there
  have moved : holds world origin := by
    rcases source with rfl | ⟨change, moves, rfl⟩
    · exact here
    · exact lasting.moves moves here
  rcases met with rfl | rfl
  · exact ⟨_, now, lasting.goes goes moved⟩
  · exact ⟨_, now, lasting.goes goes (lasting.meet moved)⟩

variable {now later : Standing}

/-- What holds of an invocation holds of it in the next step. -/
theorem goesOn (goesOn : GoesOn machine task place now later)
    (before : ∀ work, now.world.part? task place = some work → holds now.world work) :
    ∀ work, later.world.part? task place = some work → holds later.world work := by
  obtain ⟨stepped, work, after, there, going, later', _⟩ := goesOn
  intro other found
  obtain rfl := Option.some.inj (found.symm.trans later')
  have first := before work there
  have step := World.step?_goes stepped
  refine lasting.goes step ?_
  rcases step.part there going later' with rfl | ⟨change, moved, same⟩
  · exact first
  · have moved := lasting.moves moved first
    rcases same with rfl | rfl
    · exact moved
    · exact lasting.meet moved

/-- What holds of an invocation holds of it later. -/
theorem proceeds (proceeds : Proceeds machine task place now later)
    (before : ∀ work, now.world.part? task place = some work → holds now.world work) :
    ∀ work, later.world.part? task place = some work → holds later.world work := by
  induction proceeds with
  | refl => exact before
  | tail _ goesOn ih => exact lasting.goesOn goesOn ih

end Lasting

variable {now later : Standing} {count : Nat}

theorem GoesOn.unique {other : Standing} (goesOn : GoesOn machine task place now later)
    (again : GoesOn machine task place now other) : later = other := by
  obtain ⟨stepped, before, after, there, _, stands, bound⟩ := goesOn
  obtain ⟨stepped', before', after', there', _, stands', bound'⟩ := again
  obtain ⟨world, tasks⟩ := later
  obtain ⟨world', tasks'⟩ := other
  dsimp only at stepped stepped' stands stands' bound bound'
  obtain rfl := Option.some.inj (stepped.symm.trans stepped')
  obtain rfl := Option.some.inj (there.symm.trans there')
  obtain rfl := Option.some.inj (stands.symm.trans stands')
  rw [bound, bound']

namespace Standing

variable {start : Standing}

theorem after?_succ : now.after? machine task place (count + 1) = some later ↔
    ∃ next, GoesOn machine task place now next ∧ next.after? machine task place count =
      some later := by
  rw [after?]
  constructor
  · intro found
    split at found
    · rename_i next before stepped there
      split at found
      · exact ⟨_, ⟨stepped, before, _, there, ‹_›, ‹_›, rfl⟩, found⟩
      · cases found
    · cases found
  · rintro ⟨⟨next, bound⟩, ⟨stepped, before, after, there, going, stands, same⟩, rest⟩
    dsimp only at stepped stands same
    subst same
    rw [stepped, there]
    dsimp only
    rw [going, stands]
    exact rest

theorem after?_zero (now : Standing) : now.after? machine task place 0 = some now := rfl

theorem after?_add {first rest : Nat} : start.after? machine task place (first + rest) =
    (start.after? machine task place first).bind (after? machine task place rest) := by
  induction first generalizing start with
  | zero => rw [Nat.zero_add]; rfl
  | succ first ih =>
      apply Option.ext
      intro later
      rw [Nat.succ_add, after?_succ, Option.bind_eq_some_iff]
      constructor
      · rintro ⟨next, goesOn, found⟩
        rw [ih] at found
        obtain ⟨now, found, rest⟩ := Option.bind_eq_some_iff.mp found
        exact ⟨now, after?_succ.mpr ⟨next, goesOn, found⟩, rest⟩
      · rintro ⟨now, found, rest⟩
        obtain ⟨next, goesOn, found⟩ := after?_succ.mp found
        exact ⟨next, goesOn, ih.trans (Option.bind_eq_some_iff.mpr ⟨now, found, rest⟩)⟩

theorem after?_snoc {last : Standing} (found : now.after? machine task place count = some later)
    (goesOn : GoesOn machine task place later last) :
    now.after? machine task place (count + 1) = some last := by
  rw [after?_add, found, Option.bind_some]
  exact after?_succ.mpr ⟨last, goesOn, rfl⟩

theorem steps_of_after? (found : now.after? machine task place count = some later) :
    World.Steps machine count now.world later.world := by
  induction count generalizing now with
  | zero =>
      cases found
      exact .refl
  | succ count ih =>
      obtain ⟨next, goesOn, rest⟩ := after?_succ.mp found
      exact .head goesOn.1 (ih rest)

theorem after?_of_proceeds (proceeds : Proceeds machine task place now later) :
    ∃ count, now.after? machine task place count = some later := by
  induction proceeds using Relation.ReflTransGen.head_induction_on with
  | refl => exact ⟨0, rfl⟩
  | head goesOn _ ih =>
      obtain ⟨count, found⟩ := ih
      exact ⟨count + 1, after?_succ.mpr ⟨_, goesOn, found⟩⟩

/-- In the step from one standing to the other the invocation begins its entry of that number. -/
def Begins (machine : Machine) (task : TaskId) (place : List Nat) (index : Nat)
    (now begun : Standing) : Prop :=
  GoesOn machine task place now begun ∧
    (∃ frame value entries,
      now.world.part? task place = some (.body frame (.done (.ok value)) index entries)) ∧
    ∃ work, (begun.world.part? task place).bind (Work.performing? index) = some work

variable {now' begun begun' : Standing} {first second : Nat}

theorem Begins.past (begins : Begins machine task place index now begun) :
    ∀ work, begun.world.part? task place = some work → work.Past index := by
  obtain ⟨_, _, current, entry⟩ := begins
  intro work there
  rw [there] at entry
  obtain ⟨frame, entries, rfl⟩ := Work.performing?_eq_some.mp entry
  exact Nat.lt_succ_self index

/-- What an invocation has once come to it does not begin anew. -/
theorem Begins.not_past (begins : Begins machine task place index now begun) :
    ∃ work, now.world.part? task place = some work ∧ ¬work.Past index := by
  obtain ⟨_, ⟨frame, value, entries, there⟩, _⟩ := begins
  exact ⟨_, there, Nat.lt_irrefl index⟩

/-- When an invocation begins an entry, the entry is set up, and the tasks that this starts are
there afterwards. -/
theorem Begins.setsUp (begins : Begins machine task place index now begun) :
    ∃ frame value entry entries work state,
      now.world.part? task place = some (.body frame (.done (.ok value)) index (entry :: entries)) ∧
      (setUpEntry machine.registry index entries.isEmpty entry).Gives
        ⟨frame, now.world.tasks.length, [], []⟩ work state ∧
      begun.world.part? task place = some (.body state.frame work (index + 1) entries) ∧
      ∀ (number : Nat) (work : Work), state.started[number]? = some work →
        ∃ found, begun.world.tasks[now.world.tasks.length + number]? = some found ∧
          (found = work ∨ found = work.meet) := by
  obtain ⟨⟨stepped, before, after, there, going, later, _⟩, ⟨frame, value, entries, stands⟩,
    work, performs⟩ := begins
  obtain rfl := Option.some.inj (stands.symm.trans there)
  rw [later, Option.bind_some] at performs
  obtain ⟨frame', entries', rfl⟩ := Work.performing?_eq_some.mp performs
  rcases (World.step?_goes stepped).part_starts there going later with
    same | ⟨change, moves, same, starts⟩
  · cases same
  · replace same := Work.eq_of_going same rfl
    cases moves with
    | last => cases same
    | current moves => cases moves
    | @begin _ _ _ entry entries =>
        rcases machine.begin_cases now.world.tasks.length frame index entry entries with
          ⟨current, state, gives, begin⟩ | ⟨_, _, _, broken⟩
        · rw [begin] at same starts
          cases same
          exact ⟨frame, value, entry, entries', work, state, there, gives, later, starts⟩
        · rw [broken] at same
          cases same

/-- Of two times in an invocation one comes first, and the other after the step that follows. -/
theorem goes_through (less : first < second)
    (found : start.after? machine task place first = some now)
    (goesOn : GoesOn machine task place now begun)
    (found' : start.after? machine task place second = some now') :
    Proceeds machine task place begun now' := by
  obtain ⟨more, rfl⟩ := Nat.exists_eq_add_of_lt less
  rw [Nat.add_assoc, after?_add, found, Option.bind_some] at found'
  obtain ⟨next, again, rest⟩ := after?_succ.mp found'
  obtain rfl := goesOn.unique again
  exact .of_after? rest

/-- An invocation begins an entry at most once. -/
theorem Begins.once (found : start.after? machine task place first = some now)
    (begins : Begins machine task place index now begun)
    (found' : start.after? machine task place second = some now')
    (begins' : Begins machine task place index now' begun') : first = second := by
  have never {first second : Nat} {now begun now' begun' : Standing} (less : first < second)
      (found : start.after? machine task place first = some now)
      (begins : Begins machine task place index now begun)
      (found' : start.after? machine task place second = some now')
      (begins' : Begins machine task place index now' begun') : False := by
    have proceeds := goes_through less found begins.1 found'
    obtain ⟨work, there, fresh⟩ := begins'.not_past
    exact fresh ((Lasting.past machine index).proceeds proceeds begins.past work there)
  rcases Nat.lt_trichotomy first second with less | same | more
  · exact (never less found begins found' begins').elim
  · exact same
  · exact (never more found' begins' found begins).elim

end Standing

/-- Is an operation or a procedure called? -/
def Continuation.calls : Continuation → Bool
  | .pick _ _ => false
  | _ => true

/-- Does the step call an operation or a procedure? -/
def Step.calls : Step → Bool
  | .invoke _ _ | .call _ _ => true
  | _ => false

/-- What the step does with the value of its argument, if it calls an operation or a procedure. -/
inductive Step.Uses (registry : Registry) : Step → Continuation → Prop
  | invoke {name : Identifier} {argument : Step} {primitive : Primitive} :
      registry.lookup name = some primitive →
      (∀ operator left right, primitive.operator = some operator →
        argument ≠ .tuple [left, right]) →
      Uses registry (.invoke name argument) (.invoke primitive)
  | operands {name : Identifier} {left right : Step} {primitive : Primitive} {operator : Operator} :
      registry.lookup name = some primitive → primitive.operator = some operator →
      Uses registry (.invoke name (.tuple [left, right])) (.join primitive)
  | call {callee : Callee} {argument : Step} : Uses registry (.call callee argument) (.call callee)

theorem Step.Uses.unique {registry : Registry} {step : Step} {use other : Continuation}
    (uses : step.Uses registry use) (again : step.Uses registry other) : use = other := by
  cases uses with
  | invoke found whole =>
      cases again with
      | invoke found' _ =>
          rw [found] at found'
          cases found'
          rfl
      | operands found' operates =>
          rw [found] at found'
          cases found'
          exact absurd rfl (whole _ _ _ operates)
  | operands found operates =>
      cases again with
      | invoke found' whole =>
          rw [found] at found'
          cases found'
          exact absurd rfl (whole _ _ _ operates)
      | operands found' _ =>
          rw [found] at found'
          cases found'
          rfl
  | call =>
      cases again
      rfl

theorem Step.Uses.calls {registry : Registry} {step : Step} {use : Continuation}
    (uses : step.Uses registry use) : use.calls = true := by
  cases uses <;> rfl

/-- So many steps after the invocation has begun at the place, in the world: where the work is that
performs its entry of the index or, if a number is given, that of the task of that number among
those that were started with the entry; and the work. -/
inductive CarriesOut (machine : Machine) (task : TaskId) (place : List Nat) (start : World)
    (index : Nat) : Option Nat → Nat → World → TaskId → List Nat → Work → Prop
  | own {count more : Nat} {now begun later : Standing} {work : Work} :
      (⟨start, []⟩ : Standing).after? machine task place count = some now →
      Standing.Begins machine task place index now begun →
      begun.after? machine task place more = some later →
      (later.world.part? task place).bind (Work.performing? index) = some work →
      CarriesOut machine task place start index none (count + 1 + more) later.world task
        (place ++ [0]) work
  | started {count more number : Nat} {now begun : Standing} {world : World} {work : Work} :
      (⟨start, []⟩ : Standing).after? machine task place count = some now →
      Standing.Begins machine task place index now begun →
      World.Steps machine more begun.world world →
      world.tasks[now.world.tasks.length + number]? = some work →
      CarriesOut machine task place start index (some number) (count + 1 + more) world
        (now.world.tasks.length + number) [] work

namespace Site

/-- So many steps after the invocation has begun at the place, in the world, the step at the site
has come to the work, which is at the spot in the other task. -/
def ComesTo (machine : Machine) (task : TaskId) (place : List Nat) (start : World) (site : Site)
    (step : Step) (count : Nat) (world : World) (other : TaskId) (spot : List Nat)
    (work : Work) : Prop :=
  let seat := site.context.seat machine.registry step
  ∃ base outer,
    CarriesOut machine task place start site.before.length seat.task count world other base outer ∧
      outer.seat? seat.path = some work ∧ spot = base ++ seat.path

/-- So many steps after the invocation has begun at the place, the step at the site calls its
operation or its procedure at the spot in the other task: its work goes on with the value that it
has waited for. -/
def Calls (machine : Machine) (task : TaskId) (place : List Nat) (start : World) (site : Site)
    (step : Step) (count : Nat) (other : TaskId) (spot : List Nat) : Prop :=
  ∃ world next use value, step.Uses machine.registry use ∧
    site.ComesTo machine task place start step count world other spot
      (.after (.done (.ok value)) use) ∧
    site.ComesTo machine task place start step (count + 1) next other spot
      (machine.goOn world.clock value use).work

end Site

/-- In the next step, what stands at the place in the task goes on with a value to call an operation
or a procedure. -/
def World.CallsAt (machine : Machine) (world : World) (task : TaskId) (place : List Nat)
    (use : Continuation) : Prop :=
  use.calls = true ∧ ∃ next value, world.step? machine = some next ∧
    world.part? task place = some (.after (.done (.ok value)) use) ∧
    next.part? task place = some (machine.goOn world.clock value use).work

namespace World

theorem Steps.append {first rest : Nat} {middle last : World}
    (steps : Steps machine first world middle) (more : Steps machine rest middle last) :
    Steps machine (first + rest) world last := by
  induction steps with
  | refl =>
      rw [Nat.zero_add]
      exact more
  | head stepped _ ih =>
      rw [Nat.succ_add]
      exact .head stepped (ih more)

theorem Steps.unique {first : Nat} {last other : World} (steps : Steps machine first world last)
    (again : Steps machine first world other) : last = other := by
  induction steps with
  | refl =>
      cases again
      rfl
  | head stepped _ ih =>
      cases again with
      | head stepped' rest =>
          obtain rfl := Option.some.inj (stepped.symm.trans stepped')
          exact ih rest

/-- One step more is a step of the world that was there before. -/
theorem Steps.step {first : Nat} {middle last : World} (steps : Steps machine first world middle)
    (more : Steps machine (first + 1) world last) : middle.step? machine = some last := by
  induction steps with
  | refl =>
      cases more with
      | head stepped rest =>
          cases rest
          exact stepped
  | head stepped _ ih =>
      cases more with
      | head stepped' rest =>
          obtain rfl := Option.some.inj (stepped.symm.trans stepped')
          exact ih rest

/-- Of two times in a run the later one comes after the earlier one. -/
theorem Steps.through {first second : Nat} {start other : World} (le : first ≤ second)
    (steps : Steps machine first start world) (steps' : Steps machine second start other) :
    world.Reaches machine other := by
  induction steps generalizing second with
  | refl => exact steps'.reaches
  | head begins _ ih =>
      cases steps' with
      | refl => exact absurd le (Nat.not_succ_le_zero _)
      | head again rest =>
          obtain rfl := Option.some.inj (again.symm.trans begins)
          exact ih (Nat.le_of_succ_le_succ le) rest

end World

section
variable {start later : World} {number : Option Nat} {first second : Nat}
  {holds : World → Work → Prop} {outer outer' : Work} {other other' : TaskId}
  {base base' spot spot' : List Nat}

theorem CarriesOut.steps
    (carries : CarriesOut machine task place start index number first world other base outer) :
    World.Steps machine first start world := by
  have whole {count more : Nat} {now begun : Standing}
      (found : (⟨start, []⟩ : Standing).after? machine task place count = some now)
      (begins : Standing.Begins machine task place index now begun)
      (rest : World.Steps machine more begun.world world) :
      World.Steps machine (count + 1 + more) start world := by
    rw [Nat.add_assoc, Nat.add_comm 1]
    exact (Standing.steps_of_after? found).append (.head begins.1.1 rest)
  cases carries with
  | own found begins rest _ => exact whole found begins (Standing.steps_of_after? rest)
  | started found begins rest _ => exact whole found begins rest

/-- The work stays where it is. -/
theorem CarriesOut.still
    (carries : CarriesOut machine task place start index number first world other base outer)
    (again : CarriesOut machine task place start index number second later other' base' outer') :
    other = other' ∧ base = base' := by
  cases carries with
  | own => cases again with | own => exact ⟨rfl, rfl⟩
  | started found begins _ _ =>
      cases again with
      | started found' begins' _ _ =>
          obtain rfl := begins.once found found' begins'
          obtain rfl := Option.some.inj (found.symm.trans found')
          exact ⟨rfl, rfl⟩

theorem CarriesOut.part
    (carries : CarriesOut machine task place start index number first world other base outer) :
    world.part? other base = some outer := by
  cases carries with
  | own _ _ _ entry =>
      obtain ⟨work, there, entry⟩ := Option.bind_eq_some_iff.mp entry
      obtain ⟨frame, entries, rfl⟩ := Work.performing?_eq_some.mp entry
      obtain ⟨whole, stands, there⟩ := Option.bind_eq_some_iff.mp there
      rw [World.part?, stands, Option.bind_some, Work.part?_append, there]
      rfl
  | started _ _ _ there =>
      rw [World.part?, there]
      rfl

/-- What goes on to hold of the work that the entry or the task has come to holds later. -/
theorem Lasting.carries (lasting : Lasting machine holds)
    (carries : CarriesOut machine task place start index number first world other base outer)
    (again : CarriesOut machine task place start index number second later other' base' outer')
    (le : first ≤ second) (here : holds world outer) : holds later outer' := by
  cases carries with
  | own found begins rest entry =>
      cases again with
      | own found' begins' rest' entry' =>
          obtain rfl := begins.once found found' begins'
          obtain rfl := Option.some.inj (found.symm.trans found')
          obtain rfl := begins.1.unique begins'.1
          obtain ⟨more, rfl⟩ := Nat.exists_eq_add_of_le (Nat.le_of_add_le_add_left le)
          rw [Standing.after?_add, rest, Option.bind_some] at rest'
          obtain ⟨work, there, entry⟩ := Option.bind_eq_some_iff.mp entry
          obtain ⟨work', there', entry'⟩ := Option.bind_eq_some_iff.mp entry'
          refine ((lasting.during index).proceeds (.of_after? rest') ?_ work' there').performing
            entry'
          intro found stands
          obtain rfl := Option.some.inj (stands.symm.trans there)
          exact .of_performing entry here
  | started found begins steps there =>
      cases again with
      | started found' begins' steps' there' =>
          obtain rfl := begins.once found found' begins'
          obtain rfl := Option.some.inj (found.symm.trans found')
          obtain rfl := begins.1.unique begins'.1
          have reaches := steps.through (Nat.le_of_add_le_add_left le) steps'
          obtain ⟨work, stands, holds⟩ := lasting.reaches reaches there here
          obtain rfl := Option.some.inj (stands.symm.trans there')
          exact holds

namespace Site

variable {site : Site} {step : Step} {work' : Work}

theorem ComesTo.of_seat {path : List Nat} {number : Option Nat}
    (seat : site.context.seat machine.registry step = ⟨number, path⟩)
    (carries : CarriesOut machine task place start site.before.length number first world other base
      outer)
    (there : outer.seat? path = some work) :
    site.ComesTo machine task place start step first world other (base ++ path) work := by
  rw [ComesTo, seat]
  exact ⟨base, outer, carries, there, rfl⟩

theorem ComesTo.steps (comes : site.ComesTo machine task place start step first world other spot
    work) : World.Steps machine first start world := by
  obtain ⟨base, outer, carries, _⟩ := comes
  exact carries.steps

theorem ComesTo.part (comes : site.ComesTo machine task place start step first world other spot
    work) : world.part? other spot = some work := by
  obtain ⟨base, outer, carries, there, rfl⟩ := comes
  obtain ⟨whole, stands, inside⟩ := Option.bind_eq_some_iff.mp carries.part
  rw [World.part?, stands, Option.bind_some, Work.part?_append, inside, Option.bind_some]
  exact Work.part?_of_seat there

/-- The call of a step is one in the run, so many steps after the invocation has begun. -/
theorem Calls.callsAt {use : Continuation} (steps : World.Steps machine first start world)
    (uses : step.Uses machine.registry use)
    (calls : site.Calls machine task place start step first other spot) :
    world.CallsAt machine other spot use := by
  obtain ⟨world, next, use, value, uses', waits, gone⟩ := calls
  obtain rfl := uses.unique uses'
  obtain rfl := steps.unique waits.steps
  exact ⟨uses.calls, next, value, steps.step gone.steps, waits.part, gone.part⟩

/-- The work of a step that has gone on does not come back. -/
theorem ComesTo.uncomposed
    (comes : site.ComesTo machine task place start step first world other spot work)
    (again : site.ComesTo machine task place start step second later other' spot' work')
    (le : first ≤ second) (plain : work.composed = false) : work'.composed = false := by
  obtain ⟨base, outer, carries, there, _⟩ := comes
  obtain ⟨base', outer', carries', there', _⟩ := again
  exact ((Lasting.spent machine _).carries carries carries' le
    (Work.spent_of_seat there plain)).seat there'

/-- In an invocation each step calls at most once: at one time, and at one place. -/
theorem Calls.once (calls : site.Calls machine task place start step first other spot)
    (again : site.Calls machine task place start step second other' spot') :
    first = second ∧ other = other' ∧ spot = spot' := by
  have never {first second : Nat} {other other' : TaskId} {spot spot' : List Nat}
      (calls : site.Calls machine task place start step first other spot)
      (again : site.Calls machine task place start step second other' spot') :
      ¬first < second := by
    intro less
    obtain ⟨world, _, use, value, _, _, gone⟩ := calls
    obtain ⟨_, _, _, _, _, waits, _⟩ := again
    cases gone.uncomposed waits less (machine.goOn_uncomposed world.clock value use)
  refine ⟨Nat.le_antisymm (Nat.le_of_not_lt (never again calls))
    (Nat.le_of_not_lt (never calls again)), ?_⟩
  obtain ⟨_, _, _, _, _, ⟨_, _, carries, _, rfl⟩, _⟩ := calls
  obtain ⟨_, _, _, _, _, ⟨_, _, carries', _, rfl⟩, _⟩ := again
  obtain ⟨rfl, rfl⟩ := carries.still carries'
  exact ⟨rfl, rfl⟩

end Site

end

end Runbook
