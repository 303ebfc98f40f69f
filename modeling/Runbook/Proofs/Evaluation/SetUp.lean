import Runbook.Evaluation.Work
import Runbook.Proofs.Lowering.Supported
import Mathlib.Data.List.Induction

/-!
What setting steps up makes of them.

`SetsUp` says it without the state that setting up passes on: from a frame and the number of the
next task, steps become works, tasks are started, and the frame gets their bindings. What holds of
works that are set up is proved by induction on it. Steps that are supported can be set up.
-/
namespace Runbook

/-- The task of a binding, if it has one. -/
def Binding.task? : Binding → Option TaskId
  | .started _ task _ => some task
  | .parameter _ _ => none

namespace Frame

def names (frame : Frame) : List Name := frame.bindings.flatMap Binding.names

/-- The tasks that the frame has the values of its names from. -/
def tasks (frame : Frame) : List TaskId := frame.bindings.filterMap Binding.task?

@[simp] theorem names_add (frame : Frame) (binding : Binding) :
    (frame.add binding).names = frame.names ++ binding.names := by
  simp [add, names]

@[simp] theorem tasks_add (frame : Frame) (binding : Binding) :
    (frame.add binding).tasks = frame.tasks ++ binding.task?.toList := by
  cases task : binding.task? <;> simp [add, tasks, task]

theorem placeOf?_isSome {name : Name} {names : List Name} (member : name ∈ names) :
    (placeOf? name names).isSome := by
  induction names with
  | nil => cases member
  | cons other names ih =>
      rw [placeOf?]
      split
      · rfl
      · rename_i missing
        rcases List.mem_cons.mp member with rfl | member
        · simp
        · rw [missing] at ih
          exact absurd (ih member) Bool.false_ne_true

theorem placeOf?_isSome_iff {name : Name} {names : List Name} :
    (placeOf? name names).isSome ↔ name ∈ names := by
  refine ⟨fun some => ?_, placeOf?_isSome⟩
  induction names with
  | nil => cases some
  | cons other names ih =>
      rw [placeOf?] at some
      split at some
      · rename_i place found
        rw [found] at ih
        exact List.mem_cons_of_mem _ (ih rfl)
      · split at some
        · rename_i same
          rw [same]
          exact List.mem_cons_self
        · cases some

theorem find?_add (frame : Frame) (binding : Binding) (name : Name) :
    (frame.add binding).find? name =
      match placeOf? name binding.names with
      | some place => some ⟨binding, place⟩
      | none => frame.find? name := by
  obtain ⟨bindings⟩ := frame
  simp only [find?, add]
  induction bindings with
  | nil =>
      simp only [List.nil_append, findIn?]
      cases placeOf? name binding.names <;> rfl
  | cons first bindings ih =>
      rw [List.cons_append, findIn?, ih]
      cases placeOf? name binding.names <;> rfl

theorem observe_add (frame : Frame) (binding : Binding) (name : Name) :
    (frame.add binding).observe name =
      if name ∈ binding.names then frame.add binding.observe
      else (frame.observe name).add binding := by
  obtain ⟨bindings⟩ := frame
  simp only [observe, add]
  by_cases inside : name ∈ binding.names
  · have last : observeIn? name (bindings ++ [binding]) = some (bindings ++ [binding.observe]) := by
      induction bindings with
      | nil => rw [List.nil_append, observeIn?, observeIn?, if_pos inside]; rfl
      | cons first bindings ih => rw [List.cons_append, observeIn?, ih]; rfl
    rw [last, if_pos inside]
    rfl
  · have earlier : observeIn? name (bindings ++ [binding]) =
        (observeIn? name bindings).map (· ++ [binding]) := by
      induction bindings with
      | nil => rw [List.nil_append, observeIn?, observeIn?, if_neg inside]; rfl
      | cons first bindings ih =>
          rw [List.cons_append, observeIn?, ih, observeIn?]
          cases observeIn? name bindings with
          | some observed => rfl
          | none => by_cases here : name ∈ first.names <;> simp [here]
    rw [earlier, if_neg inside]
    cases observeIn? name bindings <;> rfl

theorem find?_isSome {frame : Frame} {name : Name} (member : name ∈ frame.names) :
    (frame.find? name).isSome := by
  obtain ⟨bindings⟩ := frame
  obtain ⟨binding, inside, named⟩ := List.mem_flatMap.mp member
  change (findIn? name bindings).isSome
  clear member
  induction bindings with
  | nil => cases inside
  | cons first bindings ih =>
      rw [findIn?]
      split
      · rfl
      · rename_i missing
        rcases List.mem_cons.mp inside with rfl | inside
        · rw [Option.isSome_map]
          exact placeOf?_isSome named
        · rw [missing] at ih
          exact absurd (ih inside) Bool.false_ne_true

/-- What a name means is a binding of the frame. -/
theorem find?_mem {frame : Frame} {name : Name} {meaning : Meaning}
    (found : frame.find? name = some meaning) : meaning.binding ∈ frame.bindings := by
  obtain ⟨bindings⟩ := frame
  change findIn? name bindings = some meaning at found
  change meaning.binding ∈ bindings
  induction bindings with
  | nil => cases found
  | cons first bindings ih =>
      rw [findIn?] at found
      split at found
      · rename_i other there
        rw [Option.some.inj found] at there
        exact List.mem_cons_of_mem _ (ih there)
      · obtain ⟨place, _, rfl⟩ := Option.map_eq_some_iff.mp found
        exact List.mem_cons_self

theorem observeIn?_map {name : Name} {bindings observed : List Binding}
    (done : observeIn? name bindings = some observed) :
    observed.map Binding.names = bindings.map Binding.names ∧
      observed.map Binding.task? = bindings.map Binding.task? := by
  induction bindings generalizing observed with
  | nil => cases done
  | cons first bindings ih =>
      rw [observeIn?] at done
      split at done
      · rename_i others later
        obtain ⟨names, tasks⟩ := ih later
        rw [← Option.some.inj done]
        simp only [List.map_cons, names, tasks, and_self]
      · split at done
        · rw [← Option.some.inj done]
          cases first <;> exact ⟨rfl, rfl⟩
        · cases done

theorem observe_map (frame : Frame) (name : Name) :
    (frame.observe name).bindings.map Binding.names = frame.bindings.map Binding.names ∧
      (frame.observe name).bindings.map Binding.task? = frame.bindings.map Binding.task? := by
  simp only [observe]
  cases done : observeIn? name frame.bindings with
  | none => exact ⟨rfl, rfl⟩
  | some observed => exact observeIn?_map done

@[simp] theorem names_observe (frame : Frame) (name : Name) :
    (frame.observe name).names = frame.names := by
  simp only [names, List.flatMap_def, (frame.observe_map name).1]

@[simp] theorem tasks_observe (frame : Frame) (name : Name) :
    (frame.observe name).tasks = frame.tasks := by
  have same (bindings : List Binding) :
      bindings.filterMap Binding.task? = (bindings.map Binding.task?).filterMap id := by
    rw [List.filterMap_map, Function.id_comp]
  simp only [tasks, same, (frame.observe_map name).2]

/-- Reading a parameter leaves the frame as it is. -/
theorem observe_parameter {frame : Frame} {name other : Name} {value : Value}
    {place : Fin (Binding.parameter other value).names.length}
    (found : frame.find? name = some ⟨.parameter other value, place⟩) :
    frame.observe name = frame := by
  obtain ⟨bindings⟩ := frame
  induction bindings using List.reverseRecOn with
  | nil => rfl
  | append_singleton bindings last ih =>
      change (Frame.add ⟨bindings⟩ last).find? name = _ at found
      change (Frame.add ⟨bindings⟩ last).observe name = Frame.add ⟨bindings⟩ last
      rw [find?_add] at found
      rw [observe_add]
      cases here : placeOf? name last.names with
      | some place =>
          rw [here] at found
          cases found
          rw [if_pos (placeOf?_isSome_iff.mp (Option.isSome_of_eq_some here))]
          rfl
      | none =>
          rw [here] at found
          rw [if_neg, ih found]
          intro inside
          have placed := placeOf?_isSome_iff.mpr inside
          rw [here] at placed
          cases placed

end Frame

/-- The value of a literal that has no steps. -/
def Literal.constant? : Literal → Option Value
  | .unit => some .unit
  | .text written => some (.text written)
  | .quantity amount => some (.quantity amount)
  | .tablet _ => none

/-- From a frame and the number of the next task, the steps become the works; tasks are started,
and the frame becomes the last one. -/
inductive SetsUp (registry : Registry) :
    Frame → TaskId → List Step → List Work → List Work → Frame → Prop
  | nil {frame next} : SetsUp registry frame next [] [] [] frame
  | cons {frame next step steps work works first rest middle after} :
      SetsUp registry frame next [step] [work] first middle →
      SetsUp registry middle (next + first.length) steps works rest after →
      SetsUp registry frame next (step :: steps) (work :: works) (first ++ rest) after
  | constant {frame next literal value} : Literal.constant? literal = some value →
      SetsUp registry frame next [.literal literal] [.done (.ok value)] [] frame
  | tablet {frame next fields members started after} :
      SetsUp registry frame next (fields.map Prod.snd) members started after →
      SetsUp registry frame next [.literal (.tablet fields)]
        [.gather (.tablet (fields.map Prod.fst)) members] started after
  | bind {frame next names step work started after} :
      SetsUp registry frame next [step] [work] started after →
      SetsUp registry frame next [.bind names step] [.wait (next + started.length)]
        (started ++ [.fresh work]) (after.add (.started names (next + started.length) true))
  | call {frame next callee argument work started after} :
      SetsUp registry frame next [argument] [work] started after →
      SetsUp registry frame next [.call callee argument] [.after work (.call callee)] started after
  | invoke {frame next name argument primitive work started after} :
      registry.lookup name = some primitive →
      SetsUp registry frame next [argument] [work] started after →
      SetsUp registry frame next [.invoke name argument] [.after work (.invoke primitive)] started
        after
  | operands {frame next name left right primitive operator first second started others middle
        after} :
      registry.lookup name = some primitive → primitive.operator = some operator →
      SetsUp registry frame next [left] [first] started middle →
      SetsUp registry middle (next + started.length + 1) [right] [second] others after →
      SetsUp registry frame next [.invoke name (.tuple [left, right])]
        [.after (operator.await (next + started.length)
          (next + started.length + 1 + others.length)) (.join primitive)]
        (started ++ .fresh first :: (others ++ [.fresh second])) after
  | tuple {frame next steps members started after} :
      SetsUp registry frame next steps members started after →
      SetsUp registry frame next [.tuple steps] [.gather .results members] started after
  | parameter {frame next name other value place} :
      Frame.find? frame name = some ⟨.parameter other value, place⟩ →
      SetsUp registry frame next [.read name] [.done (.ok value)] [] frame
  | read {frame next name names task observed place} :
      Frame.find? frame name = some ⟨.started names task observed, place⟩ →
      SetsUp registry frame next [.read name] [.after (.wait task) (.pick names.length place)] []
        (frame.observe name)

inductive SetsUpEntry (registry : Registry) (frame : Frame) (next : TaskId) (isLast : Bool) :
    Step → Work → List Work → Frame → Prop
  | bind {names step work started after} :
      SetsUp registry frame next [step] [work] started after →
      SetsUpEntry registry frame next isLast (.bind names step)
        (if isLast then .wait (next + started.length) else .done (.ok .unit))
        (started ++ [.fresh work]) (after.add (.started names (next + started.length) isLast))
  | other {step work started after} : (∀ names inner, step ≠ .bind names inner) →
      SetsUp registry frame next [step] [work] started after →
      SetsUpEntry registry frame next isLast step work started after

variable {registry : Registry}

/-- The names that steps bind come into the frame. -/
theorem SetsUp.names {frame after : Frame} {next : TaskId} {steps : List Step}
    {works started : List Work} (sets : SetsUp registry frame next steps works started after) :
    after.names = frame.names ++ stepsBinders steps := by
  induction sets with
  | nil => rw [stepsBinders, List.append_nil]
  | cons _ _ first rest =>
      rw [rest, first]
      simp only [stepsBinders, List.append_nil, List.append_assoc]
  | constant constant =>
      rename_i literal _
      cases literal with
      | tablet fields => cases constant
      | _ => simp only [stepsBinders, Step.binders, Literal.binders, List.append_nil]
  | tablet _ ih =>
      rw [ih, ← fieldsBinders_eq]
      simp only [stepsBinders, Step.binders, Literal.binders, List.append_nil]
  | bind _ ih =>
      rw [Frame.names_add, ih]
      simp only [stepsBinders, Step.binders, Binding.names, List.append_nil, List.append_assoc]
  | call _ ih => exact ih
  | invoke _ _ ih => exact ih
  | operands _ _ _ _ first second =>
      rw [second, first]
      simp only [stepsBinders, Step.binders, List.append_nil, List.append_assoc]
  | tuple _ ih =>
      rw [ih]
      simp only [stepsBinders, Step.binders, List.append_nil]
  | parameter _ => simp only [stepsBinders, Step.binders, List.append_nil]
  | read _ => simp only [Frame.names_observe, stepsBinders, Step.binders, List.append_nil]

theorem SetsUpEntry.names {frame after : Frame} {next : TaskId} {isLast : Bool} {step : Step}
    {work : Work} {started : List Work}
    (sets : SetsUpEntry registry frame next isLast step work started after) :
    after.names = frame.names ++ step.binders := by
  cases sets with
  | bind sets =>
      rw [Frame.names_add, sets.names]
      simp only [stepsBinders, Step.binders, Binding.names, List.append_nil, List.append_assoc]
  | other _ sets =>
      rw [sets.names]
      simp only [stepsBinders, List.append_nil]

namespace SetUp

/-- After `before`, the part gives the result and leaves `after`. -/
def Gives {α : Type} (part : SetUp α) (before : State) (result : α) (after : State) : Prop :=
  part.run.run before = (.ok result, after)

/-- After `before`, the part breaks down and leaves `after`. -/
def Breaks {α : Type} (part : SetUp α) (before : State) (defect : Defect) (after : State) : Prop :=
  part.run.run before = (.error defect, after)

section
variable {α β : Type} {before middle after : State} {defect : Defect}

theorem gives_pure (a : α) : Gives (pure a) before a before := rfl

theorem run_bind (part : SetUp α) (next : α → SetUp β) (before : State) :
    (part >>= next).run.run before =
      match part.run.run before with
      | (.ok a, middle) => (next a).run.run middle
      | (.error defect, middle) => (.error defect, middle) := by
  simp only [ExceptT.run_bind, StateT.run_bind]
  cases part.run.run before with
  | mk result middle =>
      cases result <;> rfl

theorem Gives.bind {part : SetUp α} {next : α → SetUp β} {a : α} {b : β}
    (first : Gives part before a middle) (rest : Gives (next a) middle b after) :
    Gives (part >>= next) before b after := by
  rw [Gives, run_bind, first]
  exact rest

theorem Gives.unique {part : SetUp α} {a b : α} {other : State} (gives : Gives part before a after)
    (again : Gives part before b other) : a = b ∧ after = other := by
  cases gives.symm.trans again
  exact ⟨rfl, rfl⟩

theorem gives_or_breaks (part : SetUp α) (before : State) :
    (∃ a after, Gives part before a after) ∨ ∃ defect after, Breaks part before defect after := by
  cases run : part.run.run before with
  | mk result after =>
      cases result with
      | ok a => exact .inl ⟨a, after, run⟩
      | error defect => exact .inr ⟨defect, after, run⟩

theorem Breaks.bind {part : SetUp α} (breaks : Breaks part before defect after)
    (next : α → SetUp β) : Breaks (part >>= next) before defect after := by
  rw [Breaks, run_bind, breaks]

theorem Gives.breaks {part : SetUp α} {next : α → SetUp β} {a : α}
    (gives : Gives part before a middle) (breaks : Breaks (next a) middle defect after) :
    Breaks (part >>= next) before defect after := by
  rw [Breaks, run_bind, gives]
  exact breaks

theorem gives_report (event : Event) :
    Gives (report event) before () { before with events := before.events ++ [event] } := rfl

theorem gives_start (work : Work) :
    Gives (start work) before before.next
      { before with next := before.next + 1, started := before.started ++ [.fresh work] } := rfl

theorem gives_bind (names : List Name) (observed : Bool) (work : Work) :
    Gives (SetUp.bind names observed work) before before.next
      { before with
        next := before.next + 1
        started := before.started ++ [.fresh work]
        frame := before.frame.add (.started names before.next observed) } := rfl

theorem gives_get : Gives get before before before := rfl

theorem gives_parameter {name other : Name} {value : Value}
    {place : Fin (Binding.parameter other value).names.length}
    (found : before.frame.find? name = some ⟨.parameter other value, place⟩) :
    Gives (read name) before (.done (.ok value)) before := by
  refine gives_get.bind ?_
  rw [found]
  exact gives_pure _

theorem gives_read {name : Name} {names : List Name} {task : TaskId} {observed : Bool}
    {place : Fin (Binding.started names task observed).names.length}
    (found : before.frame.find? name = some ⟨.started names task observed, place⟩) :
    Gives (read name) before (.after (.wait task) (.pick names.length place))
      { before with frame := before.frame.observe name } := by
  refine gives_get.bind ?_
  rw [found]
  rfl

theorem read_missing {name : Name} (missing : before.frame.find? name = none) :
    Breaks (read name) before (.unboundName name) before := by
  refine gives_get.breaks ?_
  simp only [missing]
  rfl

end

end SetUp

/-- In the state, the part succeeds and sets the steps up. -/
def SetUp.Realizes {α : Type} (registry : Registry) (part : SetUp α) (before : State)
    (steps : List Step) (works : α → List Work) : Prop :=
  ∃ result started frame events,
    part.Gives before result
      ⟨frame, before.next + started.length, before.started ++ started, events⟩ ∧
    SetsUp registry before.frame before.next steps (works result) started frame

namespace SetUp.Realizes

variable {α : Type} {before : State} {steps : List Step}

theorem of_pure {works : α → List Work} {result : α}
    (sets : SetsUp registry before.frame before.next steps (works result) [] before.frame) :
    Realizes registry (pure result) before steps works := by
  refine ⟨result, [], before.frame, before.events, ?_, sets⟩
  rw [List.append_nil]
  exact gives_pure _

/-- A name that the frame binds can be read. -/
theorem read {name : Name} (bound : name ∈ before.frame.names) :
    Realizes registry (SetUp.read name) before [.read name] fun work => [work] := by
  obtain ⟨meaning, found⟩ := Option.isSome_iff_exists.mp (Frame.find?_isSome bound)
  obtain ⟨binding, place⟩ := meaning
  cases binding with
  | parameter other value =>
      refine ⟨_, [], before.frame, before.events, ?_, .parameter found⟩
      rw [List.append_nil]
      exact gives_parameter found
  | started names task observed =>
      refine ⟨_, [], before.frame.observe name, before.events, ?_, .read found⟩
      rw [List.append_nil]
      exact gives_read found

theorem cons {step : Step} {first : SetUp Work} {rest : SetUp (List Work)}
    (one : Realizes registry first before [step] fun work => [work])
    (others : ∀ middle : State, middle.frame.names = before.frame.names ++ step.binders →
      Realizes registry rest middle steps id) :
    Realizes registry (do return (← first) :: (← rest)) before (step :: steps) id := by
  obtain ⟨work, started, frame, events, gives, sets⟩ := one
  have names := sets.names
  rw [stepsBinders, stepsBinders, List.append_nil] at names
  obtain ⟨works, more, after, later, goes, follows⟩ := others
    ⟨frame, before.next + started.length, before.started ++ started, events⟩ names
  refine ⟨work :: works, started ++ more, after, later, ?_, sets.cons follows⟩
  rw [List.length_append, ← Nat.add_assoc, ← List.append_assoc]
  exact gives.bind (goes.bind (gives_pure _))

/-- The result of a part is put into a work. -/
theorem map {part : SetUp α} {works : α → List Work} {step : Step} {f : α → Work}
    (one : Realizes registry part before steps works)
    (whole : ∀ {started : List Work} {after : Frame} {result : α},
      SetsUp registry before.frame before.next steps (works result) started after →
        SetsUp registry before.frame before.next [step] [f result] started after) :
    Realizes registry (part >>= fun result => pure (f result)) before [step]
      fun work => [work] := by
  obtain ⟨result, started, frame, events, gives, sets⟩ := one
  exact ⟨f result, started, frame, events, gives.bind (gives_pure _), whole sets⟩

/-- A binding is reported, set up and started. -/
theorem bind {part : SetUp Work} {step : Step} {event : Event} {names : List Name}
    (one : ∀ events, Realizes registry part { before with events } [step] fun work => [work]) :
    Realizes registry (do
        report event
        let work ← part
        let task ← SetUp.bind names true work
        pure (.wait task)) before [.bind names step] fun work => [work] := by
  obtain ⟨work, started, frame, events, gives, sets⟩ := one (before.events ++ [event])
  refine ⟨_, _, _, events, ?_, .bind sets⟩
  rw [List.length_append, List.length_singleton, ← Nat.add_assoc, ← List.append_assoc]
  exact (gives_report event).bind (gives.bind ((gives_bind names true work).bind (gives_pure _)))

/-- The operands of an operator are set up and started one after the other. -/
theorem operands {first second : SetUp Work} {left right : Step} {name : Identifier}
    {primitive : Primitive} {operator : Operator} (found : registry.lookup name = some primitive)
    (performs : primitive.operator = some operator)
    (one : Realizes registry first before [left] fun work => [work])
    (other : ∀ middle : State, middle.frame.names = before.frame.names ++ left.binders →
      Realizes registry second middle [right] fun work => [work]) :
    Realizes registry (do
        let left ← SetUp.start (← first)
        let right ← SetUp.start (← second)
        pure (.after (operator.await left right) (.join primitive)))
      before [.invoke name (.tuple [left, right])] fun work => [work] := by
  obtain ⟨work, started, frame, events, gives, sets⟩ := one
  have names := sets.names
  rw [stepsBinders, stepsBinders, List.append_nil] at names
  obtain ⟨last, more, after, later, goes, follows⟩ := other
    ⟨frame, before.next + started.length + 1, before.started ++ started ++ [.fresh work], events⟩
    names
  refine ⟨_, _, after, later, ?_, .operands found performs sets follows⟩
  have count : before.next + (started ++ Work.fresh work :: (more ++ [Work.fresh last])).length =
      before.next + started.length + 1 + more.length + 1 := by
    simp only [List.length_append, List.length_cons, List.length_nil, Nat.zero_add, Nat.add_assoc,
      Nat.add_left_comm]
  have whole : before.started ++ (started ++ Work.fresh work :: (more ++ [Work.fresh last])) =
      before.started ++ started ++ [Work.fresh work] ++ more ++ [Work.fresh last] := by
    simp only [List.append_assoc, List.cons_append, List.nil_append]
  rw [count, whole]
  exact gives.bind ((gives_start work).bind (goes.bind ((gives_start last).bind (gives_pure _))))

end SetUp.Realizes

theorem known_append {known names more : List Name} (bound : known ⊆ names) :
    known ++ more ⊆ names ++ more :=
  List.append_subset.mpr ⟨List.subset_append_of_subset_left _ bound,
    List.subset_append_right _ _⟩

/-- What is allowed of primitives is in the registry. -/
def Registry.Hosts (registry : Registry) (allowed : Need → Prop) : Prop :=
  ∀ name, allowed (.primitive name) → ∃ primitive, registry.lookup name = some primitive

variable {allowed : Need → Prop}

mutual

theorem setUp_realized (hosts : registry.Hosts allowed) (setting : Setting) :
    ∀ (step : Step) {known : List Name} {before : SetUp.State},
      Supported allowed known [step] → known ⊆ before.frame.names →
        SetUp.Realizes registry (setUp registry setting step) before [step] fun work => [work]
  | .literal literal, _, _, supported, bound =>
      setUpLiteral_realized hosts setting literal supported bound
  | .bind names step, _, _, supported, bound => by
      rw [setUp]
      exact .bind fun _ => setUp_realized hosts setting step (Supported.bind.mp supported) bound
  | .call callee argument, _, _, supported, bound => by
      rw [setUp]
      exact (setUp_realized hosts setting argument (Supported.call.mp supported).2 bound).map .call
  | .invoke name argument, _, _, supported, bound => by
      obtain ⟨allowed, part⟩ := Supported.invoke.mp supported
      obtain ⟨primitive, found⟩ := hosts name allowed
      rw [setUp, found]
      have whole := (setUp_realized hosts setting argument part bound).map
        fun sets => .invoke found sets
      simp only
      split
      · rename_i operator left right performs
        obtain ⟨first, second⟩ := Supported.cons.mp (Supported.tuple.mp part)
        exact .operands found performs (setUp_realized hosts setting left first bound)
          fun middle names => setUp_realized hosts setting right (Supported.cons.mp second).1
            (names ▸ known_append bound)
      · exact whole
  | .tuple steps, _, _, supported, bound => by
      rw [setUp]
      exact (setUpAll_realized hosts setting steps (Supported.tuple.mp supported) bound).map .tuple
  | .read name, _, _, supported, bound => by
      rw [setUp]
      exact .read (bound supported.bound.1)

theorem setUpLiteral_realized (hosts : registry.Hosts allowed) (setting : Setting) :
    ∀ (literal : Literal) {known : List Name} {before : SetUp.State},
      Supported allowed known [.literal literal] → known ⊆ before.frame.names →
        SetUp.Realizes registry (setUpLiteral registry setting literal) before [.literal literal]
          fun work => [work]
  | .unit, _, _, _, _ => .of_pure (.constant rfl)
  | .text _, _, _, _, _ => .of_pure (.constant rfl)
  | .quantity _, _, _, _, _ => .of_pure (.constant rfl)
  | .tablet fields, _, _, supported, bound => by
      rw [setUpLiteral]
      exact (setUpFields_realized hosts setting fields (Supported.tablet.mp supported) bound).map
        .tablet

theorem setUpAll_realized (hosts : registry.Hosts allowed) (setting : Setting) :
    ∀ (steps : List Step) {known : List Name} {before : SetUp.State},
      Supported allowed known steps → known ⊆ before.frame.names →
        SetUp.Realizes registry (setUpAll registry setting steps) before steps id
  | [], _, _, _, _ => .of_pure .nil
  | step :: steps, _, _, supported, bound => by
      obtain ⟨first, rest⟩ := Supported.cons.mp supported
      rw [setUpAll]
      exact .cons (setUp_realized hosts setting step first bound) fun middle names =>
        setUpAll_realized hosts setting steps rest (names ▸ known_append bound)

theorem setUpFields_realized (hosts : registry.Hosts allowed) (setting : Setting) :
    ∀ (fields : List (Label × Step)) {known : List Name} {before : SetUp.State},
      Supported allowed known (fields.map Prod.snd) → known ⊆ before.frame.names →
        SetUp.Realizes registry (setUpFields registry setting fields) before (fields.map Prod.snd)
          id
  | [], _, _, _, _ => .of_pure .nil
  | (label, step) :: fields, _, _, supported, bound => by
      obtain ⟨first, rest⟩ := Supported.cons.mp supported
      rw [setUpFields]
      exact .cons (setUp_realized hosts setting step first bound) fun middle names =>
        setUpFields_realized hosts setting fields rest (names ▸ known_append bound)

end

theorem setUpEntry_realized (hosts : registry.Hosts allowed) {known : List Name} {frame : Frame}
    {entry : Entry} (supported : Supported allowed known [entry.step])
    (bound : known ⊆ frame.names) (next : TaskId) (index : Nat) (isLast : Bool) :
    ∃ work started after events,
      (setUpEntry registry index isLast entry).Gives ⟨frame, next, [], []⟩ work
        ⟨after, next + started.length, started, events⟩ ∧
      SetsUpEntry registry frame next isLast entry.step work started after := by
  obtain ⟨setting, step⟩ := entry
  have realized (inner : Step) (events : List Event) (part : Supported allowed known [inner]) :
      SetUp.Realizes registry (setUp registry setting inner) ⟨frame, next, [], events⟩ [inner]
        fun work => [work] := setUp_realized hosts setting inner part bound
  cases step with
  | bind names inner =>
      obtain ⟨work, started, after, events, gives, sets⟩ := realized inner
        [.starting index setting, .binding names setting] (Supported.bind.mp supported)
      refine ⟨_, _, _, events, ?_, .bind sets⟩
      rw [List.length_append, List.length_singleton, ← Nat.add_assoc]
      refine (SetUp.gives_report (.starting index setting)).bind
        ((SetUp.gives_report (.binding names setting)).bind (gives.bind
          ((SetUp.gives_bind names isLast work).bind ?_)))
      cases isLast
      · exact SetUp.gives_pure _
      · exact SetUp.gives_pure _
  | _ =>
      obtain ⟨work, started, after, events, gives, sets⟩ := realized _ [.starting index setting]
        supported
      refine ⟨work, started, after, events, ?_, .other nofun sets⟩
      exact (SetUp.gives_report (.starting index setting)).bind gives

/-- The events that are not only of interest to who traces the run. -/
def told (events : List Event) : List Event := events.filter fun event => !event.isTrace

theorem told_append (first rest : List Event) : told (first ++ rest) = told first ++ told rest :=
  List.filter_append ..

namespace SetUp

theorem gives_bind_iff {α β : Type} {part : SetUp α} {next : α → SetUp β} {b : β}
    {before after : State} :
    Gives (part >>= next) before b after ↔
      ∃ a middle, Gives part before a middle ∧ Gives (next a) middle b after := by
  constructor
  · intro gives
    rw [Gives, run_bind] at gives
    cases run : part.run.run before with
    | mk result middle =>
        rw [run] at gives
        cases result with
        | error defect => cases gives
        | ok a => exact ⟨a, middle, run, gives⟩
  · intro gives
    obtain ⟨a, middle, first, rest⟩ := gives
    exact first.bind rest

/-- Between the states the steps are set up and become the works; only who traces the run hears of
it. -/
def Makes (registry : Registry) (before : State) (steps : List Step) (works : List Work)
    (after : State) : Prop :=
  ∃ started, SetsUp registry before.frame before.next steps works started after.frame ∧
    after.next = before.next + started.length ∧ after.started = before.started ++ started ∧
    told after.events = told before.events

namespace Makes

variable {before middle after : State} {steps : List Step}

theorem still {works : List Work}
    (sets : SetsUp registry before.frame before.next steps works [] before.frame) :
    Makes registry before steps works before :=
  ⟨[], sets, rfl, (List.append_nil _).symm, rfl⟩

theorem cons {step : Step} {work : Work} {works : List Work}
    (first : Makes registry before [step] [work] middle)
    (rest : Makes registry middle steps works after) :
    Makes registry before (step :: steps) (work :: works) after := by
  obtain ⟨started, sets, next, all, tells⟩ := first
  obtain ⟨more, follows, later, whole, quiet⟩ := rest
  refine ⟨started ++ more, sets.cons (next ▸ follows), ?_, ?_, quiet.trans tells⟩
  · rw [later, next, List.length_append, Nat.add_assoc]
  · rw [whole, all, List.append_assoc]

theorem map {works : List Work} {step : Step} {work : Work}
    (makes : Makes registry before steps works after)
    (whole : ∀ {started : List Work},
      SetsUp registry before.frame before.next steps works started after.frame →
        SetsUp registry before.frame before.next [step] [work] started after.frame) :
    Makes registry before [step] [work] after :=
  makes.imp fun _ rest => ⟨whole rest.1, rest.2⟩

end Makes

theorem read_makes {name : Name} {before after : State} {work : Work}
    (gives : (read name).Gives before work after) :
    Makes registry before [.read name] [work] after := by
  obtain ⟨got, middle, fetched, gives⟩ := gives_bind_iff.mp gives
  cases fetched
  split at gives
  · cases gives
  · cases gives
    exact .still (.parameter ‹_›)
  · cases gives
    exact ⟨[], .read ‹_›, rfl, (List.append_nil _).symm, rfl⟩

mutual

/-- A step that can be set up becomes what `SetsUp` says. -/
theorem setUp_makes (setting : Setting) : ∀ (step : Step) {before after : State} {work : Work},
    (setUp registry setting step).Gives before work after →
      Makes registry before [step] [work] after
  | .literal literal, _, _, _, gives => setUpLiteral_makes setting literal gives
  | .bind names step, _, _, _, gives => by
      rw [setUp] at gives
      obtain ⟨_, _, reports, rest⟩ := gives_bind_iff.mp gives
      obtain ⟨work, _, inner, binds⟩ := gives_bind_iff.mp rest
      cases reports
      cases binds
      obtain ⟨started, sets, next, all, tells⟩ := setUp_makes setting step inner
      refine ⟨started ++ [.fresh work], next ▸ .bind sets, ?_, ?_, ?_⟩
      · rw [List.length_append, ← Nat.add_assoc, List.length_singleton, ← next]
      · rw [← List.append_assoc, ← all]
      · rw [tells, told_append]
        exact List.append_nil _
  | .call callee argument, _, _, _, gives => by
      rw [setUp] at gives
      obtain ⟨work, _, inner, gives⟩ := gives_bind_iff.mp gives
      cases gives
      exact (setUp_makes setting argument inner).map .call
  | .invoke name argument, _, _, _, gives => by
      rw [setUp] at gives
      split at gives
      · cases gives
      · rename_i primitive found
        split at gives
        · rename_i operator left right performs
          obtain ⟨work, _, first, rest⟩ := gives_bind_iff.mp gives
          obtain ⟨one, _, begins, later⟩ := gives_bind_iff.mp rest
          obtain ⟨other, _, second, last⟩ := gives_bind_iff.mp later
          cases begins
          cases last
          obtain ⟨started, sets, next, all, tells⟩ := setUp_makes setting left first
          obtain ⟨more, follows, later, whole, quiet⟩ := setUp_makes setting right second
          refine ⟨started ++ .fresh work :: (more ++ [.fresh other]), ?_, ?_, ?_,
            quiet.trans tells⟩
          · simp only at follows later
            rw [later, next] at *
            exact .operands found performs sets follows
          · simp only [later, next, List.length_append, List.length_cons, List.length_nil,
              Nat.zero_add, Nat.add_assoc, Nat.add_left_comm]
          · simp only [whole, all, List.append_assoc, List.cons_append, List.nil_append]
        · obtain ⟨work, _, inner, rest⟩ := gives_bind_iff.mp gives
          cases rest
          exact (setUp_makes setting _ inner).map (.invoke found)
  | .tuple steps, _, _, _, gives => by
      rw [setUp] at gives
      obtain ⟨works, _, inner, gives⟩ := gives_bind_iff.mp gives
      cases gives
      exact (setUpAll_makes setting steps inner).map .tuple
  | .read name, _, _, _, gives => by
      rw [setUp] at gives
      exact read_makes gives

theorem setUpLiteral_makes (setting : Setting) :
    ∀ (literal : Literal) {before after : State} {work : Work},
      (setUpLiteral registry setting literal).Gives before work after →
        Makes registry before [.literal literal] [work] after
  | .unit, _, _, _, gives => by
      cases gives
      exact .still (.constant rfl)
  | .text _, _, _, _, gives => by
      cases gives
      exact .still (.constant rfl)
  | .quantity _, _, _, _, gives => by
      cases gives
      exact .still (.constant rfl)
  | .tablet fields, _, _, _, gives => by
      rw [setUpLiteral] at gives
      obtain ⟨works, _, inner, gives⟩ := gives_bind_iff.mp gives
      cases gives
      exact (setUpFields_makes setting fields inner).map .tablet

theorem setUpAll_makes (setting : Setting) :
    ∀ (steps : List Step) {before after : State} {works : List Work},
      (setUpAll registry setting steps).Gives before works after →
        Makes registry before steps works after
  | [], _, _, _, gives => by
      cases gives
      exact .still .nil
  | step :: steps, _, _, _, gives => by
      rw [setUpAll] at gives
      obtain ⟨work, _, first, gives⟩ := gives_bind_iff.mp gives
      obtain ⟨works, _, rest, gives⟩ := gives_bind_iff.mp gives
      cases gives
      exact (setUp_makes setting step first).cons (setUpAll_makes setting steps rest)

theorem setUpFields_makes (setting : Setting) :
    ∀ (fields : List (Label × Step)) {before after : State} {works : List Work},
      (setUpFields registry setting fields).Gives before works after →
        Makes registry before (fields.map Prod.snd) works after
  | [], _, _, _, gives => by
      cases gives
      exact .still .nil
  | (_, step) :: fields, _, _, _, gives => by
      rw [setUpFields] at gives
      obtain ⟨work, _, first, gives⟩ := gives_bind_iff.mp gives
      obtain ⟨works, _, rest, gives⟩ := gives_bind_iff.mp gives
      cases gives
      exact (setUp_makes setting step first).cons (setUpFields_makes setting fields rest)

end

/-- An entry that can be set up becomes what `SetsUpEntry` says. -/
theorem setUpEntry_makes {index : Nat} {isLast : Bool} {entry : Entry} {frame : Frame}
    {next : TaskId} {work : Work} {after : State}
    (gives : (setUpEntry registry index isLast entry).Gives ⟨frame, next, [], []⟩ work after) :
    SetsUpEntry registry frame next isLast entry.step work after.started after.frame := by
  obtain ⟨setting, step⟩ := entry
  rw [setUpEntry] at gives
  obtain ⟨_, _, reports, rest⟩ := gives_bind_iff.mp gives
  cases reports
  split at rest
  · rename_i names inner same
    obtain ⟨_, _, tells, rest⟩ := gives_bind_iff.mp rest
    obtain ⟨begun, middle, first, rest⟩ := gives_bind_iff.mp rest
    obtain ⟨task, _, binds, last⟩ := gives_bind_iff.mp rest
    cases tells
    cases binds
    obtain ⟨started, sets, later, all, _⟩ := setUp_makes setting inner first
    simp only at same sets later all
    rw [same]
    cases isLast with
    | true =>
        cases last
        simp only [all, later, List.nil_append]
        exact .bind sets
    | false =>
        cases last
        simp only [all, later, List.nil_append]
        exact .bind sets
  · rename_i other
    obtain ⟨started, sets, _, all, _⟩ := setUp_makes setting _ rest
    rw [all]
    exact .other other sets

end SetUp

end Runbook
