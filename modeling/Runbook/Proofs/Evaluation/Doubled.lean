import Runbook.Proofs.Evaluation.Exchange
import Runbook.Proofs.Evaluation.Trailing
import Runbook.Proofs.Evaluation.Regardless

/-!
Waiting for both of two steps before they are combined.

An operation whose two operands are waited for by an operation of their own does what it does if it
waits for them itself. The run of the one trails that of the other: it takes one more step each time
both operands have ended, to hand over the group of their values, and traces that it performs a
primitive.
-/
namespace Runbook

/-- The primitive of an operator, performed on what waiting for both steps gives. -/
def Operator.afterBoth (operator : Operator) (left right : Step) : Step :=
  .invoke operator.primitive (Operator.step .waitBoth left right)

mutual

/-- An operation of the one step is performed on what waiting for both operands gives, where it
waits for the operands itself in the other. -/
inductive Step.Doubles : Step → Step → Prop
  | unit : Step.Doubles (.literal .unit) (.literal .unit)
  | text (text : String) : Step.Doubles (.literal (.text text)) (.literal (.text text))
  | quantity (quantity : Quantity) :
      Step.Doubles (.literal (.quantity quantity)) (.literal (.quantity quantity))
  | tablet {ones others : List (Label × Step)} : others.map Prod.fst = ones.map Prod.fst →
      StepsDouble (ones.map Prod.snd) (others.map Prod.snd) →
      Step.Doubles (.literal (.tablet ones)) (.literal (.tablet others))
  | bind (names : List Name) {one other : Step} : Step.Doubles one other →
      Step.Doubles (.bind names one) (.bind names other)
  | call (callee : Callee) {one other : Step} : Step.Doubles one other →
      Step.Doubles (.call callee one) (.call callee other)
  | invoke (primitive : Identifier) {one other : Step} : Step.Doubles one other →
      Step.Doubles (.invoke primitive one) (.invoke primitive other)
  | tuple {ones others : List Step} : StepsDouble ones others →
      Step.Doubles (.tuple ones) (.tuple others)
  | read (name : Name) : Step.Doubles (.read name) (.read name)
  | again {operator : Operator} {left right left' right' : Step} : operator ≠ .waitEither →
      Step.Doubles left left' → Step.Doubles right right' →
      Step.Doubles (operator.afterBoth left right) (operator.step left' right')

inductive StepsDouble : List Step → List Step → Prop
  | nil : StepsDouble [] []
  | cons {one other : Step} {ones others : List Step} : Step.Doubles one other →
      StepsDouble ones others → StepsDouble (one :: ones) (other :: others)

end

structure Entry.Doubles (one other : Entry) : Prop where
  setting : other.setting = one.setting
  step : one.step.Doubles other.step

mutual

theorem Step.Doubles.refl : ∀ step : Step, step.Doubles step
  | .literal .unit => .unit
  | .literal (.text text) => .text text
  | .literal (.quantity quantity) => .quantity quantity
  | .literal (.tablet fields) => .tablet rfl (fieldsDouble_refl fields)
  | .bind names step => .bind names (Step.Doubles.refl step)
  | .call callee argument => .call callee (Step.Doubles.refl argument)
  | .invoke primitive argument => .invoke primitive (Step.Doubles.refl argument)
  | .tuple steps => .tuple (stepsDouble_refl steps)
  | .read name => .read name

theorem stepsDouble_refl : ∀ steps : List Step, StepsDouble steps steps
  | [] => .nil
  | step :: steps => .cons (Step.Doubles.refl step) (stepsDouble_refl steps)

theorem fieldsDouble_refl : ∀ fields : List (Label × Step),
    StepsDouble (fields.map Prod.snd) (fields.map Prod.snd)
  | [] => .nil
  | (_, step) :: fields => .cons (Step.Doubles.refl step) (fieldsDouble_refl fields)

end

theorem sequenceDoubles_refl (entries : Sequence) : List.Forall₂ Entry.Doubles entries entries :=
  List.forall₂_same.mpr fun entry _ => ⟨rfl, .refl entry.step⟩

theorem StepsDouble.append {ones others more more' : List Step} (first : StepsDouble ones others)
    (rest : StepsDouble more more') : StepsDouble (ones ++ more) (others ++ more') := by
  match first with
  | .nil => exact rest
  | .cons step steps => exact .cons step (steps.append rest)

/-- A step that is a pair goes with a pair. -/
theorem Step.Doubles.of_pair {one left right : Step}
    (doubles : one.Doubles (.tuple [left, right])) :
    ∃ left' right', one = .tuple [left', right'] := by
  match doubles with
  | .tuple (.cons _ (.cons _ .nil)) => exact ⟨_, _, rfl⟩

/-- Steps that differ in this way differ so wherever they stand. -/
theorem Step.Doubles.fill {one other : Step} (doubles : one.Doubles other) :
    ∀ context : Step.Context, (context.fill one).Doubles (context.fill other)
  | .here => doubles
  | .bind names inner => .bind names (doubles.fill inner)
  | .call callee inner => .call callee (doubles.fill inner)
  | .invoke primitive inner => .invoke primitive (doubles.fill inner)
  | .tuple before inner after =>
      .tuple ((stepsDouble_refl before).append
        (.cons (doubles.fill inner) (stepsDouble_refl after)))
  | .tablet before label inner after => by
      refine .tablet ?_ ?_
      · rw [List.map_append, List.map_append]
        rfl
      · rw [List.map_append, List.map_append]
        exact (fieldsDouble_refl before).append
          (.cons (doubles.fill inner) (fieldsDouble_refl after))

theorem Site.sequence_doubles {one other : Step} (doubles : one.Doubles other) (site : Site) :
    List.Forall₂ Entry.Doubles (site.sequence one) (site.sequence other) :=
  List.rel_append (sequenceDoubles_refl site.before)
    (.cons ⟨rfl, doubles.fill site.context⟩ (sequenceDoubles_refl site.after))

/-- The works of two tasks of which the one waits for both operands before an operation is performed
on what they give. -/
inductive Work.Doubles : Work → Work → Prop
  | done (outcome : Outcome) : Doubles (.done outcome) (.done outcome)
  | broken (defect : Defect) : Doubles (.broken defect) (.broken defect)
  | fresh {one other : Work} : Doubles one other → Doubles (.fresh one) (.fresh other)
  | wait (task : TaskId) : Doubles (.wait task) (.wait task)
  | race (left right : TaskId) : Doubles (.race left right) (.race left right)
  | sleep (wake : Nat) (outcome : Outcome) : Doubles (.sleep wake outcome) (.sleep wake outcome)
  | after {one other : Work} (next : Continuation) : Doubles one other →
      Doubles (.after one next) (.after other next)
  | gather {ones others : List Work} (shape : Shape) : List.Forall₂ Doubles ones others →
      Doubles (.gather shape ones) (.gather shape others)
  | body {one other : Work} {entries entries' : List Entry} (frame : Frame) (index : Nat) :
      Doubles one other → List.Forall₂ Entry.Doubles entries entries' →
      Doubles (.body frame one index entries) (.body frame other index entries')
  | settle (bindings : List (TaskId × Nat)) (result : Value) :
      Doubles (.settle bindings result) (.settle bindings result)
  /-- What waits for the operands has not ended in either run. -/
  | again {one other : Work} (primitive : Primitive) : Doubles one other →
      Doubles (.after (.after one (.join Operator.waitBoth.asPrimitive)) (.invoke primitive))
        (.after other (.join primitive))
  /-- The one run has handed over what waiting for the operands has given. -/
  | last {ended : Work} (primitive : Primitive) : ended.ended? = some ended →
      Doubles (.after ended (.invoke primitive)) (.after ended (.join primitive))

mutual

theorem Work.Doubles.refl : ∀ work : Work, work.Doubles work
  | .done outcome => .done outcome
  | .broken defect => .broken defect
  | .fresh work => .fresh (Work.Doubles.refl work)
  | .wait task => .wait task
  | .race left right => .race left right
  | .sleep wake outcome => .sleep wake outcome
  | .after source next => .after next (Work.Doubles.refl source)
  | .gather shape members => .gather shape (worksDouble_refl members)
  | .body frame current index entries =>
      .body frame index (Work.Doubles.refl current) (sequenceDoubles_refl entries)
  | .settle bindings result => .settle bindings result

theorem worksDouble_refl : ∀ works : List Work, List.Forall₂ Work.Doubles works works
  | [] => .nil
  | work :: works => .cons (Work.Doubles.refl work) (worksDouble_refl works)

end

namespace Work.Doubles

variable {one other : Work} {ones others : List Work}

theorem ended? (doubles : one.Doubles other) : other.ended? = one.ended? := by
  cases doubles <;> rfl

theorem value? (doubles : one.Doubles other) : other.value? = one.value? := by
  cases doubles <;> rfl

theorem failed? (doubles : one.Doubles other) : other.failed? = one.failed? := by
  cases doubles <;> rfl

theorem broken? (doubles : one.Doubles other) : other.broken? = one.broken? := by
  cases doubles <;> rfl

theorem meet (doubles : one.Doubles other) : one.meet.Doubles other.meet := by
  cases doubles with
  | broken defect => exact .broken .met
  | done outcome => exact .done outcome
  | fresh same => exact .fresh same
  | wait task => exact .wait task
  | race left right => exact .race left right
  | sleep wake outcome => exact .sleep wake outcome
  | after next same => exact .after next same
  | gather shape same => exact .gather shape same
  | body frame index same entries => exact .body frame index same entries
  | settle bindings result => exact .settle bindings result
  | again primitive same => exact .again primitive same
  | last primitive ends => exact .last primitive ends

/-- Works that go together have not ended, or are the same. -/
theorem cases_ended (doubles : one.Doubles other) :
    (one.ended? = none ∧ other.ended? = none) ∨
      (∃ outcome, one = .done outcome ∧ other = .done outcome) ∨
      ∃ defect, one = .broken defect ∧ other = .broken defect := by
  cases doubles with
  | done outcome => exact .inr (.inl ⟨outcome, rfl, rfl⟩)
  | broken defect => exact .inr (.inr ⟨defect, rfl, rfl⟩)
  | _ => exact .inl ⟨rfl, rfl⟩

end Work.Doubles

theorem worksDouble_value? {ones others : List Work}
    (double : List.Forall₂ Work.Doubles ones others) :
    others.mapM Work.value? = ones.mapM Work.value? := by
  induction double with
  | nil => rfl
  | cons first _ ih => rw [List.mapM_cons, List.mapM_cons, first.value?, ih]

theorem worksDouble_findSome? {find? : Work → Option Work} {ones others : List Work}
    (double : List.Forall₂ Work.Doubles ones others)
    (same : ∀ {one other : Work}, one.Doubles other → find? other = find? one) :
    others.findSome? find? = ones.findSome? find? := by
  induction double with
  | nil => rfl
  | cons first _ ih => rw [List.findSome?_cons, List.findSome?_cons, same first, ih]

theorem worksDouble_spoiled? {ones others : List Work}
    (double : List.Forall₂ Work.Doubles ones others) :
    Work.spoiled? others = Work.spoiled? ones := by
  have waiting : (others.dropWhile (·.value?.isSome)).head?.bind Work.failed? =
      (ones.dropWhile (·.value?.isSome)).head?.bind Work.failed? := by
    induction double with
    | nil => rfl
    | cons first _ ih =>
        simp only [List.dropWhile_cons, first.value?]
        split
        · exact ih
        · exact first.failed?
  rw [Work.spoiled?, Work.spoiled?, ← double.length_eq, waiting,
    worksDouble_findSome? double Work.Doubles.failed?,
    worksDouble_findSome? double Work.Doubles.broken?]

mutual

theorem Work.Doubles.wakes : ∀ {one other : Work}, one.Doubles other → other.wakes = one.wakes
  | _, _, .done _ | _, _, .broken _ | _, _, .wait _ | _, _, .race _ _ | _, _, .sleep _ _
  | _, _, .settle _ _ | _, _, .last _ _ => rfl
  | _, _, .fresh same => by
      rw [Work.wakes, Work.wakes, same.wakes]
  | _, _, .after _ same => same.wakes
  | _, _, .gather _ same => worksDouble_wakes same
  | _, _, .body _ _ same _ => same.wakes
  | _, _, .again _ same => same.wakes

theorem worksDouble_wakes : ∀ {ones others : List Work}, List.Forall₂ Work.Doubles ones others →
    Work.wakesOfAll others = Work.wakesOfAll ones
  | _, _, .nil => rfl
  | _, _, .cons first rest => by
      rw [Work.wakesOfAll, Work.wakesOfAll, first.wakes, worksDouble_wakes rest]

end

/-! Such steps are set up alike. -/

namespace SetUp

/-- The tasks that have been started go together, and the same has been heard. -/
structure State.Doubles (state other : State) : Prop where
  frame : other.frame = state.frame
  next : other.next = state.next
  started : List.Forall₂ Work.Doubles state.started other.started
  told : told other.events = told state.events

/-- Both parts have broken down for the same defect, or have given results of that relation. -/
inductive Ends {α β : Type} (same : α → β → Prop) :
    Except Defect α × State → Except Defect β × State → Prop
  | breaks (defect : Defect) {after after' : State} : after.Doubles after' →
      Ends same (.error defect, after) (.error defect, after')
  | gives {a : α} {b : β} {after after' : State} : same a b → after.Doubles after' →
      Ends same (.ok a, after) (.ok b, after')

/-- From states that go together, both parts do the same, up to the relation of their results. -/
def Doubles {α β : Type} (same : α → β → Prop) (part : SetUp α) (other : SetUp β) : Prop :=
  ∀ before earlier : State, before.Doubles earlier →
    Ends same (part.run.run before) (other.run.run earlier)

namespace Doubles

variable {α β γ δ : Type} {same : α → β → Prop} {final : γ → δ → Prop}

theorem pure {a : α} {b : β} (holds : same a b) : Doubles same (Pure.pure a) (Pure.pure b) :=
  fun _ _ states => .gives holds states

theorem throw (defect : Defect) : Doubles same (throw defect) (MonadExcept.throw defect) :=
  fun _ _ states => .breaks defect states

theorem bind {part : SetUp α} {other : SetUp β} {next : α → SetUp γ} {rest : β → SetUp δ}
    (first : Doubles same part other) (follow : ∀ a b, same a b → Doubles final (next a) (rest b)) :
    Doubles final (part >>= next) (other >>= rest) := by
  intro before earlier states
  have ends := first before earlier states
  rw [run_bind, run_bind]
  generalize part.run.run before = made at ends ⊢
  generalize other.run.run earlier = made' at ends ⊢
  cases ends with
  | breaks defect states => exact .breaks defect states
  | gives holds states => exact follow _ _ holds _ _ states

theorem map {part : SetUp α} {other : SetUp β} {f : α → γ} {g : β → δ}
    (first : Doubles same part other) (keeps : ∀ a b, same a b → final (f a) (g b)) :
    Doubles final (part >>= fun a => Pure.pure (f a)) (other >>= fun b => Pure.pure (g b)) :=
  first.bind fun a b holds => pure (keeps a b holds)

theorem report (event : Event) : Doubles Eq (report event) (SetUp.report event) := by
  intro before earlier states
  refine .gives rfl ⟨states.frame, states.next, states.started, ?_⟩
  change Runbook.told (earlier.events ++ [event]) = Runbook.told (before.events ++ [event])
  rw [told_append, told_append, states.told]

theorem start {work other : Work} (double : work.Doubles other) :
    Doubles Eq (start work) (SetUp.start other) := by
  intro before earlier states
  exact .gives states.next.symm ⟨states.frame, congrArg (· + 1) states.next,
    List.rel_append states.started (.cons (.fresh double) .nil), states.told⟩

theorem register (names : List Name) (observed : Bool) {work other : Work}
    (double : work.Doubles other) :
    Doubles Eq (SetUp.bind names observed work) (SetUp.bind names observed other) := by
  refine (start double).bind fun task _ same => ?_
  subst same
  have adds : Doubles Eq (modify fun state =>
      { state with frame := state.frame.add (.started names task observed) })
      (modify fun state => { state with frame := state.frame.add (.started names task observed) }) :=
    fun _ _ states => .gives rfl
      ⟨congrArg (Frame.add · (.started names task observed)) states.frame,
      states.next, states.started, states.told⟩
  exact adds.bind fun _ _ _ => pure rfl

theorem read (name : Name) : Doubles Work.Doubles (read name) (SetUp.read name) := by
  intro before earlier states
  rw [SetUp.read, run_bind, run_bind, gives_get, gives_get]
  simp only [states.frame]
  split
  · exact .breaks _ states
  · exact .gives (.done _) states
  · exact .gives (.after _ (.wait _)) ⟨rfl, states.next, states.started, states.told⟩

/-- Two operands become tasks of their own in both runs. -/
theorem operands {one two one' two' : SetUp Work} {next : TaskId → TaskId → α}
    {next' : TaskId → TaskId → β} (first : Doubles Work.Doubles one one')
    (second : Doubles Work.Doubles two two') (joins : ∀ left right, same (next left right)
      (next' left right)) :
    Doubles same (do
        let left ← SetUp.start (← one)
        let right ← SetUp.start (← two)
        Pure.pure (next left right)) (do
        let left ← SetUp.start (← one')
        let right ← SetUp.start (← two')
        Pure.pure (next' left right)) := by
  refine first.bind fun _ _ double => (start double).bind fun left _ sameLeft => ?_
  refine second.bind fun _ _ double => (start double).bind fun right _ sameRight => ?_
  rw [← sameLeft, ← sameRight]
  exact pure (joins left right)

end Doubles

/-- The steps are set up alike, and so are their members where they are pairs. -/
structure Parts (registry : Registry) (setting : Setting) (one other : Step) : Prop where
  whole : Doubles Work.Doubles (setUp registry setting one) (setUp registry setting other)
  pair : ∀ left right, one = .tuple [left, right] → ∃ left' right',
    other = .tuple [left', right'] ∧
    Doubles Work.Doubles (setUp registry setting left) (setUp registry setting left') ∧
    Doubles Work.Doubles (setUp registry setting right) (setUp registry setting right')

theorem parts_of_forall₂ {registry : Registry} {setting : Setting} {ones others : List Step}
    (each : List.Forall₂ (Parts registry setting) ones others) :
    Doubles (List.Forall₂ Work.Doubles) (setUpAll registry setting ones)
      (setUpAll registry setting others) := by
  induction each with
  | nil => exact .pure .nil
  | cons first _ ih =>
      rw [setUpAll, setUpAll]
      exact first.whole.bind fun _ _ member => ih.map fun _ _ members => .cons member members

end SetUp

/-- Only the operators' own primitives are found by the names of the operators that wait for both of
their operands. -/
structure Registry.Joins (registry : Registry) : Prop where
  waitBoth : registry.lookup Operator.waitBoth.primitive = some Operator.waitBoth.asPrimitive
  combine : registry.lookup Operator.combine.primitive = some Operator.combine.asPrimitive

theorem Registry.Joins.found {registry : Registry} (joins : registry.Joins) {operator : Operator}
    (both : operator ≠ .waitEither) :
    registry.lookup operator.primitive = some operator.asPrimitive := by
  cases operator with
  | waitEither => exact absurd rfl both
  | waitBoth => exact joins.waitBoth
  | combine => exact joins.combine

theorem Operator.await_both {operator : Operator} (both : operator ≠ .waitEither)
    (left right : TaskId) :
    operator.await left right = .gather .operands [.wait left, .wait right] := by
  cases operator with
  | waitEither => exact absurd rfl both
  | _ => rfl

section
open SetUp
variable {registry : Registry} (setting : Setting)

mutual

theorem setUp_doubles (joins : registry.Joins) : ∀ {one other : Step}, one.Doubles other →
    Parts registry setting one other
  | _, _, .unit | _, _, .text _ | _, _, .quantity _ => ⟨.pure (.done _), nofun⟩
  | _, _, .tablet labels fields => by
      refine ⟨?_, nofun⟩
      rw [setUp, setUp, setUpLiteral, setUpLiteral, setUpFields_eq, setUpFields_eq, labels]
      exact (parts_of_forall₂ (setUpEach_doubles joins fields)).map
        fun _ _ members => .gather _ members
  | _, _, .bind names step => by
      refine ⟨?_, nofun⟩
      rw [setUp, setUp]
      refine (Doubles.report _).bind fun _ _ _ => ?_
      refine (setUp_doubles joins step).whole.bind fun _ _ work => ?_
      refine (Doubles.register names true work).map fun task _ same => ?_
      rw [← same]
      exact .wait task
  | _, _, .call callee argument => by
      refine ⟨?_, nofun⟩
      rw [setUp, setUp]
      exact (setUp_doubles joins argument).whole.map fun _ _ work => .after _ work
  | _, _, @Step.Doubles.invoke name one other argument => by
      refine ⟨?_, nofun⟩
      have parts := setUp_doubles joins argument
      cases found : registry.lookup name with
      | none =>
          rw [setUp, setUp, found]
          exact .throw _
      | some primitive =>
          by_cases pair : ∃ operator left right, primitive.operator = some operator ∧
            one = .tuple [left, right]
          · obtain ⟨operator, left, right, operates, rfl⟩ := pair
            obtain ⟨left', right', rfl, first, second⟩ := parts.pair left right rfl
            rw [setUp_operands found operates, setUp_operands found operates]
            exact .operands first second fun _ _ => .refl _
          · have whole operator left right (operates : primitive.operator = some operator) :
                one ≠ .tuple [left, right] :=
              fun same => pair ⟨operator, left, right, operates, same⟩
            have whole' operator left right (operates : primitive.operator = some operator) :
                other ≠ .tuple [left, right] := by
              rintro rfl
              obtain ⟨left', right', same⟩ := argument.of_pair
              exact whole operator left' right' operates same
            rw [setUp_invoke found whole, setUp_invoke found whole']
            exact parts.whole.map fun _ _ work => .after _ work
  | _, _, .tuple steps => by
      have each := setUpEach_doubles joins steps
      refine ⟨?_, fun left right same => ?_⟩
      · rw [setUp, setUp]
        exact (parts_of_forall₂ each).map fun _ _ members => .gather _ members
      · cases same
        cases each with
        | cons first rest =>
            cases rest with
            | cons second none =>
                cases none
                exact ⟨_, _, rfl, first.whole, second.whole⟩
  | _, _, .read name => by
      refine ⟨?_, nofun⟩
      rw [setUp]
      exact .read name
  | _, _, @Step.Doubles.again operator one two _ _ both left right => by
      have single (joining : Operator) (one' two' : Step) :
          operator.asPrimitive.operator = some joining →
            Operator.step .waitBoth one two ≠ .tuple [one', two'] := by
        rintro _ ⟨⟩
      refine ⟨?_, nofun⟩
      rw [Operator.afterBoth, setUp_invoke (joins.found both) single, Operator.step, Operator.step,
        setUp_operands joins.waitBoth rfl, setUp_operands (joins.found both) rfl]
      simp only [bind_assoc, pure_bind]
      refine .operands (setUp_doubles joins left).whole (setUp_doubles joins right).whole
        fun _ _ => ?_
      rw [operator.await_both both]
      exact .again _ (.refl _)

theorem setUpEach_doubles (joins : registry.Joins) : ∀ {ones others : List Step},
    StepsDouble ones others →
    List.Forall₂ (Parts registry setting) ones others
  | _, _, .nil => .nil
  | _, _, .cons first rest => .cons (setUp_doubles joins first) (setUpEach_doubles joins rest)

end

end

theorem setUpEntry_doubles {registry : Registry} (joins : registry.Joins) (index : Nat)
    (isLast : Bool) {one other : Entry} (doubles : one.Doubles other) :
    SetUp.Doubles Work.Doubles (setUpEntry registry index isLast one)
      (setUpEntry registry index isLast other) := by
  obtain ⟨setting, step⟩ := one
  obtain ⟨setting', step'⟩ := other
  obtain ⟨same, double⟩ := doubles
  obtain rfl : setting' = setting := same
  rw [setUpEntry, setUpEntry]
  refine (SetUp.Doubles.report _).bind fun _ _ _ => ?_
  have plainly := (setUp_doubles setting' joins double).whole
  cases double with
  | bind names step =>
      refine (SetUp.Doubles.report _).bind fun _ _ _ => ?_
      refine (setUp_doubles setting' joins step).whole.bind fun _ _ work => ?_
      refine (SetUp.Doubles.register names isLast work).bind fun task _ same => ?_
      rw [← same]
      cases isLast with
      | true => exact .pure (.wait task)
      | false => exact .pure (.done (.ok .unit))
  | _ => exact plainly

end Runbook
