import Runbook.Proofs.Evaluation.Renumbered

/-!
Setting up under a translation.

A translation puts other numbers, other settings and later moments into what a run has in hand, and
keeps the shape of it. Steps with other numbers are set up in another setting to translated works,
in a translated state, or break down for the defect with other numbers.
-/
namespace Runbook

/-- Other numbers, other settings and later moments. Different names have different numbers. -/
structure Translation where
  numbers : Renumbering
  injective : Function.Injective numbers.index
  setting : Setting → Setting
  /-- How much later everything happens. -/
  late : Nat

namespace Translation

/-- Other numbers for names and procedures. -/
def renumbering (numbers : Renumbering) (injective : Function.Injective numbers.index) :
    Translation := ⟨numbers, injective, id, 0⟩

/-- Everything is performed as around it. -/
def unsetting : Translation := ⟨.identity, Function.injective_id, fun _ => .inherit, 0⟩

/-- Everything happens that much later. -/
def delaying (late : Nat) : Translation := ⟨.identity, Function.injective_id, id, late⟩

end Translation

section
variable (t : Translation)

def Entry.translate (entry : Entry) : Entry :=
  ⟨t.setting entry.setting, entry.step.renumber t.numbers⟩

def Script.translate (script : Script) : Script :=
  ⟨script.name, script.parameters.map t.numbers.name, script.sequence.map (Entry.translate t)⟩

def Event.translate : Event → Event
  | .starting index setting => .starting index (t.setting setting)
  | .binding names setting => .binding (names.map t.numbers.name) (t.setting setting)
  | event => event

mutual

def Work.translate : Work → Work
  | .done outcome => .done outcome
  | .broken defect => .broken (defect.renumber t.numbers)
  | .fresh work => .fresh work.translate
  | .wait task => .wait task
  | .race left right => .race left right
  | .sleep wake outcome => .sleep (wake + t.late) outcome
  | .after source next => .after source.translate (next.renumber t.numbers)
  | .gather shape members => .gather shape (worksTranslate members)
  | .body frame current index entries =>
    .body (frame.renumber t.numbers) current.translate index (entries.map (Entry.translate t))
  | .settle bindings result => .settle bindings result

def worksTranslate : List Work → List Work
  | [] => []
  | work :: works => work.translate :: worksTranslate works

end

theorem worksTranslate_eq_map (works : List Work) :
    worksTranslate t works = works.map (Work.translate t) := by
  induction works with
  | nil => rfl
  | cons work works ih => rw [worksTranslate, ih, List.map_cons]

end

/-! What happens later only has its numbers and its settings. -/

theorem Entry.translate_delaying (late : Nat) (entry : Entry) :
    entry.translate (.delaying late) = entry := by
  rw [translate, Translation.delaying, Step.renumber_identity]
  rfl

theorem Script.translate_delaying (late : Nat) (script : Script) :
    script.translate (.delaying late) = script := by
  have names : Renumbering.identity.name = id := funext Renumbering.name_identity
  rw [translate, funext (Entry.translate_delaying late), List.map_id', Translation.delaying, names,
    List.map_id]

theorem Event.translate_delaying (late : Nat) (event : Event) :
    event.translate (.delaying late) = event := by
  cases event with
  | binding names setting =>
      exact congrArg (Event.binding · setting) (Renumbering.map_name_identity names)
  | _ => rfl

mutual

theorem Work.translate_delaying_zero : ∀ work : Work, work.translate (.delaying 0) = work
  | .done _ | .wait _ | .race _ _ | .sleep _ _ | .settle _ _ => rfl
  | .broken defect => congrArg Work.broken defect.renumber_identity
  | .fresh work => congrArg Work.fresh work.translate_delaying_zero
  | .after source next =>
      congrArg₂ Work.after source.translate_delaying_zero next.renumber_identity
  | .gather shape members => congrArg (Work.gather shape) (worksTranslate_delaying_zero members)
  | .body frame current index entries => by
      rw [Work.translate, current.translate_delaying_zero, funext (Entry.translate_delaying 0),
        List.map_id']
      exact congrArg (Work.body · current index entries) frame.renumber_identity

theorem worksTranslate_delaying_zero : ∀ works : List Work,
    worksTranslate (.delaying 0) works = works
  | [] => rfl
  | work :: works => by
      rw [worksTranslate, work.translate_delaying_zero, worksTranslate_delaying_zero works]

end

section
variable (t : Translation)

def SetUp.State.translate (state : SetUp.State) : SetUp.State where
  frame := state.frame.renumber t.numbers
  next := state.next
  started := state.started.map (Work.translate t)
  events := state.events.map (Event.translate t)

end

namespace SetUp

/-- The second part does translated what the first does. -/
def Translates (t : Translation) {α β : Type} (image : α → β) (part : SetUp α) (other : SetUp β) :
    Prop :=
  ∀ before : State, other.run.run (before.translate t) =
    (((part.run.run before).1.map image).mapError (Defect.renumber t.numbers),
      (part.run.run before).2.translate t)

namespace Translates

variable {t : Translation} {α β γ δ : Type} {image : α → β} {later : γ → δ}

theorem pure (image : α → β) (a : α) : Translates t image (Pure.pure a) (Pure.pure (image a)) :=
  fun _ => rfl

theorem throw (defect : Defect) :
    Translates t image (throw defect) (MonadExcept.throw (defect.renumber t.numbers)) :=
  fun _ => rfl

theorem bind {part : SetUp α} {other : SetUp β} {next : α → SetUp γ} {rest : β → SetUp δ}
    (first : Translates t image part other)
    (follow : ∀ a, Translates t later (next a) (rest (image a))) :
    Translates t later (part >>= next) (other >>= rest) := by
  intro before
  rw [run_bind, run_bind, first before]
  cases part.run.run before with
  | mk result middle =>
      cases result with
      | error defect => rfl
      | ok a => exact follow a middle

theorem map {part : SetUp α} {other : SetUp β} {f : α → γ} {g : β → δ}
    (first : Translates t image part other) (same : ∀ a, g (image a) = later (f a)) :
    Translates t later (part >>= fun a => Pure.pure (f a)) (other >>= fun b => Pure.pure (g b)) := by
  refine first.bind fun a => ?_
  rw [same a]
  exact pure later (f a)

/-- Where both parts succeed. -/
theorem at_gives {part : SetUp α} {other : SetUp β} {a : α} {before after : State}
    (first : Gives part before a after)
    (second : Gives other (before.translate t) (image a) (after.translate t)) :
    other.run.run (before.translate t) =
      (((part.run.run before).1.map image).mapError (Defect.renumber t.numbers),
        (part.run.run before).2.translate t) := by
  rw [first, second]
  rfl

theorem report (event : Event) :
    Translates t id (report event) (SetUp.report (event.translate t)) := by
  intro before
  apply at_gives (gives_report event)
  simp only [State.translate, List.map_append]
  exact gives_report _

theorem start (work : Work) : Translates t id (start work) (SetUp.start (work.translate t)) := by
  intro before
  apply at_gives (gives_start work)
  simp only [State.translate, List.map_append]
  exact gives_start _

theorem register (names : List Name) (observed : Bool) (work : Work) :
    Translates t id (SetUp.bind names observed work)
      (SetUp.bind (names.map t.numbers.name) observed (work.translate t)) := by
  intro before
  apply at_gives (gives_bind names observed work)
  simp only [State.translate, Frame.renumber, Frame.add, List.map_append]
  exact gives_bind _ _ _

theorem read (name : Name) :
    Translates t (Work.translate t) (read name) (SetUp.read (t.numbers.name name)) := by
  intro before
  have found := before.frame.find?_renumber t.injective name
  cases known : before.frame.find? name with
  | none =>
      rw [known, Option.map_none] at found
      have missing : Breaks _ (before.translate t) _ _ := read_missing found
      rw [read_missing known, missing]
      rfl
  | some meaning =>
      rw [known, Option.map_some] at found
      obtain ⟨binding, place⟩ := meaning
      cases binding with
      | parameter other value => exact at_gives (gives_parameter known) (gives_parameter found)
      | started names task observed =>
          have gives := @gives_read (before.translate t) _ _ _ _ _ found
          rw [State.translate, Frame.observe_renumber t.injective] at gives
          -- The place among the other names is a place among as many.
          have picked := Continuation.pick_cast (List.length_map t.numbers.name).symm place
          have same := congrArg (fun next => Gives (SetUp.read (t.numbers.name name))
            (before.translate t) (.after (.wait task) next)
            (State.translate t { before with frame := before.frame.observe name })) picked
          exact at_gives (gives_read known) (same.mp gives)

end Translates

variable {t : Translation} {registry : Registry}

mutual

theorem setUp_translates (setting : Setting) : ∀ step : Step,
    Translates t (Work.translate t) (setUp registry setting step)
      (setUp registry (t.setting setting) (step.renumber t.numbers))
  | .literal literal => by
      rw [setUp, Step.renumber, setUp]
      exact setUpLiteral_translates setting literal
  | .bind names step => by
      rw [setUp, Step.renumber, setUp]
      refine (Translates.report (.binding names setting)).bind fun _ => ?_
      refine (setUp_translates setting step).bind fun work => ?_
      exact (Translates.register names true work).map fun task => rfl
  | .call callee argument => by
      rw [setUp, Step.renumber, setUp]
      exact (setUp_translates setting argument).map fun work => rfl
  | .invoke name argument => by
      have whole := setUp_translates setting argument
      rw [setUp, Step.renumber, setUp]
      cases registry.lookup name with
      | none => exact .throw _
      | some primitive =>
          dsimp only
          split
          · rename_i operator left right same
            simp only [Step.renumber, stepsRenumber, same]
            refine (setUp_translates setting left).bind fun first => ?_
            refine (Translates.start first).bind fun one => ?_
            refine (setUp_translates setting right).bind fun second => ?_
            refine (Translates.start second).map fun other => ?_
            cases operator <;> rfl
          · rename_i apart
            split
            · rename_i operator left right same pair
              obtain ⟨first, second, rfl⟩ := Step.renumber_eq_pair pair
              exact absurd rfl (apart operator first second same)
            · exact whole.map fun work => rfl
  | .tuple steps => by
      rw [setUp, Step.renumber, setUp]
      exact (setUpAll_translates setting steps).map fun works => rfl
  | .read name => by
      rw [setUp, Step.renumber, setUp]
      exact .read name

theorem setUpLiteral_translates (setting : Setting) : ∀ literal : Literal,
    Translates t (Work.translate t) (setUpLiteral registry setting literal)
      (setUpLiteral registry (t.setting setting) (literal.renumber t.numbers))
  | .unit | .text _ | .quantity _ => by
      rw [setUpLiteral, Literal.renumber, setUpLiteral]
      exact .pure _ _
  | .tablet fields => by
      rw [setUpLiteral, Literal.renumber, setUpLiteral]
      refine (setUpFields_translates setting fields).map fun works => ?_
      rw [stepFieldsRenumber_labels]
      rfl

theorem setUpAll_translates (setting : Setting) : ∀ steps : List Step,
    Translates t (worksTranslate t) (setUpAll registry setting steps)
      (setUpAll registry (t.setting setting) (stepsRenumber t.numbers steps))
  | [] => by
      rw [setUpAll, stepsRenumber, setUpAll]
      exact .pure _ _
  | step :: steps => by
      rw [setUpAll, stepsRenumber, setUpAll]
      refine (setUp_translates setting step).bind fun work => ?_
      exact (setUpAll_translates setting steps).map fun works => rfl

theorem setUpFields_translates (setting : Setting) : ∀ fields : List (Label × Step),
    Translates t (worksTranslate t) (setUpFields registry setting fields)
      (setUpFields registry (t.setting setting) (stepFieldsRenumber t.numbers fields))
  | [] => by
      rw [setUpFields, stepFieldsRenumber, setUpFields]
      exact .pure _ _
  | (_, step) :: fields => by
      rw [setUpFields, stepFieldsRenumber, setUpFields]
      refine (setUp_translates setting step).bind fun work => ?_
      exact (setUpFields_translates setting fields).map fun works => rfl

end

theorem setUpEntry_translates (index : Nat) (isLast : Bool) (entry : Entry) :
    Translates t (Work.translate t) (setUpEntry registry index isLast entry)
      (setUpEntry registry index isLast (entry.translate t)) := by
  obtain ⟨setting, step⟩ := entry
  rw [setUpEntry, setUpEntry]
  refine (Translates.report (.starting index setting)).bind fun _ => ?_
  cases step with
  | bind names step =>
      refine (Translates.report (.binding names setting)).bind fun _ => ?_
      refine (setUp_translates setting step).bind fun work => ?_
      refine (Translates.register names isLast work).bind fun task => ?_
      cases isLast
      · exact .pure _ _
      · exact .pure _ _
  | literal literal => exact setUp_translates setting (.literal literal)
  | call callee argument => exact setUp_translates setting (.call callee argument)
  | invoke name argument => exact setUp_translates setting (.invoke name argument)
  | tuple steps => exact setUp_translates setting (.tuple steps)
  | read name => exact setUp_translates setting (.read name)

end SetUp

end Runbook
