import Runbook.Proofs.Evaluation.Sites
import Runbook.Proofs.Evaluation.Followed

/-!
Works that have nothing to do with other tasks.

A step that starts nothing is set up to the same work whatever else goes on, and the work is
solitary: it waits for no task and starts none. What a solitary work does next depends on nothing
but the moment, and as long as no moment has come that it waits for, it does nothing.
-/
namespace Runbook

theorem Given.asked {frame : Frame} (fixed : Given frame.bindings) : frame.unobserved = [] := by
  refine List.filterMap_eq_nil_iff.mpr fun binding inside => ?_
  obtain ⟨name, value, rfl⟩ := fixed binding inside
  rfl

/-- The step starts no tasks, and needs only what is allowed. -/
structure Step.Idle (registry : Registry) (allowed : Need → Prop) (step : Step) : Prop where
  starts : step.starts registry = 0
  needs : ∀ need ∈ step.needs, allowed need

/-- Routines that are allowed start no tasks, and need only what is allowed. -/
def Machine.Idle (machine : Machine) (allowed : Need → Prop) : Prop :=
  ∀ {callee routine}, allowed (.routine callee) → machine.library.get? callee = some routine →
    ∀ entry ∈ routine.sequence, entry.step.Idle machine.registry allowed

/-- The work waits for no task and starts none, nor do the entries that it has still to begin. -/
inductive Work.Solitary (registry : Registry) (allowed : Need → Prop) : Work → Prop
  | done (outcome : Outcome) : Solitary registry allowed (.done outcome)
  | broken (defect : Defect) : Solitary registry allowed (.broken defect)
  | sleep (wake : Nat) (outcome : Outcome) : Solitary registry allowed (.sleep wake outcome)
  | after {source next} : Solitary registry allowed source →
      (∀ callee, next = .call callee → allowed (.routine callee)) →
      Solitary registry allowed (.after source next)
  | gather (shape : Shape) {members} : (∀ member ∈ members, Solitary registry allowed member) →
      Solitary registry allowed (.gather shape members)
  | body {frame current entries} (index : Nat) : Given frame.bindings →
      Solitary registry allowed current →
      (∀ entry ∈ entries, entry.step.Idle registry allowed) →
      Solitary registry allowed (.body frame current index entries)
  | settle (result : Value) : Solitary registry allowed (.settle [] result)

namespace SetUp

variable {α β : Type} {registry : Registry} {frame : Frame} {allowed : Need → Prop}

/-- In the frame the part makes the result, and does nothing else. -/
def Merely (part : SetUp α) (frame : Frame) (result : Except Defect α) : Prop :=
  ∀ next started events,
    part.run.run ⟨frame, next, started, events⟩ = (result, ⟨frame, next, started, events⟩)

namespace Merely

theorem pure (a : α) : Merely (Pure.pure a) frame (.ok a) := fun _ _ _ => rfl

theorem bind {part : SetUp α} {next : α → SetUp β} {a : α} {result : Except Defect β}
    (first : Merely part frame (.ok a)) (rest : Merely (next a) frame result) :
    Merely (part >>= next) frame result := by
  intro task started events
  rw [run_bind, first]
  exact rest task started events

theorem broken {part : SetUp α} {defect : Defect} (first : Merely part frame (.error defect))
    (next : α → SetUp β) : Merely (part >>= next) frame (.error defect) := by
  intro task started events
  rw [run_bind, first]

theorem unique {part : SetUp α} {one other : Except Defect α} (first : Merely part frame one)
    (again : Merely part frame other) : one = other :=
  congrArg Prod.fst ((first 0 [] []).symm.trans (again 0 [] []))

end Merely

/-- The part does nothing but to break down, or to make something of that kind. -/
def Forms (part : SetUp α) (frame : Frame) (kind : α → Prop) : Prop :=
  ∃ result, Merely part frame result ∧ ∀ a, result = .ok a → kind a

theorem Forms.of_ok {part : SetUp α} {kind : α → Prop} {a : α} (makes : Forms part frame kind)
    (merely : Merely part frame (.ok a)) : kind a := by
  obtain ⟨result, made, kinds⟩ := makes
  exact kinds a (made.unique merely)

theorem Forms.pure {kind : α → Prop} {a : α} (made : kind a) :
    Forms (Pure.pure a) frame kind :=
  ⟨_, .pure a, fun _ same => Except.ok.inj same ▸ made⟩

theorem Forms.bind {part : SetUp α} {next : α → SetUp β} {kind : α → Prop} {kind' : β → Prop}
    (first : Forms part frame kind) (rest : ∀ a, kind a → Forms (next a) frame kind') :
    Forms (part >>= next) frame kind' := by
  obtain ⟨result, made, kinds⟩ := first
  cases result with
  | error defect => exact ⟨_, made.broken next, nofun⟩
  | ok a =>
      obtain ⟨result, later, kinds⟩ := rest a (kinds a rfl)
      exact ⟨result, made.bind later, kinds⟩

theorem forms_read (fixed : Given frame.bindings) (name : Name) :
    Forms (SetUp.read name) frame fun work => ∃ value, work = .done (.ok value) := by
  cases found : frame.find? name with
  | none =>
      refine ⟨.error (.unboundName name), fun next started events => ?_, nofun⟩
      rw [SetUp.read, run_bind, gives_get]
      dsimp only
      rw [found]
      rfl
  | some meaning =>
      obtain ⟨binding, place⟩ := meaning
      obtain ⟨other, value, rfl⟩ := fixed binding (Frame.find?_mem found)
      exact ⟨_, fun next started events => gives_parameter found,
        fun _ same => ⟨value, (Except.ok.inj same).symm⟩⟩


/-- The works that are made of steps that start nothing. -/
def Lone (registry : Registry) (allowed : Need → Prop) (work : Work) : Prop :=
  work.Solitary registry allowed ∧ work.failed? = none

mutual

/-- A step that starts nothing makes a solitary work, and does nothing else. -/
theorem forms_setUp (fixed : Given frame.bindings) (setting : Setting) : ∀ step : Step,
    step.Idle registry allowed →
      Forms (setUp registry setting step) frame (Lone registry allowed)
  | .literal literal, idle => forms_setUpLiteral fixed setting literal idle
  | .bind names step, idle => absurd idle.starts (Nat.succ_ne_zero _)
  | .call callee argument, idle => by
      rw [setUp]
      refine (forms_setUp fixed setting argument ⟨idle.starts, fun need inside =>
        idle.needs need (List.mem_cons_of_mem _ inside)⟩).bind fun work lone => .pure ⟨?_, rfl⟩
      refine .after lone.1 fun other same => ?_
      cases same
      exact idle.needs _ List.mem_cons_self
  | .invoke name argument, idle => by
      have starts : argument.starts registry + registry.splits name argument = 0 := idle.starts
      rw [Nat.add_eq_zero_iff] at starts
      have inner : argument.Idle registry allowed :=
        ⟨starts.1, fun need inside => idle.needs need (List.mem_cons_of_mem _ inside)⟩
      cases found : registry.lookup name with
      | none =>
          rw [setUp, found]
          exact ⟨_, fun _ _ _ => rfl, nofun⟩
      | some primitive =>
          have whole : ∀ operator left right, primitive.operator = some operator →
              argument ≠ .tuple [left, right] := by
            rintro operator left right operates rfl
            rw [Registry.splits, Registry.operates_eq found, operates] at starts
            cases starts.2
          rw [setUp_invoke found whole]
          exact (forms_setUp fixed setting argument inner).bind fun work lone =>
            .pure ⟨.after lone.1 nofun, rfl⟩
  | .tuple steps, idle => by
      rw [setUp]
      exact (forms_setUpAll fixed setting steps idle.starts idle.needs).bind fun works lone =>
        .pure ⟨.gather _ fun work inside => (lone work inside).1, rfl⟩
  | .read name, _ => by
      rw [setUp]
      obtain ⟨result, made, kinds⟩ := forms_read fixed name
      refine ⟨result, made, fun work same => ?_⟩
      obtain ⟨value, rfl⟩ := kinds work same
      exact ⟨.done _, rfl⟩

theorem forms_setUpLiteral (fixed : Given frame.bindings) (setting : Setting) :
    ∀ literal : Literal, (Step.literal literal).Idle registry allowed →
      Forms (setUpLiteral registry setting literal) frame (Lone registry allowed)
  | .unit, _ | .text _, _ | .quantity _, _ => .pure ⟨.done _, rfl⟩
  | .tablet fields, idle => by
      rw [setUpLiteral]
      exact (forms_setUpFields fixed setting fields idle.starts idle.needs).bind fun works lone =>
        .pure ⟨.gather _ fun work inside => (lone work inside).1, rfl⟩

theorem forms_setUpAll (fixed : Given frame.bindings) (setting : Setting) : ∀ steps : List Step,
    stepsStarts registry steps = 0 → (∀ need ∈ stepsNeeds steps, allowed need) →
      Forms (setUpAll registry setting steps) frame
        fun works => ∀ work ∈ works, Lone registry allowed work
  | [], _, _ => .pure (List.forall_mem_nil _)
  | step :: steps, starts, needs => by
      rw [stepsStarts, Nat.add_eq_zero_iff] at starts
      obtain ⟨here, later⟩ := List.forall_mem_append.mp needs
      rw [setUpAll]
      exact (forms_setUp fixed setting step ⟨starts.1, here⟩).bind fun work lone =>
        (forms_setUpAll fixed setting steps starts.2 later).bind fun works others =>
          .pure (List.forall_mem_cons.mpr ⟨lone, others⟩)

theorem forms_setUpFields (fixed : Given frame.bindings) (setting : Setting) :
    ∀ fields : List (Label × Step), fieldsStarts registry fields = 0 →
      (∀ need ∈ fieldsNeeds fields, allowed need) →
      Forms (setUpFields registry setting fields) frame
        fun works => ∀ work ∈ works, Lone registry allowed work
  | [], _, _ => .pure (List.forall_mem_nil _)
  | (_, step) :: fields, starts, needs => by
      rw [fieldsStarts, Nat.add_eq_zero_iff] at starts
      obtain ⟨here, later⟩ := List.forall_mem_append.mp needs
      rw [setUpFields]
      exact (forms_setUp fixed setting step ⟨starts.1, here⟩).bind fun work lone =>
        (forms_setUpFields fixed setting fields starts.2 later).bind fun works others =>
          .pure (List.forall_mem_cons.mpr ⟨lone, others⟩)

end

/-- Steps that make their works make them together. -/
theorem merely_setUpAll (setting : Setting) {steps : List Step} {works : List Work}
    (each : List.Forall₂ (fun step work => Merely (setUp registry setting step) frame (.ok work))
      steps works) : Merely (setUpAll registry setting steps) frame (.ok works) := by
  induction each with
  | nil => exact .pure []
  | cons first _ ih =>
      rw [setUpAll]
      exact first.bind (ih.bind (.pure _))

theorem merely_setUpFields (setting : Setting) {fields : List (Label × Step)} {works : List Work}
    (each : List.Forall₂ (fun step work => Merely (setUp registry setting step) frame (.ok work))
      (fields.map Prod.snd) works) :
    Merely (setUpFields registry setting fields) frame (.ok works) := by
  induction fields generalizing works with
  | nil =>
      cases each
      exact .pure []
  | cons field fields ih =>
      cases each with
      | cons first rest =>
          rw [setUpFields]
          exact first.bind ((ih rest).bind (.pure _))

end SetUp

/-- A world that has come to the moment, and nothing in it. -/
def World.bare (clock : Nat) : World := ⟨clock, [], [], []⟩

namespace Machine

variable {machine : Machine} {allowed : Need → Prop} {world world' : World}

/-- Any other entry than a binding is set up as its step. -/
theorem setUpEntry_idle {registry : Registry} {entry : Entry}
    (idle : entry.step.Idle registry allowed) (index : Nat) (isLast : Bool) :
    setUpEntry registry index isLast entry = (do
      SetUp.report (.starting index entry.setting)
      setUp registry entry.setting entry.step) := by
  obtain ⟨setting, step⟩ := entry
  cases step with
  | bind names step => exact absurd idle.starts (Nat.succ_ne_zero _)
  | _ => rfl

/-- An entry that starts nothing begins in the same way whatever else goes on. -/
theorem begin_merely {frame : Frame} {entry : Entry} {work : Work}
    (idle : entry.step.Idle machine.registry allowed)
    (made : SetUp.Merely (setUp machine.registry entry.setting entry.step) frame (.ok work))
    (next : TaskId) (index : Nat) (entries : List Entry) :
    machine.begin next frame index entry entries =
      ⟨.body frame work (index + 1) entries, [], [.starting index entry.setting], none⟩ := by
  have run := made next [] [.starting index entry.setting]
  rw [begin, setUpEntry_idle idle, SetUp.run_bind, SetUp.gives_report]
  dsimp only [List.nil_append]
  rw [run]

theorem begin_broken {frame : Frame} {entry : Entry} {defect : Defect}
    (idle : entry.step.Idle machine.registry allowed)
    (made : SetUp.Merely (setUp machine.registry entry.setting entry.step) frame (.error defect))
    (next : TaskId) (index : Nat) (entries : List Entry) :
    machine.begin next frame index entry entries =
      ⟨.broken defect, [], [.starting index entry.setting], none⟩ := by
  have run := made next [] [.starting index entry.setting]
  rw [begin, setUpEntry_idle idle, SetUp.run_bind, SetUp.gives_report]
  dsimp only [List.nil_append]
  rw [run]

theorem stepFirst?_same {members : List Work} (same : ∀ member ∈ members,
      machine.step? world member = machine.step? world' member) (context : List Work → Work) :
    machine.stepFirst? world context members = machine.stepFirst? world' context members := by
  induction members generalizing context with
  | nil => rfl
  | cons member members ih =>
      obtain ⟨here, later⟩ := List.forall_mem_cons.mp same
      rw [stepFirst?, stepFirst?, here]
      cases machine.step? world' member with
      | some change => rfl
      | none => exact ih later _

/-- The first of works that can move does so in a context, or none can. -/
theorem stepFirst?_cases (machine : Machine) (world : World) (members : List Work)
    (context : List Work → Work) :
    (∃ before member after change, members = before ++ member :: after ∧
      (∀ other ∈ before, machine.step? world other = none) ∧
      machine.step? world member = some change ∧
      machine.stepFirst? world context members =
        some (change.within fun work => context (before ++ work :: after))) ∨
    machine.stepFirst? world context members = none := by
  induction members generalizing context with
  | nil => exact .inr rfl
  | cons member members ih =>
      rw [stepFirst?]
      cases moved : machine.step? world member with
      | some change =>
          exact .inl ⟨[], member, members, change, rfl, List.forall_mem_nil _, moved, rfl⟩
      | none =>
          refine (ih _).imp_left fun found => ?_
          obtain ⟨before, other, after, change, rfl, still, moved', same⟩ := found
          exact ⟨member :: before, other, after, change, rfl,
            List.forall_mem_cons.mpr ⟨moved, still⟩, moved', same⟩

/-- How works that are gathered go on: they are spoiled, or have all their values, or else the first
that can move does. -/
inductive Gathers (machine : Machine) (world : World) (shape : Shape) (members : List Work) :
    Option Change → Prop
  | spoiled {failed : Work} : Work.spoiled? members = some failed →
      Gathers machine world shape members (some (.become failed))
  | collected {values : List Value} : Work.spoiled? members = none →
      members.mapM Work.value? = some values →
      Gathers machine world shape members (some (.become (.done (.ok (shape.collect values)))))
  | moves {before : List Work} {member : Work} {after : List Work} {change : Change} :
      Work.spoiled? members = none → members.mapM Work.value? = none →
      members = before ++ member :: after → (∀ other ∈ before, machine.step? world other = none) →
      machine.step? world member = some change →
      Gathers machine world shape members
        (some (change.within fun work => .gather shape (before ++ work :: after)))
  | still : Work.spoiled? members = none → members.mapM Work.value? = none →
      (∀ member ∈ members, machine.step? world member = none) →
      Gathers machine world shape members none

theorem gathers (machine : Machine) (world : World) (shape : Shape) (members : List Work) :
    machine.Gathers world shape members (machine.step? world (.gather shape members)) := by
  cases spoiled : Work.spoiled? members with
  | some failed =>
      rw [step?, spoiled]
      exact .spoiled spoiled
  | none =>
      cases collected : members.mapM Work.value? with
      | some values =>
          rw [step?, spoiled, collected]
          exact .collected spoiled collected
      | none =>
          rw [step?, spoiled, collected]
          dsimp only
          rcases stepFirst?_cases machine world members (.gather shape) with found | none
          · obtain ⟨before, member, after, change, split, still, moved, same⟩ := found
            rw [same]
            exact .moves spoiled collected split still moved
          · rw [none]
            exact .still spoiled collected (stepFirst?_eq_none none)

end Machine

/-- The change starts nothing and meets nothing, and its work is solitary. -/
structure Change.Solitary (registry : Registry) (allowed : Need → Prop) (change : Change) :
    Prop where
  started : change.started = []
  met : change.met = none
  work : change.work.Solitary registry allowed

namespace Change.Solitary

variable {registry : Registry} {allowed : Need → Prop} {change : Change}

theorem become {work : Work} (solitary : work.Solitary registry allowed) :
    (Change.become work).Solitary registry allowed := ⟨rfl, rfl, solitary⟩

theorem within (solitary : change.Solitary registry allowed) {context : Work → Work}
    (work : (context change.work).Solitary registry allowed) :
    (change.within context).Solitary registry allowed :=
  ⟨solitary.started, solitary.met, work⟩

theorem enter {routine : Routine}
    (idle : ∀ entry ∈ routine.sequence, entry.step.Idle registry allowed) (argument : Value) :
    (Runbook.enter routine argument).Solitary registry allowed := by
  rw [Runbook.enter]
  split
  · exact ⟨rfl, rfl, .body 0 (List.forall_mem_nil _) (.done _) idle⟩
  · split
    · exact ⟨rfl, rfl, .body 0 (given_ofParameters _ _) (.done _) idle⟩
    · exact ⟨rfl, rfl, .done _⟩

variable {machine : Machine}

theorem goOn (idle : machine.Idle allowed) (clock : Nat) (value : Value) {next : Continuation}
    (calls : ∀ callee, next = .call callee → allowed (.routine callee)) :
    (machine.goOn clock value next).Solitary machine.registry allowed := by
  cases next with
  | pick names place =>
      rw [Machine.goOn]
      split
      · exact .become (.done _)
      · exact .become (.done _)
  | call callee =>
      rw [Machine.goOn]
      split
      · exact .enter (idle (calls callee rfl) ‹_›) value
      · exact .become (.broken _)
  | invoke primitive =>
      rw [Machine.goOn, Machine.goOn.perform]
      refine ⟨rfl, rfl, ?_⟩
      dsimp only
      split
      · exact .done _
      · exact .sleep _ _
  | join primitive =>
      rw [Machine.goOn, Machine.goOn.perform]
      refine ⟨rfl, rfl, ?_⟩
      dsimp only
      split
      · exact .done _
      · exact .sleep _ _

theorem begin {frame : Frame} (fixed : Given frame.bindings) {entry : Entry}
    {entries : List Entry} (idle : ∀ other ∈ entry :: entries,
      other.step.Idle machine.registry allowed) (index : Nat) :
    ∃ change : Change, change.Solitary machine.registry allowed ∧
      ∀ next, machine.begin next frame index entry entries = change := by
  obtain ⟨first, rest⟩ := List.forall_mem_cons.mp idle
  obtain ⟨result, made, kinds⟩ := SetUp.forms_setUp fixed entry.setting entry.step first
  cases result with
  | ok work =>
      exact ⟨_, ⟨rfl, rfl, .body _ fixed (kinds work rfl).1 rest⟩,
        fun next => Machine.begin_merely first made next index entries⟩
  | error defect =>
      exact ⟨_, ⟨rfl, rfl, .broken defect⟩,
        fun next => Machine.begin_broken first made next index entries⟩

end Change.Solitary

namespace Work

variable {machine : Machine} {allowed : Need → Prop} {work : Work}

theorem Solitary.of_failed? {registry : Registry} {failed : Work}
    (fails : work.failed? = some failed) : failed.Solitary registry allowed := by
  cases failed with
  | done outcome => exact .done _
  | broken defect => exact .broken _
  | _ => cases ended?_of_failed? fails

/-- What a solitary work does next depends on the moment only, and it stays solitary. -/
theorem Solitary.moves (idle : machine.Idle allowed)
    (solitary : work.Solitary machine.registry allowed) (world : World) :
    machine.step? world work = machine.step? (.bare world.clock) work ∧
      ∀ change, machine.step? world work = some change →
        change.Solitary machine.registry allowed := by
  induction solitary with
  | done outcome => exact ⟨rfl, nofun⟩
  | broken defect => exact ⟨rfl, nofun⟩
  | sleep wake outcome =>
      refine ⟨rfl, fun change moved => ?_⟩
      rw [Machine.step?] at moved
      split at moved
      · cases moved
        exact .become (.done _)
      · cases moved
  | @after source next inner calls ih =>
      cases ended : source.ended? with
      | none =>
          rw [Machine.step?_after next ended, Machine.step?_after next ended, ih.1]
          refine ⟨rfl, fun change moved => ?_⟩
          obtain ⟨part, first, rfl⟩ := Option.map_eq_some_iff.mp moved
          have part := ih.2 part (ih.1.trans first)
          exact part.within (.after part.work calls)
      | some ended =>
          cases inner with
          | done outcome =>
              cases outcome with
              | ok value =>
                  refine ⟨rfl, fun change moved => ?_⟩
                  cases moved
                  exact .goOn idle _ value calls
              | error failure =>
                  refine ⟨rfl, fun change moved => ?_⟩
                  cases moved
                  exact .become (.done _)
          | broken defect =>
              refine ⟨rfl, fun change moved => ?_⟩
              cases moved
              exact .become (.broken _)
          | _ => cases ended
  | @gather shape members inner ih =>
      have same := Machine.stepFirst?_same (fun member inside => (ih member inside).1)
        (.gather shape)
      refine ⟨?_, fun change moved => ?_⟩
      · rw [Machine.step?, Machine.step?, same]
      · have cases' := machine.gathers world shape members
        rw [moved] at cases'
        cases cases' with
        | spoiled found =>
            obtain ⟨other, _, fails⟩ := Moves.spoiled_mem found
            exact .become (.of_failed? fails)
        | collected _ _ => exact .become (.done _)
        | moves _ _ split _ first =>
            subst split
            obtain ⟨before, others⟩ := List.forall_mem_append.mp inner
            obtain ⟨_, after⟩ := List.forall_mem_cons.mp others
            have part := (ih _ List.mem_append_cons_self).2 _ first
            exact part.within (.gather shape (List.forall_mem_append.mpr
              ⟨before, List.forall_mem_cons.mpr ⟨part.work, after⟩⟩))
  | @body frame current entries index fixed inner rest ih =>
      cases ended : current.ended? with
      | none =>
          rw [Machine.step?_body frame index entries ended,
            Machine.step?_body frame index entries ended, ih.1]
          refine ⟨rfl, fun change moved => ?_⟩
          obtain ⟨part, first, rfl⟩ := Option.map_eq_some_iff.mp moved
          have part := ih.2 part (ih.1.trans first)
          exact part.within (.body index fixed part.work rest)
      | some ended =>
          cases inner with
          | done outcome =>
              cases outcome with
              | error failure =>
                  refine ⟨rfl, fun change moved => ?_⟩
                  cases moved
                  exact ⟨rfl, rfl, .done _⟩
              | ok value =>
                  cases entries with
                  | nil =>
                      refine ⟨rfl, fun change moved => ?_⟩
                      cases moved
                      have asked : frame.unobserved = [] := Given.asked fixed
                      rw [asked]
                      exact .become (.settle value)
                  | cons entry entries =>
                      obtain ⟨change, solitary, begins⟩ :=
                        Change.Solitary.begin fixed rest index
                      rw [Machine.step?, Machine.step?, begins, begins]
                      refine ⟨rfl, fun other moved => ?_⟩
                      cases moved
                      exact solitary
          | broken defect =>
              refine ⟨rfl, fun change moved => ?_⟩
              cases moved
              exact .become (.broken _)
          | _ => cases ended
  | settle result =>
      refine ⟨rfl, fun change moved => ?_⟩
      cases moved
      exact ⟨rfl, rfl, .done _⟩

/-- A solitary work that could not move still cannot, before any moment comes that it waits for. -/
theorem Solitary.still {registry : Registry} (solitary : work.Solitary registry allowed)
    {clock later : Nat} (still : machine.step? (.bare clock) work = none)
    (early : ∀ wake ∈ work.wakes, later < wake) : machine.step? (.bare later) work = none := by
  induction solitary with
  | done outcome => rfl
  | broken defect => rfl
  | sleep wake outcome =>
      have early : later < wake := early wake List.mem_cons_self
      rw [Machine.step?]
      exact if_neg (Nat.not_le_of_lt early)
  | @after source next _ _ ih =>
      obtain ⟨going, part⟩ := Machine.step?_after_eq_none still
      rw [Machine.step?_after next going, ih part early]
      rfl
  | @gather shape members _ ih =>
      have before := machine.gathers (.bare clock) shape members
      rw [still] at before
      cases before with
      | still whole uncollected parts =>
          rw [Machine.step?, whole, uncollected]
          exact Machine.stepFirst?_still fun member inside =>
            ih member inside (parts member inside) fun wake awaited =>
              early wake (Work.mem_wakesOfAll.mpr ⟨member, inside, awaited⟩)
  | @body frame current entries index _ _ _ ih =>
      obtain ⟨going, part⟩ := Machine.step?_body_eq_none still
      rw [Machine.step?_body frame index entries going, ih part early]
      rfl
  | settle result => cases still

end Work

end Runbook
