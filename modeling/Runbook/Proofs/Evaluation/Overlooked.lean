import Runbook.Proofs.Evaluation.Followed

/-!
Bindings that nothing asks for.

Bindings that stand in the frame of a run, behind its parameters, have no effect if no entry that is
still to come reads a name of theirs before it binds it itself: all goes on as if they were not
there. Nor does it matter, but for traces, from what number on the entries are counted.
-/
namespace Runbook

/-- The name is not hidden: one of the other bindings has it, or none of the hidden ones. -/
def Plainly (hidden own : List Binding) (name : Name) : Prop :=
  name ∈ own.flatMap Binding.names ∨ name ∉ hidden.flatMap Binding.names

namespace Frame

variable {given hidden own : List Binding} {name : Name}

theorem plainly_cons {binding : Binding} (plain : Plainly (binding :: hidden) own name) :
    Plainly hidden own name := by
  refine plain.imp_right fun absent inside => absent ?_
  rw [List.flatMap_cons]
  exact List.mem_append_right _ inside

/-- A name that is not hidden means the same without the hidden bindings. -/
theorem find?_hidden (plain : Plainly hidden own name) :
    (Frame.mk (given ++ (hidden ++ own))).find? name = (Frame.mk (given ++ own)).find? name := by
  have rest : findIn? name (hidden ++ own) = findIn? name own := by
    induction hidden with
    | nil => rfl
    | cons binding hidden ih =>
        rw [List.cons_append, BindingsAlike.findIn?_foreign fun named => ?_]
        · exact ih (plainly_cons plain)
        · have inside : name ∈ own.flatMap Binding.names := by
            refine plain.resolve_right fun absent => absent ?_
            rw [List.flatMap_cons]
            exact List.mem_append_left _ named
          rw [ih (plainly_cons plain)]
          have found : ((Frame.mk own).find? name).isSome := find?_isSome inside
          exact found
  rw [find?, find?]
  induction given with
  | nil => exact rest
  | cons binding given ih =>
      change findIn? name (binding :: (given ++ (hidden ++ own))) =
        findIn? name (binding :: (given ++ own))
      rw [findIn?, findIn?, ih]

/-- Asking for a name that is not hidden leaves the hidden bindings as they are. -/
theorem observe_hidden (fixed : Given given) (plain : Plainly hidden own name) :
    (Frame.mk (given ++ (hidden ++ own))).observe name =
      ⟨given ++ (hidden ++ ((Frame.mk own).observe name).bindings)⟩ := by
  have rest : (Frame.mk (hidden ++ own)).observe name =
      ⟨hidden ++ ((Frame.mk own).observe name).bindings⟩ := by
    induction hidden with
    | nil => rfl
    | cons binding hidden ih =>
        rw [List.cons_append, observe_cons, ih (plainly_cons plain), if_neg]
        · rfl
        · intro here
          refine here.2 ?_
          rw [List.flatMap_append]
          refine List.mem_append_right _ (plain.resolve_right fun absent => absent ?_)
          rw [List.flatMap_cons]
          exact List.mem_append_left _ here.1
  rw [observe_given fixed, rest]

theorem plainly_observe {other : Name} :
    Plainly hidden ((Frame.mk own).observe name).bindings other ↔ Plainly hidden own other := by
  have names := congrArg List.flatten (observe_map ⟨own⟩ name).1
  rw [Plainly, Plainly, List.flatMap_def, names, ← List.flatMap_def]

theorem unobserved_hidden (settled : ∀ binding ∈ hidden, binding.unobserved? = none) :
    (Frame.mk (given ++ (hidden ++ own))).unobserved = (Frame.mk (given ++ own)).unobserved := by
  rw [unobserved, unobserved, List.filterMap_append, List.filterMap_append, List.filterMap_append,
    List.filterMap_eq_nil_iff.mpr settled, List.nil_append]

end Frame

namespace SetUp

/-- The part does the same whether the hidden bindings stand in the frame or not, where what it
mentions and what is to be mentioned after it reads no name that is hidden. -/
def Overlooks {α : Type} (given hidden : List Binding) (mentions : List Mention)
    (part : SetUp α) : Prop :=
  ∀ (own : List Binding) (rest : List Mention) (next : TaskId) (started : List Work)
    (events events' : List Event), Seen (Plainly hidden own) (mentions ++ rest) →
    ∃ result own' next' started' more,
      part.run.run ⟨⟨given ++ own⟩, next, started, events⟩ =
        (result, ⟨⟨given ++ own'⟩, next', started', events ++ more⟩) ∧
      part.run.run ⟨⟨given ++ (hidden ++ own)⟩, next, started, events'⟩ =
        (result, ⟨⟨given ++ (hidden ++ own')⟩, next', started', events' ++ more⟩) ∧
      ∀ a, result = .ok a → Seen (Plainly hidden own') rest

variable {α β : Type} {given hidden : List Binding} {mentions more : List Mention}

namespace Overlooks

theorem bind {part : SetUp α} {next : α → SetUp β} (head : Overlooks given hidden mentions part)
    (tail : ∀ a, Overlooks given hidden more (next a)) :
    Overlooks given hidden (mentions ++ more) (part >>= next) := by
  intro own rest count started events events' sees
  rw [List.append_assoc] at sees
  obtain ⟨result, own', count', started', told, run, run', later⟩ :=
    head own (more ++ rest) count started events events' sees
  rw [run_bind, run_bind, run, run']
  cases result with
  | error defect => exact ⟨_, own', count', started', told, rfl, rfl, fun _ same => by cases same⟩
  | ok a =>
      obtain ⟨result, own'', count'', started'', tells, run, run', last⟩ :=
        tail a own' rest count' started' (events ++ told) (events' ++ told) (later a rfl)
      rw [List.append_assoc] at run run'
      exact ⟨result, own'', count'', started'', told ++ tells, run, run', last⟩

theorem after {part : SetUp α} {next : α → SetUp β} (head : Overlooks given hidden [] part)
    (tail : ∀ a, Overlooks given hidden more (next a)) :
    Overlooks given hidden more (part >>= next) :=
  head.bind tail

theorem pure (a : α) : Overlooks given hidden [] (Pure.pure a : SetUp α) := by
  intro own rest next started events events' sees
  refine ⟨.ok a, own, next, started, [], ?_, ?_, fun _ _ => sees⟩
  · rw [List.append_nil]
    rfl
  · rw [List.append_nil]
    rfl

theorem map {part : SetUp α} {f : α → β} (head : Overlooks given hidden mentions part) :
    Overlooks given hidden mentions (part >>= fun a => Pure.pure (f a)) := by
  rw [← List.append_nil mentions]
  exact head.bind fun a => .pure (f a)

theorem throw (defect : Defect) :
    Overlooks given hidden mentions (MonadExcept.throw defect : SetUp α) := by
  intro own rest next started events events' sees
  refine ⟨.error defect, own, next, started, [], ?_, ?_, fun _ same => by cases same⟩
  · rw [List.append_nil]
    rfl
  · rw [List.append_nil]
    rfl

theorem report (event : Event) : Overlooks given hidden [] (report event) :=
  fun own _ next started _ _ sees =>
    ⟨.ok (), own, next, started, [event], rfl, rfl, fun _ _ => sees⟩

theorem start (work : Work) : Overlooks given hidden [] (start work) := by
  intro own rest next started events events' sees
  refine ⟨.ok next, own, next + 1, started ++ [.fresh work], [], ?_, ?_, fun _ _ => sees⟩
  · rw [List.append_nil]
    rfl
  · rw [List.append_nil]
    rfl

theorem register (names : List Name) (observed : Bool) (work : Work) :
    Overlooks given hidden [.binding names] (SetUp.bind names observed work) := by
  intro own rest next started events events' sees
  refine ⟨.ok next, own ++ [.started names next observed], next + 1, started ++ [.fresh work], [],
    ?_, ?_, fun _ _ => Seen.mono sees fun name => ?_⟩
  · rw [List.append_nil, ← List.append_assoc]
    rfl
  · rw [List.append_nil, ← List.append_assoc hidden, ← List.append_assoc given (hidden ++ own)]
    rfl
  · intro plain
    rw [Plainly, List.flatMap_append, List.mem_append]
    rcases plain with (before | absent) | new
    · exact .inl (.inl before)
    · exact .inr absent
    · refine .inl (.inr ?_)
      rw [List.flatMap_singleton]
      exact new

theorem read (fixed : Given given) (name : Name) :
    Overlooks given hidden [.reading name] (SetUp.read name) := by
  intro own rest next started events events' sees
  obtain ⟨plain, later⟩ := sees
  have same := @Frame.find?_hidden given hidden own name plain
  have stays : Seen (Plainly hidden ((Frame.mk own).observe name).bindings) rest :=
    later.mono fun _ => Frame.plainly_observe.mpr
  cases found : (Frame.mk (given ++ own)).find? name with
  | none =>
      refine ⟨.error (.unboundName name), own, next, started, [], ?_, ?_, fun _ same => ?_⟩
      · rw [List.append_nil]
        exact read_missing found
      · rw [List.append_nil]
        exact read_missing (same.trans found)
      · cases same
  | some meaning =>
      obtain ⟨binding, place⟩ := meaning
      cases binding with
      | parameter other value =>
          refine ⟨.ok (.done (.ok value)), own, next, started, [], ?_, ?_, fun _ _ => later⟩
          · rw [List.append_nil]
            exact gives_parameter found
          · rw [List.append_nil]
            exact gives_parameter (same.trans found)
      | started names task observed =>
          refine ⟨.ok (.after (.wait task) (.pick names.length place)),
            ((Frame.mk own).observe name).bindings, next, started, [], ?_, ?_, fun _ _ => stays⟩
          · rw [List.append_nil, ← Frame.observe_given fixed]
            exact gives_read found
          · rw [List.append_nil, ← Frame.observe_hidden fixed plain]
            exact gives_read (same.trans found)

end Overlooks

variable {registry : Registry}

mutual

theorem setUp_overlooks (fixed : Given given) (hidden : List Binding) (setting : Setting) :
    ∀ step : Step, Overlooks given hidden step.mentions (setUp registry setting step)
  | .literal literal => setUpLiteral_overlooks fixed hidden setting literal
  | .bind names step => by
      rw [setUp]
      refine .after (.report _) fun _ => ?_
      refine (setUp_overlooks fixed hidden setting step).bind fun work => ?_
      exact (Overlooks.register names true work).map
  | .call callee argument => by
      rw [setUp]
      exact (setUp_overlooks fixed hidden setting argument).map
  | .invoke name argument => by
      rw [setUp]
      split
      · exact .throw _
      · have whole := setUp_overlooks fixed hidden setting argument
        split
        · rename_i operator left right _
          rw [Step.mentions, Step.mentions, stepsMentions, stepsMentions, stepsMentions,
            List.append_nil]
          refine (setUp_overlooks fixed hidden setting left).bind fun work => ?_
          refine .after (.start work) fun one => ?_
          rw [← List.append_nil right.mentions]
          refine (setUp_overlooks fixed hidden setting right).bind fun work => ?_
          exact (Overlooks.start work).map
        · exact whole.map
  | .tuple steps => by
      rw [setUp]
      exact (setUpAll_overlooks fixed hidden setting steps).map
  | .read name => by
      rw [setUp]
      exact .read fixed name

theorem setUpLiteral_overlooks (fixed : Given given) (hidden : List Binding) (setting : Setting) :
    ∀ literal : Literal,
      Overlooks given hidden literal.mentions (setUpLiteral registry setting literal)
  | .unit | .text _ | .quantity _ => .pure _
  | .tablet fields => by
      rw [setUpLiteral]
      exact (setUpFields_overlooks fixed hidden setting fields).map

theorem setUpAll_overlooks (fixed : Given given) (hidden : List Binding) (setting : Setting) :
    ∀ steps : List Step,
      Overlooks given hidden (stepsMentions steps) (setUpAll registry setting steps)
  | [] => .pure _
  | step :: steps => by
      rw [setUpAll]
      exact (setUp_overlooks fixed hidden setting step).bind fun _ =>
        (setUpAll_overlooks fixed hidden setting steps).map

theorem setUpFields_overlooks (fixed : Given given) (hidden : List Binding) (setting : Setting) :
    ∀ fields : List (Label × Step),
      Overlooks given hidden (fieldsMentions fields) (setUpFields registry setting fields)
  | [] => .pure _
  | (label, step) :: fields => by
      rw [setUpFields]
      exact (setUp_overlooks fixed hidden setting step).bind fun _ =>
        (setUpFields_overlooks fixed hidden setting fields).map

end

/-- What an entry is set up to, but for the report that it starts. -/
theorem setUpEntry_overlooks (fixed : Given given) (hidden : List Binding) (isLast : Bool)
    (entry : Entry) (own : List Binding) (rest : List Mention) (index count : Nat) (next : TaskId)
    (sees : Seen (Plainly hidden own) (entry.step.mentions ++ rest)) :
    ∃ result own' next' started more,
      (setUpEntry registry index isLast entry).run.run ⟨⟨given ++ own⟩, next, [], []⟩ =
        (result, ⟨⟨given ++ own'⟩, next', started, .starting index entry.setting :: more⟩) ∧
      (setUpEntry registry (index + count) isLast entry).run.run
          ⟨⟨given ++ (hidden ++ own)⟩, next, [], []⟩ =
        (result, ⟨⟨given ++ (hidden ++ own')⟩, next', started,
          .starting (index + count) entry.setting :: more⟩) ∧
      ∀ work, result = .ok work → Seen (Plainly hidden own') rest := by
  obtain ⟨setting, step⟩ := entry
  cases step with
  | bind names step =>
      have part : Overlooks given hidden (Step.bind names step).mentions (do
          SetUp.report (.binding names setting)
          let work ← setUp registry setting step
          let task ← SetUp.bind names isLast work
          if isLast then Pure.pure (Work.wait task) else Pure.pure (.done (.ok .unit))) := by
        refine .after (.report _) fun _ => ?_
        refine (setUp_overlooks fixed hidden setting step).bind fun work => ?_
        rw [← List.append_nil [Mention.binding names]]
        refine (Overlooks.register names isLast work).bind fun task => ?_
        split
        · exact .pure _
        · exact .pure _
      exact part own rest next [] [.starting index setting] [.starting (index + count) setting] sees
  | _ =>
      exact setUp_overlooks fixed hidden setting _ own rest next [] [.starting index setting]
        [.starting (index + count) setting] sees

end SetUp

/-- The second work is the first with the hidden bindings in its frame, and so many entries more
before it. Before an entry is begun, the value of the one before it does not matter. -/
inductive Work.Overlooks (given hidden : List Binding) (count : Nat) : Work → Work → Prop
  | body {own current current' index entries} :
      current = current' ∨ entries ≠ [] ∧ current.value?.isSome ∧ current'.value?.isSome →
      Seen (Plainly hidden own) (stepsMentions (entries.map Entry.step)) →
      Overlooks given hidden count (.body ⟨given ++ own⟩ current index entries)
        (.body ⟨given ++ (hidden ++ own)⟩ current' (index + count) entries)
  | same (work : Work) : Overlooks given hidden count work work

section
variable {given hidden : List Binding} {count : Nat} {machine : Machine} {world other : World}
  {one two : Work}

namespace Work.Overlooks

theorem ended? (overlooks : one.Overlooks given hidden count two) : two.ended? = one.ended? := by
  cases overlooks <;> rfl

theorem wakes (overlooks : one.Overlooks given hidden count two) : two.wakes = one.wakes := by
  cases overlooks with
  | same => rfl
  | @body own current current' index entries alike sees =>
      rcases alike with rfl | ⟨_, value, value'⟩
      · rfl
      · have none {work : Work} (value : work.value?.isSome) : work.wakes = [] := by
          cases work with
          | done outcome => rfl
          | _ => cases value
        rw [Work.wakes, Work.wakes, none value, none value']

theorem meet (overlooks : one.Overlooks given hidden count two) :
    one.meet.Overlooks given hidden count two.meet := by
  cases overlooks with
  | same => exact .same _
  | body alike sees => exact .body alike sees

end Work.Overlooks

/-- Beginning an entry that reads no name which is hidden. -/
theorem Machine.begin_overlooks (fixed : Given given) {own : List Binding} {entry : Entry}
    {entries : List Entry} {next : TaskId} {index : Nat} (positive : 0 < next)
    (sees : Seen (Plainly hidden own) (stepsMentions ((entry :: entries).map Entry.step))) :
    Change.Tied (.ofRun (Work.Overlooks given hidden count)) 0 next
      (machine.begin next ⟨given ++ own⟩ index entry entries)
      (machine.begin next ⟨given ++ (hidden ++ own)⟩ (index + count) entry entries) := by
  rw [List.map_cons, stepsMentions] at sees
  obtain ⟨result, own', next', started, more, run, run', later⟩ :=
    @SetUp.setUpEntry_overlooks _ machine.registry fixed hidden entries.isEmpty entry own
      _ index count next sees
  rw [begin, begin, run, run']
  cases result with
  | error defect => exact ⟨.same _, Ties.ofRun_started started positive, rfl, rfl⟩
  | ok work =>
      refine ⟨?_, Ties.ofRun_started started positive, rfl, rfl⟩
      rw [Nat.add_right_comm]
      exact .body (.inl rfl) (later work rfl)

/-- The run itself goes on in the same way. -/
theorem World.Tied.overlooks (fixed : Given given)
    (settled : ∀ binding ∈ hidden, binding.unobserved? = none)
    (tied : World.Tied (.ofRun (Work.Overlooks given hidden count)) [] 0 world other)
    (there : world.tasks[0]? = some one) (same : one.Overlooks given hidden count two) :
    Option.Rel (Change.Tied (.ofRun (Work.Overlooks given hidden count)) 0 world.tasks.length)
      (machine.step? world one) (machine.step? other two) := by
  have positive := Nat.zero_lt_of_lt (List.getElem?_eq_some_iff.mp there).1
  have still (change : Option Change) : Option.Rel
      (Change.Tied (.ofRun (Work.Overlooks given hidden count)) 0 world.tasks.length)
      change change := by
    cases change with
    | none => exact .none
    | some change => exact .some ⟨.same _, Ties.ofRun_started change.started positive, rfl, rfl⟩
  rw [tied.unaware Work.Overlooks.ended?]
  cases same with
  | same => exact still _
  | @body own current current' index entries alike sees =>
      by_cases begins : ∃ value value' entry later, current = .done (.ok value) ∧
          current' = .done (.ok value') ∧ entries = entry :: later
      · obtain ⟨value, value', entry, later, rfl, rfl, rfl⟩ := begins
        rw [Machine.step?, Machine.step?]
        exact .some (Machine.begin_overlooks fixed positive sees)
      · have same : current = current' := by
          refine alike.resolve_right fun idle => begins ?_
          obtain ⟨more, value, value'⟩ := idle
          have has {work : Work} (some : work.value?.isSome) :
              ∃ value, work = .done (.ok value) := by
            cases work with
            | done outcome =>
                cases outcome with
                | ok value => exact ⟨value, rfl⟩
                | error failure => cases some
            | _ => cases some
          obtain ⟨first, rfl⟩ := has value
          obtain ⟨second, rfl⟩ := has value'
          obtain ⟨entry, later, rfl⟩ := List.exists_cons_of_ne_nil more
          exact ⟨first, second, entry, later, rfl, rfl, rfl⟩
        cases same
        cases going : current.ended? with
        | none =>
            rw [Machine.step?_body _ _ _ going, Machine.step?_body _ _ _ going]
            cases machine.step? world current with
            | none => exact .none
            | some change =>
                exact .some ⟨.body (.inl rfl) sees, Ties.ofRun_started change.started positive, rfl,
                  rfl⟩
        | some ended =>
            cases current with
            | done outcome =>
                cases outcome with
                | ok value =>
                    cases entries with
                    | nil =>
                        rw [Machine.step?, Machine.step?, Frame.unobserved_hidden settled]
                        exact still _
                    | cons entry later =>
                        exact absurd ⟨value, value, entry, later, rfl, rfl, rfl⟩ begins
                | error failure => exact still _
            | broken defect => exact still _
            | _ => cases going

/-- Two runs of which one has hidden bindings go on in the same way. -/
theorem Tandem.overlooks (machine : Machine) (fixed : Given given)
    (settled : ∀ binding ∈ hidden, binding.unobserved? = none) :
    Tandem machine machine [] 0 fun world other =>
      True ∧ World.Tied (.ofRun (Work.Overlooks given hidden count)) [] 0 world other :=
  (Ties.ofRun_lawful Work.Overlooks.ended? Work.Overlooks.wakes Work.Overlooks.meet).tandem
    (fun _ _ => trivial) fun _ tied there same => tied.overlooks fixed settled there same

end

end Runbook
