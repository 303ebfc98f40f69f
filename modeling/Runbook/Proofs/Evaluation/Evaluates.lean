import Runbook.Proofs.Evaluation.Meaning

/-!
Setting steps up is evaluating them.

The tasks that are started come to what their works mean. With that, the works of steps and the
frame after setting them up mean what evaluating the steps from left to right gives, provided no
step waits for the first of two tasks. If a task that is started comes to no value, either none of
the works does or the frame has lost it: the task is one of a binding that no step has asked for.
-/
namespace Runbook

/-- The outcomes that primitives have, without their delays and what they say. -/
def Registry.outcomes (registry : Registry) (name : Identifier) : Option (Value → Outcome) :=
  (registry.lookup name).map fun primitive argument => (primitive.action argument).outcome

/-- What routines are evaluated with in place of a machine. -/
def Machine.host (machine : Machine) : Host where
  library := machine.library
  primitives := machine.registry.outcomes
  wholes := true

theorem Machine.host_perform {machine : Machine} {name : Identifier} {primitive : Primitive}
    (found : machine.registry.lookup name = some primitive) {argument value : Value} :
    machine.host.perform name argument = .ok value ↔
      (primitive.action argument).outcome = .ok value := by
  simp only [Host.perform, host, Registry.outcomes, found, Option.map_some]
  cases (primitive.action argument).outcome with
  | ok result => simp
  | error failure => exact iff_of_false nofun nofun

namespace Host

variable {host : Host} {call : Callee → Value → Except Stop Value}

theorem evaluateFields_eq (store : Store) (fields : List (Label × Step)) :
    host.evaluateFields call store fields = host.evaluateAll call store (fields.map Prod.snd) := by
  induction fields generalizing store with
  | nil => rfl
  | cons field fields ih => simp only [evaluateFields, List.map_cons, evaluateAll, ih]

theorem evaluateAll_singleton {before after : Store} {step : Step} {values : List Value} :
    host.evaluateAll call before [step] = .ok (values, after) ↔
      ∃ value, host.evaluate call before step = .ok (value, after) ∧ values = [value] := by
  simp only [evaluateAll, Stop.bind_eq_ok, Stop.pure_eq_ok, Prod.mk.injEq]
  constructor
  · intro gives
    obtain ⟨⟨value, middle⟩, one, _, rfl, rfl, rfl⟩ := gives
    exact ⟨value, one, rfl⟩
  · intro gives
    obtain ⟨value, one, rfl⟩ := gives
    exact ⟨(value, after), one, ([], after), rfl, rfl, rfl⟩

end Host

namespace Store

variable {env : TaskId → Option Value}

/-- Settling a store is settling the bindings of its frame that no step has asked for. -/
theorem settle_eq_ok {frame : Frame} {store : Store} (stores : frame.store? env = some store) :
    store.settle = .ok () ↔ frame.unobserved.all (settles env) := by
  obtain ⟨bindings⟩ := frame
  induction bindings using List.reverseRecOn generalizing store with
  | nil =>
      cases stores
      exact iff_of_true rfl rfl
  | append_singleton bindings last ih =>
      change (Frame.add ⟨bindings⟩ last).store? env = _ at stores
      obtain ⟨stored, rest, first, others, rfl⟩ := Frame.store?_add_eq_some.mp stores
      obtain ⟨whole, given, rfl⟩ := Option.map_eq_some_iff.mp first
      simp only [settle, Stop.bind_eq_ok, Unique.exists_iff, Frame.unobserved,
        List.filterMap_append, List.all_append, Bool.and_eq_true]
      refine and_congr (ih others) ?_
      cases last with
      | parameter name value => exact iff_of_true rfl rfl
      | started names task observed =>
          cases observed with
          | true => exact iff_of_true rfl rfl
          | false =>
              change env task = some whole at given
              simp only [Binding.taken, Binding.names, Bool.false_eq_true, if_false,
                List.filterMap_cons, Binding.unobserved?, List.filterMap_nil, List.all_cons,
                List.all_nil, Bool.and_true, settles, given]
              cases whole.split names.length with
              | ok values => exact iff_of_true rfl rfl
              | error failure =>
                  refine iff_of_false (fun splits => ?_) Bool.false_ne_true
                  cases splits

end Store

/-- Has a binding that no step has asked for come to no value? -/
def Frame.Lost (env : TaskId → Option Value) (frame : Frame) : Prop :=
  ∃ binding ∈ frame.unobserved, env binding.1 = none

theorem Frame.lost_add {env : TaskId → Option Value} {frame : Frame} {binding : Binding} :
    (frame.add binding).Lost env ↔
      frame.Lost env ∨ ∃ task ∈ binding.unobserved?, env task.1 = none := by
  simp only [Lost, unobserved, add, List.filterMap_append, List.mem_append, or_and_right, exists_or]
  refine or_congr_right ?_
  cases found : binding.unobserved? <;> simp [found]

/-- What has a value is not lost when it is asked for. -/
theorem Frame.Lost.observe {env : TaskId → Option Value} {frame : Frame} (lost : frame.Lost env)
    {name : Name} {binding : Binding} {place : Fin binding.names.length} {value : Value}
    (found : frame.find? name = some ⟨binding, place⟩) (given : binding.whole? env = some value) :
    (frame.observe name).Lost env := by
  obtain ⟨bindings⟩ := frame
  induction bindings using List.reverseRecOn with
  | nil => cases found
  | append_singleton bindings last ih =>
      change (add ⟨bindings⟩ last).find? name = _ at found
      change (add ⟨bindings⟩ last).Lost env at lost
      change ((add ⟨bindings⟩ last).observe name).Lost env
      rw [find?_add] at found
      rw [lost_add] at lost
      rw [observe_add]
      cases here : placeOf? name last.names with
      | some other =>
          rw [here] at found
          cases found
          rw [if_pos (placeOf?_isSome_iff.mp (Option.isSome_of_eq_some here)), lost_add]
          refine .inl (lost.resolve_right ?_)
          intro missing
          obtain ⟨task, same, none⟩ := missing
          cases binding with
          | parameter other value => cases same
          | started names task observed =>
              cases observed with
              | true => cases same
              | false =>
                  cases same
                  cases none.symm.trans given
      | none =>
          rw [here] at found
          have outside : name ∉ last.names := by
            intro inside
            have placed := placeOf?_isSome_iff.mpr inside
            rw [here] at placed
            cases placed
          rw [if_neg outside, lost_add]
          exact lost.imp_left fun earlier => ih earlier found

/-- All is stored if no task of the frame has come to no value. -/
theorem Frame.store?_eq_none {env : TaskId → Option Value} {frame : Frame} :
    frame.store? env = none ↔ ∃ task ∈ frame.tasks, env task = none := by
  obtain ⟨bindings⟩ := frame
  induction bindings using List.reverseRecOn with
  | nil =>
      refine iff_of_false (Option.some_ne_none _) fun missing => ?_
      obtain ⟨task, member, _⟩ := missing
      cases member
  | append_singleton bindings last ih =>
      change (Frame.add ⟨bindings⟩ last).store? env = none ↔
        ∃ task ∈ (Frame.add ⟨bindings⟩ last).tasks, env task = none
      rw [Frame.store?_add, Frame.tasks_add]
      simp only [List.mem_append, or_and_right, exists_or, ← ih]
      cases last with
      | parameter name value =>
          rw [Binding.stored?, Binding.whole?, Option.map_some, Option.bind_some,
            Option.map_eq_none_iff]
          refine (or_iff_left fun missing => ?_).symm
          obtain ⟨task, member, _⟩ := missing
          cases member
      | started names task observed =>
          have only : (∃ other ∈ (Binding.started names task observed).task?.toList,
              env other = none) ↔ env task = none := by
            simp only [Binding.task?, Option.toList_some, List.mem_singleton, exists_eq_left]
          rw [only, Binding.stored?, Binding.whole?]
          cases env task with
          | none => exact iff_of_true rfl (.inr rfl)
          | some value => simp

theorem Frame.Lost.store? {env : TaskId → Option Value} {frame : Frame} (lost : frame.Lost env) :
    frame.store? env = none := by
  obtain ⟨binding, member, none⟩ := lost
  exact Frame.store?_eq_none.mpr ⟨binding.1, Frame.unobserved_tasks member, none⟩

section

variable {machine : Machine} {depths : Depths machine.host} {env : TaskId → Option Value}

theorem Work.meaningAll_singleton {level : depths.Level} {work : Work} {values : List Value} :
    meaningAll depths env level [work] = some values ↔
      ∃ value, work.meaning depths env level = some value ∧ values = [value] := by
  simp only [meaningAll, Option.map_some, Option.bind_eq_some_iff, Option.some.injEq]
  exact exists_congr fun value => and_congr_right fun _ => eq_comm

theorem Solves.append {level : depths.Level} {next : Nat} {first rest : List Work} :
    Solves depths env level next (first ++ rest) ↔
      Solves depths env level next first ∧
        Solves depths env level (next + first.length) rest := by
  constructor
  · intro solves
    refine ⟨fun index work there => ?_, fun index work there => ?_⟩
    · have below := (List.getElem?_eq_some_iff.mp there).1
      exact solves index work ((List.getElem?_append_left below).trans there)
    · rw [Nat.add_assoc]
      refine solves (first.length + index) work ?_
      rw [List.getElem?_append_right (Nat.le_add_right _ _), Nat.add_sub_cancel_left]
      exact there
  · intro solves
    obtain ⟨earlier, later⟩ := solves
    intro index work there
    rcases Nat.lt_or_ge index first.length with below | above
    · rw [List.getElem?_append_left below] at there
      exact earlier index work there
    · rw [List.getElem?_append_right above] at there
      have means := later _ work there
      rwa [Nat.add_assoc, Nat.add_sub_cancel' above] at means

theorem Solves.singleton {level : depths.Level} {next : Nat} {work : Work} :
    Solves depths env level next [work] ↔ env next = work.meaning depths env level := by
  constructor
  · intro solves
    exact solves 0 work rfl
  · intro means index other there
    cases index with
    | zero =>
        obtain rfl := Option.some.inj there
        exact means
    | succ index => cases there

/-- The works of the steps and the frame after them mean what evaluating the steps gives. -/
def Evaluates (depths : Depths machine.host) (env : TaskId → Option Value) (level : depths.Level)
    (frame after : Frame) (steps : List Step) (works : List Work) : Prop :=
  ∀ (values : List Value) (store : Store),
    (after.store? env = some store ∧ Work.meaningAll depths env level works = some values) ↔
      ∃ before, frame.store? env = some before ∧
        machine.host.evaluateAll (depths.call level) before steps = .ok (values, store)

namespace Evaluates

variable {level : depths.Level} {frame middle after : Frame} {step : Step} {work : Work}

theorem singleton : Evaluates depths env level frame after [step] [work] ↔
    ∀ (value : Value) (store : Store),
      (after.store? env = some store ∧ work.meaning depths env level = some value) ↔
        ∃ before, frame.store? env = some before ∧
          machine.host.evaluate (depths.call level) before step = .ok (value, store) := by
  simp only [Evaluates, Work.meaningAll_singleton, Host.evaluateAll_singleton]
  constructor
  · intro evaluates value store
    have same := evaluates [value] store
    simpa using same
  · intro evaluates values store
    constructor
    · intro gives
      obtain ⟨stores, value, means, rfl⟩ := gives
      obtain ⟨before, stored, gives⟩ := (evaluates value store).mp ⟨stores, means⟩
      exact ⟨before, stored, value, gives, rfl⟩
    · intro gives
      obtain ⟨before, stored, value, gives, rfl⟩ := gives
      obtain ⟨stores, means⟩ := (evaluates value store).mpr ⟨before, stored, gives⟩
      exact ⟨stores, value, means, rfl⟩

theorem nil : Evaluates depths env level frame frame [] [] := by
  intro values store
  simp only [Work.meaningAll, Host.evaluateAll, Stop.pure_eq_ok, Prod.mk.injEq,
    Option.some.injEq]
  constructor
  · intro gives
    exact ⟨store, gives.1, gives.2, rfl⟩
  · intro gives
    obtain ⟨_, stores, rfl, rfl⟩ := gives
    exact ⟨stores, rfl⟩

theorem cons {steps : List Step} {works : List Work}
    (one : Evaluates depths env level frame middle [step] [work])
    (others : Evaluates depths env level middle after steps works) :
    Evaluates depths env level frame after (step :: steps) (work :: works) := by
  rw [singleton] at one
  intro values store
  simp only [Work.meaningAll, Option.bind_eq_some_iff, Option.map_eq_some_iff, Host.evaluateAll,
    Stop.bind_eq_ok, Stop.pure_eq_ok, Prod.mk.injEq]
  constructor
  · intro gives
    obtain ⟨stores, value, means, rest, follow, rfl⟩ := gives
    obtain ⟨between, stored, later⟩ := (others rest store).mp ⟨stores, follow⟩
    obtain ⟨before, first, gives⟩ := (one value between).mp ⟨stored, means⟩
    exact ⟨before, first, (value, between), gives, (rest, store), later, rfl, rfl⟩
  · intro gives
    obtain ⟨before, first, ⟨value, between⟩, gives, ⟨rest, last⟩, later, rfl, rfl⟩ := gives
    obtain ⟨stored, means⟩ := (one value between).mpr ⟨before, first, gives⟩
    obtain ⟨stores, follow⟩ := (others rest last).mpr ⟨between, stored, later⟩
    exact ⟨stores, value, means, rest, follow, rfl⟩

theorem known {value : Value} (means : work.meaning depths env level = some value)
    (gives : ∀ store, machine.host.evaluate (depths.call level) store step = .ok (value, store)) :
    Evaluates depths env level frame frame [step] [work] := by
  rw [singleton]
  intro result store
  simp only [means, gives, Except.ok.injEq, Prod.mk.injEq, Option.some.injEq]
  constructor
  · intro both
    exact ⟨store, both.1, both.2, rfl⟩
  · intro found
    obtain ⟨_, stores, same, rfl⟩ := found
    exact ⟨stores, same⟩

theorem passes {part whole : Step} {next : Continuation}
    (one : Evaluates depths env level frame after [part] [work]) (pass : Value → Except Stop Value)
    (same : ∀ value result, next.meaning depths level value = some result ↔
      pass value = .ok result)
    (gives : ∀ store, machine.host.evaluate (depths.call level) store whole = (do
      let (value, store) ← machine.host.evaluate (depths.call level) store part
      let result ← pass value
      pure (result, store))) :
    Evaluates depths env level frame after [whole] [.after work next] := by
  rw [singleton] at one ⊢
  intro result store
  simp only [Work.meaning, Option.bind_eq_some_iff, gives, Stop.bind_eq_ok, Stop.pure_eq_ok,
    Prod.mk.injEq]
  constructor
  · intro both
    obtain ⟨stores, value, means, passes⟩ := both
    obtain ⟨before, first, found⟩ := (one value store).mp ⟨stores, means⟩
    exact ⟨before, first, (value, store), found, result, (same value result).mp passes, rfl, rfl⟩
  · intro found
    obtain ⟨before, first, ⟨value, last⟩, found, other, passes, rfl, rfl⟩ := found
    obtain ⟨stores, means⟩ := (one value last).mpr ⟨before, first, found⟩
    exact ⟨stores, value, means, (same value other).mpr passes⟩

theorem gather {steps : List Step} {works : List Work} {shape : Shape}
    (all : Evaluates depths env level frame after steps works)
    (gives : ∀ store, machine.host.evaluate (depths.call level) store step = (do
      let (values, store) ← machine.host.evaluateAll (depths.call level) store steps
      pure (shape.collect values, store))) :
    Evaluates depths env level frame after [step] [.gather shape works] := by
  rw [singleton]
  intro result store
  simp only [Work.meaning, Option.map_eq_some_iff, gives, Stop.bind_eq_ok, Stop.pure_eq_ok,
    Prod.mk.injEq]
  constructor
  · intro both
    obtain ⟨stores, values, means, rfl⟩ := both
    obtain ⟨before, first, found⟩ := (all values store).mp ⟨stores, means⟩
    exact ⟨before, first, (values, store), found, rfl, rfl⟩
  · intro found
    obtain ⟨before, first, ⟨values, last⟩, found, rfl, rfl⟩ := found
    obtain ⟨stores, means⟩ := (all values last).mpr ⟨before, first, found⟩
    exact ⟨stores, values, means, rfl⟩

/-- A task comes to what its work means. -/
theorem started {task : TaskId} (one : Evaluates depths env level frame after [step] [work])
    (means : env task = work.meaning depths env level) :
    Evaluates depths env level frame after [step] [.wait task] := by
  rw [singleton] at one ⊢
  rw [Work.meaning, means]
  exact one

/-- A binding whose task is started stores the value. -/
theorem bind {names : List Name} {task : TaskId}
    (one : Evaluates depths env level frame after [step] [work])
    (means : env task = work.meaning depths env level) :
    Evaluates depths env level frame (after.add (.started names task true)) [.bind names step]
      [.wait task] := by
  rw [singleton] at one ⊢
  intro value store
  simp only [Frame.store?_add_eq_some, Binding.stored?, Binding.whole?, Option.map_eq_some_iff,
    Work.meaning, means, Host.evaluate, Stop.bind_eq_ok, Stop.pure_eq_ok, Prod.mk.injEq]
  constructor
  · intro both
    obtain ⟨⟨_, rest, ⟨other, first, rfl⟩, stores, rfl⟩, again⟩ := both
    obtain rfl := Option.some.inj (first.symm.trans again)
    obtain ⟨before, stored, found⟩ := (one other rest).mp ⟨stores, first⟩
    exact ⟨before, stored, (other, rest), found, rfl, rfl⟩
  · intro found
    obtain ⟨before, stored, ⟨other, rest⟩, found, rfl, rfl⟩ := found
    obtain ⟨stores, first⟩ := (one other rest).mpr ⟨before, stored, found⟩
    exact ⟨⟨_, rest, ⟨other, first, rfl⟩, stores, rfl⟩, first⟩

theorem invoke {name : Identifier} {primitive : Primitive}
    (found : machine.registry.lookup name = some primitive)
    (one : Evaluates depths env level frame after [step] [work]) {next : Continuation}
    (performs : next = .invoke primitive ∨ next = .join primitive) :
    Evaluates depths env level frame after [.invoke name step] [.after work next] := by
  refine one.passes (machine.host.perform name) (fun value result => ?_) fun store => ?_
  · rw [Machine.host_perform found, ← toOption_eq_some]
    obtain rfl | rfl := performs <;> rfl
  · rw [Host.evaluate]

theorem operands {left right : Step} {first second : Work} {one other : TaskId}
    {name : Identifier} {primitive : Primitive}
    (found : machine.registry.lookup name = some primitive)
    (begins : Evaluates depths env level frame middle [left] [first])
    (ends : Evaluates depths env level middle after [right] [second])
    (means : env one = first.meaning depths env level)
    (follows : env other = second.meaning depths env level) :
    Evaluates depths env level frame after [.invoke name (.tuple [left, right])]
      [.after (.gather .operands [.wait one, .wait other]) (.join primitive)] := by
  have both := (begins.started means).cons ((ends.started follows).cons .nil)
  refine invoke found (both.gather fun store => ?_) (.inr rfl)
  simp only [Host.evaluate, Host.evaluateAll, Bind.bind, Except.bind, pure, Except.pure]
  cases machine.host.evaluate (depths.call level) store left with
  | error stop => rfl
  | ok result =>
      simp only
      cases machine.host.evaluate (depths.call level) result.2 right with
      | error stop => rfl
      | ok result => rfl

theorem read {name : Name} {binding : Binding} {place : Fin binding.names.length}
    (found : frame.find? name = some ⟨binding, place⟩)
    (means : work.meaning depths env level =
      (binding.whole? env).bind (pick? binding.names.length place)) :
    Evaluates depths env level frame (frame.observe name) [.read name] [work] := by
  rw [singleton]
  intro value store
  rw [means, Option.bind_eq_some_iff, and_comm]
  exact Frame.read_iff found

end Evaluates

/-- Setting steps up is evaluating them. -/
theorem SetsUp.evaluates {footing : Footing machine} (calm : ¬footing.races) {frame after : Frame}
    {next : TaskId} {steps : List Step} {works started : List Work} {level : depths.Level}
    (sets : SetsUp machine.registry frame next steps works started after)
    (needs : ∀ need ∈ stepsNeeds steps, footing.allowed need)
    (solves : Solves depths env level next started) :
    Evaluates depths env level frame after steps works := by
  induction sets with
  | nil => exact .nil
  | cons _ _ first rest =>
      rw [stepsNeeds_cons, List.forall_mem_append] at needs
      rw [Solves.append] at solves
      exact (first needs.1 solves.1).cons (rest needs.2 solves.2)
  | @constant _ _ literal value constant =>
      refine .known rfl fun store => ?_
      cases literal with
      | tablet fields => cases constant
      | _ => cases constant; rfl
  | @tablet _ _ fields _ _ _ _ ih =>
      rw [stepsNeeds_tablet] at needs
      refine (ih needs solves).gather fun store => ?_
      rw [Host.evaluate, Host.evaluateLiteral, Host.evaluateFields_eq]
      rfl
  | bind _ ih =>
      rw [Solves.append, Solves.singleton] at solves
      exact (ih needs solves.1).bind solves.2
  | call _ ih =>
      rw [stepsNeeds_call, List.forall_mem_cons] at needs
      have one := ih needs.2 solves
      refine one.passes (depths.call level _) (fun value result => toOption_eq_some) fun store => ?_
      rw [Host.evaluate]
  | invoke found _ ih =>
      rw [stepsNeeds_invoke, List.forall_mem_cons] at needs
      exact .invoke found (ih needs.2 solves) (.inl rfl)
  | @operands _ _ name left right primitive operator _ _ started others _ _ found performs _ _
      first second =>
      rw [stepsNeeds_operands, List.forall_mem_cons, List.forall_mem_append] at needs
      obtain ⟨allowed, ofLeft, ofRight⟩ := needs
      rw [List.append_cons, Solves.append, Solves.append, Solves.append, Solves.singleton,
        Solves.singleton, List.length_append, List.length_singleton] at solves
      obtain ⟨⟨before, one⟩, between, other⟩ := solves
      have both := Evaluates.operands found (first ofLeft before) (second ofRight between) one other
      cases operator with
      | waitEither => exact absurd (footing.racing name primitive allowed found performs) calm
      | _ => exact both
  | tuple _ ih =>
      rw [stepsNeeds_tuple] at needs
      refine (ih needs solves).gather fun store => ?_
      rw [Host.evaluate]
      rfl
  | @parameter _ _ name other value place found =>
      have reads := @Evaluates.read _ depths env level _ (.done (.ok value)) _ _ _ found
      rw [Frame.observe_parameter found] at reads
      refine reads ?_
      rw [Binding.whole?, Option.bind_some]
      exact (pick?_one place value).symm
  | read found => exact .read found rfl

theorem SetsUpEntry.evaluates {footing : Footing machine} (calm : ¬footing.races)
    {frame after : Frame} {next : TaskId} {isLast : Bool} {step : Step} {work : Work}
    {started : List Work} {level : depths.Level}
    (sets : SetsUpEntry machine.registry frame next isLast step work started after)
    (needs : ∀ need ∈ stepsNeeds [step], footing.allowed need)
    (solves : Solves depths env level next started) (value : Value) (store : Store) :
    (after.store? env = some store ∧ work.meaning depths env level = some value) ↔
      ∃ before, frame.store? env = some before ∧
        machine.host.evaluateEntry (depths.call level) isLast before step = .ok (value, store) := by
  cases sets with
  | @bind names step work started after sets =>
      rw [Solves.append, Solves.singleton] at solves
      have one := sets.evaluates calm needs solves.1
      cases isLast with
      | true => exact Evaluates.singleton.mp (one.bind solves.2) value store
      | false =>
          rw [Evaluates.singleton] at one
          simp only [Frame.store?_add_eq_some, Binding.stored?, Binding.whole?,
            Option.map_eq_some_iff, solves.2, Bool.false_eq_true, if_false, Work.meaning,
            Host.evaluateEntry, Stop.bind_eq_ok, Stop.pure_eq_ok, Prod.mk.injEq]
          constructor
          · intro both
            obtain ⟨⟨_, rest, ⟨result, first, rfl⟩, stores, rfl⟩, same⟩ := both
            obtain ⟨before, stored, found⟩ := (one result rest).mp ⟨stores, first⟩
            exact ⟨before, stored, (result, rest), found, Option.some.inj same, rfl⟩
          · intro found
            obtain ⟨before, stored, ⟨result, rest⟩, found, rfl, rfl⟩ := found
            obtain ⟨stores, first⟩ := (one result rest).mpr ⟨before, stored, found⟩
            exact ⟨⟨_, rest, ⟨result, first, rfl⟩, stores, rfl⟩, rfl⟩
  | other different sets =>
      have one := Evaluates.singleton.mp (sets.evaluates calm needs solves) value store
      cases step with
      | bind names inner => exact absurd rfl (different names inner)
      | _ => exact one

/-- Has one of so many tasks from that number on come to no value? -/
def Missing (env : TaskId → Option Value) (next count : Nat) : Prop :=
  ∃ task : Nat, next ≤ task ∧ task < next + count ∧ env task = none

theorem not_missing_zero {next : Nat} : ¬Missing env next 0 := by
  intro missing
  obtain ⟨task, above, below, _⟩ := missing
  omega

theorem missing_add {next first rest : Nat} :
    Missing env next (first + rest) ↔ Missing env next first ∨ Missing env (next + first) rest := by
  constructor
  · intro missing
    obtain ⟨task, above, below, none⟩ := missing
    rcases Nat.lt_or_ge task (next + first) with early | late
    · exact .inl ⟨task, above, early, none⟩
    · exact .inr ⟨task, late, by omega, none⟩
  · intro missing
    rcases missing with missing | missing
    · obtain ⟨task, above, below, none⟩ := missing
      exact ⟨task, above, by omega, none⟩
    · obtain ⟨task, above, below, none⟩ := missing
      exact ⟨task, by omega, by omega, none⟩

theorem missing_one {next : Nat} : Missing env next 1 ↔ env next = none := by
  constructor
  · intro missing
    obtain ⟨task, above, below, none⟩ := missing
    obtain rfl : task = next := by omega
    exact none
  · intro none
    exact ⟨next, Nat.le_refl _, Nat.lt_succ_self _, none⟩

/-- Both operands have values if the operator has its operands. -/
theorem Operator.await_meaning {operator : Operator} {left right : TaskId} {level : depths.Level}
    {value : Value} (means : (operator.await left right).meaning depths env level = some value) :
    (∃ value, env left = some value) ∧ ∃ value, env right = some value := by
  have both (gathered : (Work.gather .operands [.wait left, .wait right]).meaning depths env level =
      some value) : (∃ value, env left = some value) ∧ ∃ value, env right = some value := by
    obtain ⟨values, all, _⟩ := Option.map_eq_some_iff.mp gathered
    simp only [Work.meaningAll, Option.bind_eq_some_iff] at all
    obtain ⟨first, one, rest⟩ := all
    rw [Option.map_eq_some_iff] at rest
    obtain ⟨others, follow, _⟩ := rest
    obtain ⟨second, two, _⟩ := Option.bind_eq_some_iff.mp follow
    exact ⟨⟨first, one⟩, second, two⟩
  cases operator with
  | waitEither => cases means
  | waitBoth => exact both means
  | combine => exact both means

/-- What comes to no value while steps are set up that do is lost. -/
theorem SetsUp.lost {frame after : Frame} {next : TaskId} {steps : List Step}
    {works started : List Work} {level : depths.Level}
    (sets : SetsUp machine.registry frame next steps works started after)
    (solves : Solves depths env level next started) {values : List Value}
    (means : Work.meaningAll depths env level works = some values)
    (missing : frame.Lost env ∨ Missing env next started.length) : after.Lost env := by
  induction sets generalizing values with
  | nil => exact missing.resolve_right not_missing_zero
  | cons _ _ first rest =>
      rw [Solves.append] at solves
      rw [List.length_append, missing_add, ← or_assoc] at missing
      simp only [Work.meaningAll, Option.bind_eq_some_iff, Option.map_eq_some_iff] at means
      obtain ⟨value, one, others, follow, _⟩ := means
      exact rest solves.2 follow
        (missing.imp_left (first solves.1 (Work.meaningAll_singleton.mpr ⟨value, one, rfl⟩)))
  | constant _ => exact missing.resolve_right not_missing_zero
  | tablet _ ih =>
      obtain ⟨value, one, _⟩ := Work.meaningAll_singleton.mp means
      obtain ⟨others, all, _⟩ := Option.map_eq_some_iff.mp one
      exact ih solves all missing
  | bind _ ih =>
      rw [Solves.append, Solves.singleton] at solves
      rw [List.length_append, List.length_singleton, missing_add, missing_one] at missing
      obtain ⟨value, one, _⟩ := Work.meaningAll_singleton.mp means
      rw [← or_assoc] at missing
      have first := solves.2.symm.trans one
      have present := Option.ne_none_iff_exists'.mpr ⟨value, one⟩
      exact Frame.lost_add.mpr (.inl (ih solves.1
        (Work.meaningAll_singleton.mpr ⟨value, first, rfl⟩) (missing.resolve_right present)))
  | call _ ih =>
      obtain ⟨value, one, _⟩ := Work.meaningAll_singleton.mp means
      obtain ⟨argument, first, _⟩ := Option.bind_eq_some_iff.mp one
      exact ih solves (Work.meaningAll_singleton.mpr ⟨argument, first, rfl⟩) missing
  | invoke _ _ ih =>
      obtain ⟨value, one, _⟩ := Work.meaningAll_singleton.mp means
      obtain ⟨argument, first, _⟩ := Option.bind_eq_some_iff.mp one
      exact ih solves (Work.meaningAll_singleton.mpr ⟨argument, first, rfl⟩) missing
  | operands found performs _ _ first second =>
      rw [List.append_cons, Solves.append, Solves.append, Solves.append, Solves.singleton,
        Solves.singleton, List.length_append, List.length_singleton] at solves
      obtain ⟨⟨before, left⟩, between, right⟩ := solves
      rw [List.append_cons, List.length_append, List.length_append, List.length_append,
        List.length_singleton, List.length_singleton, missing_add, missing_add, missing_add,
        missing_one, missing_one] at missing
      obtain ⟨value, one, _⟩ := Work.meaningAll_singleton.mp means
      obtain ⟨operands, awaited, _⟩ := Option.bind_eq_some_iff.mp one
      obtain ⟨⟨value, one⟩, other, two⟩ := Operator.await_meaning awaited
      have middle := first before (Work.meaningAll_singleton.mpr ⟨value, left.symm.trans one, rfl⟩)
      have last := second between (Work.meaningAll_singleton.mpr ⟨other, right.symm.trans two, rfl⟩)
      rw [← Nat.add_assoc, one, two] at missing
      rcases missing with lost | (missing | none) | missing | none
      · exact last (.inl (middle (.inl lost)))
      · exact last (.inl (middle (.inr missing)))
      · cases none
      · exact last (.inr missing)
      · cases none
  | tuple _ ih =>
      obtain ⟨value, one, _⟩ := Work.meaningAll_singleton.mp means
      obtain ⟨others, all, _⟩ := Option.map_eq_some_iff.mp one
      exact ih solves all missing
  | parameter _ => exact missing.resolve_right not_missing_zero
  | read found =>
      obtain ⟨value, one, _⟩ := Work.meaningAll_singleton.mp means
      obtain ⟨whole, given, _⟩ := Option.bind_eq_some_iff.mp one
      exact (missing.resolve_right not_missing_zero).observe found given

/-- The same for an entry, the task of whose binding may come to no value. -/
theorem SetsUpEntry.lost {frame after : Frame} {next : TaskId} {isLast : Bool} {step : Step}
    {work : Work} {started : List Work} {level : depths.Level}
    (sets : SetsUpEntry machine.registry frame next isLast step work started after)
    (solves : Solves depths env level next started) {value : Value}
    (means : work.meaning depths env level = some value)
    (missing : frame.Lost env ∨ Missing env next started.length) : after.Lost env := by
  cases sets with
  | @bind names step work started after sets =>
      rw [Solves.append, Solves.singleton] at solves
      rw [List.length_append, List.length_singleton, missing_add, missing_one, ← or_assoc]
        at missing
      rw [Frame.lost_add]
      cases given : env (next + started.length) with
      | some result =>
          have first := solves.2.symm.trans given
          exact .inl (sets.lost solves.1 (Work.meaningAll_singleton.mpr ⟨result, first, rfl⟩)
            (missing.resolve_right (by rw [given]; nofun)))
      | none =>
          cases isLast with
          | true => cases given.symm.trans means
          | false => exact .inr ⟨_, rfl, given⟩
  | other _ sets =>
      exact sets.lost solves (Work.meaningAll_singleton.mpr ⟨value, means, rfl⟩) missing

end

end Runbook
