import Runbook.Proofs.Evaluation.Agreement
import Runbook.Proofs.Evaluation.Origins

/-!
What a run leaves behind.

A work owes its value to the tasks that it waits for, and to the bindings that its bodies have still
to settle: it fails if one of them does. A move leaves nothing out that is owed, unless it has its
value by then, and what it starts is owed to the work or to what is started with it. So a task that
has not failed and owes nothing any more has left nothing behind. Only which of two tasks a race
needs is open; without races, all that was started has its value in the end.
-/
namespace Runbook

/-- A binding of the task is in the frame, and no step has asked for it. -/
def Frame.Leaves (frame : Frame) (task : TaskId) : Prop := task ∈ frame.unobserved.map Prod.fst

/-- The work has no value unless the task has. -/
inductive Work.Owes : Work → TaskId → Prop
  | fresh {work task} : Owes work task → Owes (.fresh work) task
  | wait {task} : Owes (.wait task) task
  | source {source next task} : Owes source task → Owes (.after source next) task
  | member {shape members member task} : member ∈ members → Owes member task →
      Owes (.gather shape members) task
  | leaves {frame current index entries task} : frame.Leaves task →
      Owes (.body frame current index entries) task
  | current {frame current index entries task} : Owes current task →
      Owes (.body frame current index entries) task
  | settle {bindings result task} : task ∈ bindings.map Prod.fst →
      Owes (.settle bindings result) task

/-- The work will fail or break down. -/
inductive Work.Doomed : Work → Prop
  | fails {failure} : Doomed (.done (.error failure))
  | breaks {defect} : Doomed (.broken defect)
  | source {source next} : Doomed source → Doomed (.after source next)
  | member {shape members member} : member ∈ members → Doomed member →
      Doomed (.gather shape members)
  | current {frame current index entries} : Doomed current →
      Doomed (.body frame current index entries)

/-- What the work needs for what it has still to begin. -/
inductive Work.Needs : Work → Need → Prop
  | fresh {work need} : Needs work need → Needs (.fresh work) need
  | source {source next need} : Needs source need → Needs (.after source next) need
  | call {source callee} : Needs (.after source (.call callee)) (.routine callee)
  | member {shape members member need} : member ∈ members → Needs member need →
      Needs (.gather shape members) need
  | current {frame current index entries need} : Needs current need →
      Needs (.body frame current index entries) need
  | entries {frame current index entries need} : need ∈ stepsNeeds (entries.map Entry.step) →
      Needs (.body frame current index entries) need

/-- The work needs only what is allowed. -/
def Work.Within (allowed : Need → Prop) (work : Work) : Prop :=
  ∀ need, work.Needs need → allowed need

/-- Routines that are allowed need only what is allowed too, and nothing that is races. -/
structure Machine.Raceless (machine : Machine) (allowed : Need → Prop) : Prop where
  routines : ∀ {callee routine}, allowed (.routine callee) →
    machine.library.get? callee = some routine → ∀ need ∈ routine.needs, allowed need
  primitives : ∀ {name primitive}, allowed (.primitive name) →
    machine.registry.lookup name = some primitive → primitive.operator ≠ some .waitEither

variable {machine : Machine} {allowed : Need → Prop} {settled : TaskId → Prop}

namespace Frame

theorem leaves_add {frame : Frame} {binding : Binding} {task : TaskId} :
    (frame.add binding).Leaves task ↔
      frame.Leaves task ∨ ∃ count, binding.unobserved? = some (task, count) := by
  rw [Leaves, Leaves, unobserved, unobserved, add, List.filterMap_append, List.map_append,
    List.mem_append]
  refine or_congr_right ?_
  cases found : binding.unobserved? with
  | none => simp [found]
  | some left =>
      obtain ⟨other, count⟩ := left
      simp [found, eq_comm]

/-- Only the task whose value is asked for is not left any more. -/
theorem leaves_observe {frame : Frame} {name : Name} {names : List Name} {task other : TaskId}
    {observed : Bool} {place : Fin (Binding.started names task observed).names.length}
    (found : frame.find? name = some ⟨.started names task observed, place⟩)
    (leaves : frame.Leaves other) : (frame.observe name).Leaves other ∨ other = task := by
  obtain ⟨bindings⟩ := frame
  induction bindings using List.reverseRecOn with
  | nil => cases found
  | append_singleton bindings last ih =>
      change (add ⟨bindings⟩ last).find? name = _ at found
      change (add ⟨bindings⟩ last).Leaves other at leaves
      change ((add ⟨bindings⟩ last).observe name).Leaves other ∨ _
      rw [find?_add] at found
      rw [leaves_add] at leaves
      rw [observe_add]
      cases here : placeOf? name last.names with
      | some meant =>
          rw [here] at found
          cases found
          rw [if_pos (placeOf?_isSome_iff.mp (Option.isSome_of_eq_some here)), leaves_add]
          rcases leaves with earlier | ⟨count, own⟩
          · exact .inl (.inl earlier)
          · cases observed with
            | true => cases own
            | false => exact .inr (congrArg Prod.fst (Option.some.inj own)).symm
      | none =>
          rw [here] at found
          have apart : name ∉ last.names := by
            intro inside
            have placed := placeOf?_isSome_iff.mpr inside
            rw [here] at placed
            cases placed
          rw [if_neg apart, leaves_add]
          rcases leaves with earlier | own
          · exact (ih found earlier).imp_left .inl
          · exact .inl (.inr own)

end Frame

/-- Among works that are started as the tasks from that number on, those that are settled owe
nothing but to what is. -/
def Redeems (settled : TaskId → Prop) (next : Nat) (started : List Work) : Prop :=
  ∀ (index : Nat) (work : Work), started[index]? = some work → settled (next + index) →
    ∀ task, work.Owes task → settled task

/-- So many tasks from that number on are settled. -/
def SettledFrom (settled : TaskId → Prop) (next count : Nat) : Prop :=
  ∀ index : Nat, index < count → settled (next + index)

theorem Redeems.append {next : Nat} {first rest : List Work} :
    Redeems settled next (first ++ rest) ↔
      Redeems settled next first ∧ Redeems settled (next + first.length) rest := by
  constructor
  · intro redeems
    refine ⟨fun index work there => redeems index work ?_, fun index work there come => ?_⟩
    · rw [List.getElem?_append_left (List.getElem?_eq_some_iff.mp there).1]
      exact there
    · refine redeems (first.length + index) work ?_ (Nat.add_assoc _ _ _ ▸ come)
      rw [List.getElem?_append_right (Nat.le_add_right _ _), Nat.add_sub_cancel_left]
      exact there
  · intro both index work there come
    rcases Nat.lt_or_ge index first.length with below | beyond
    · rw [List.getElem?_append_left below] at there
      exact both.1 index work there come
    · rw [List.getElem?_append_right beyond] at there
      refine both.2 (index - first.length) work there ?_
      rw [Nat.add_assoc, Nat.add_sub_cancel' beyond]
      exact come

theorem Redeems.singleton {next : Nat} {work : Work} :
    Redeems settled next [.fresh work] ↔
      (settled next → ∀ task, work.Owes task → settled task) := by
  constructor
  · exact fun redeems come task owes => redeems 0 _ rfl come task (.fresh owes)
  · intro redeems index other there come task owes
    cases index with
    | zero =>
        obtain rfl := Option.some.inj there
        cases owes with
        | fresh owes => exact redeems come task owes
    | succ index => cases there

theorem SettledFrom.append {next first rest : Nat} (one : SettledFrom settled next first)
    (others : SettledFrom settled (next + first) rest) :
    SettledFrom settled next (first + rest) := by
  intro index below
  rcases Nat.lt_or_ge index first with early | late
  · exact one index early
  · have come := others (index - first) (by omega)
    rwa [Nat.add_assoc, Nat.add_sub_cancel' late] at come

theorem SettledFrom.one {next : Nat} (come : settled next) : SettledFrom settled next 1 := by
  intro index below
  rw [Nat.lt_one_iff.mp below]
  exact come

theorem SettledFrom.none {next : Nat} : SettledFrom settled next 0 :=
  fun _ below => absurd below (Nat.not_lt_zero _)

/-- When all is settled that the works of steps owe and that their frame leaves, so is all that was
left before and that has been started. -/
theorem SetsUp.settles {frame after : Frame} {next : TaskId} {steps : List Step}
    {works started : List Work} (raceless : machine.Raceless allowed)
    (sets : SetsUp machine.registry frame next steps works started after)
    (needs : ∀ need ∈ stepsNeeds steps, allowed need) (redeems : Redeems settled next started)
    (owed : ∀ work ∈ works, ∀ task, work.Owes task → settled task)
    (left : ∀ task, after.Leaves task → settled task) :
    (∀ task, frame.Leaves task → settled task) ∧ SettledFrom settled next started.length := by
  induction sets with
  | nil => exact ⟨left, .none⟩
  | cons _ _ first rest =>
      rw [stepsNeeds_cons, List.forall_mem_append] at needs
      rw [Redeems.append] at redeems
      rw [List.forall_mem_cons] at owed
      obtain ⟨middle, more⟩ := rest needs.2 redeems.2 owed.2 left
      obtain ⟨before, some⟩ := first needs.1 redeems.1 (List.forall_mem_singleton.mpr owed.1) middle
      rw [List.length_append]
      exact ⟨before, some.append more⟩
  | constant _ => exact ⟨left, .none⟩
  | tablet _ ih =>
      rw [stepsNeeds_tablet] at needs
      rw [List.forall_mem_singleton] at owed
      exact ih needs redeems (fun work inside task owes => owed task (.member inside owes)) left
  | @bind frame next names step work started after _ ih =>
      rw [Redeems.append, Redeems.singleton] at redeems
      rw [List.forall_mem_singleton] at owed
      have last := owed _ .wait
      obtain ⟨before, some⟩ := ih needs redeems.1 (List.forall_mem_singleton.mpr (redeems.2 last))
        fun task leaves => left task (Frame.leaves_add.mpr (.inl leaves))
      rw [List.length_append]
      exact ⟨before, some.append (.one last)⟩
  | call _ ih =>
      rw [stepsNeeds_call, List.forall_mem_cons] at needs
      rw [List.forall_mem_singleton] at owed
      exact ih needs.2 redeems (List.forall_mem_singleton.mpr fun task owes =>
        owed task (.source owes)) left
  | invoke _ _ ih =>
      rw [stepsNeeds_invoke, List.forall_mem_cons] at needs
      rw [List.forall_mem_singleton] at owed
      exact ih needs.2 redeems (List.forall_mem_singleton.mpr fun task owes =>
        owed task (.source owes)) left
  | @operands frame next name one other primitive operator _ _ started others middle after found
      performs _ _ first second =>
      rw [stepsNeeds_operands, List.forall_mem_cons, List.forall_mem_append] at needs
      rw [List.append_cons, Redeems.append, Redeems.append, Redeems.append, Redeems.singleton,
        Redeems.singleton, List.length_append, List.length_singleton] at redeems
      obtain ⟨⟨before, left'⟩, between, right⟩ := redeems
      rw [List.forall_mem_singleton] at owed
      have operands : settled (next + started.length) ∧
          settled (next + started.length + 1 + others.length) := by
        cases operator with
        | waitEither => exact absurd performs (raceless.primitives needs.1 found)
        | _ =>
            exact ⟨owed _ (.source (.member List.mem_cons_self .wait)),
              owed _ (.source (.member (List.mem_cons_of_mem _ List.mem_cons_self) .wait))⟩
      obtain ⟨inside, more⟩ := second needs.2.2 between
        (List.forall_mem_singleton.mpr (right operands.2)) left
      obtain ⟨early, some⟩ := first needs.2.1 before
        (List.forall_mem_singleton.mpr (left' operands.1)) inside
      rw [List.append_cons, List.length_append, List.length_append, List.length_append]
      exact ⟨early, (some.append (.one operands.1)).append (more.append (.one operands.2))⟩
  | tuple _ ih =>
      rw [stepsNeeds_tuple] at needs
      rw [List.forall_mem_singleton] at owed
      exact ih needs redeems (fun work inside task owes => owed task (.member inside owes)) left
  | parameter _ => exact ⟨left, .none⟩
  | read found =>
      rw [List.forall_mem_singleton] at owed
      refine ⟨fun task leaves => ?_, .none⟩
      rcases Frame.leaves_observe found leaves with later | rfl
      · exact left task later
      · exact owed _ (.source .wait)

theorem SetsUpEntry.settles {frame after : Frame} {next : TaskId} {isLast : Bool} {step : Step}
    {work : Work} {started : List Work} (raceless : machine.Raceless allowed)
    (sets : SetsUpEntry machine.registry frame next isLast step work started after)
    (needs : ∀ need ∈ stepsNeeds [step], allowed need) (redeems : Redeems settled next started)
    (owed : ∀ task, work.Owes task → settled task)
    (left : ∀ task, after.Leaves task → settled task) :
    (∀ task, frame.Leaves task → settled task) ∧ SettledFrom settled next started.length := by
  cases sets with
  | @bind names step work started after sets =>
      rw [Redeems.append, Redeems.singleton] at redeems
      have last : settled (next + started.length) := by
        cases isLast with
        | true => exact owed _ .wait
        | false => exact left _ (Frame.leaves_add.mpr (.inr ⟨_, rfl⟩))
      obtain ⟨before, some⟩ := sets.settles raceless needs redeems.1
        (List.forall_mem_singleton.mpr (redeems.2 last))
        fun task leaves => left task (Frame.leaves_add.mpr (.inl leaves))
      rw [List.length_append]
      exact ⟨before, some.append (.one last)⟩
  | other _ sets =>
      exact sets.settles raceless needs redeems (List.forall_mem_singleton.mpr owed) left

namespace Work

theorem Within.source {source : Work} {next : Continuation} (within : source.Within allowed)
    (calls : ∀ callee, next = .call callee → allowed (.routine callee)) :
    (Work.after source next).Within allowed := by
  intro need needs
  cases needs with
  | source needs => exact within need needs
  | call => exact calls _ rfl

theorem Within.gather {shape : Shape} {members : List Work}
    (within : ∀ member ∈ members, member.Within allowed) :
    (Work.gather shape members).Within allowed := by
  intro need needs
  cases needs with
  | member inside needs => exact within _ inside need needs

theorem Within.fresh {work : Work} (within : work.Within allowed) :
    (Work.fresh work).Within allowed := by
  intro need needs
  cases needs with
  | fresh needs => exact within need needs

theorem Within.still {work : Work} (none : ∀ need, ¬work.Needs need) : work.Within allowed :=
  fun need needs => absurd needs (none need)

theorem Within.body {frame : Frame} {current : Work} {index : Nat} {entries : List Entry}
    (within : current.Within allowed)
    (ahead : ∀ need ∈ stepsNeeds (entries.map Entry.step), allowed need) :
    (Work.body frame current index entries).Within allowed := by
  intro need needs
  cases needs with
  | current needs => exact within need needs
  | entries inside => exact ahead need inside

theorem Within.done {outcome : Outcome} : (Work.done outcome).Within allowed :=
  .still fun need needs => by cases needs

theorem Within.wait {task : TaskId} : (Work.wait task).Within allowed :=
  .still fun need needs => by cases needs

theorem Within.ended {work : Work} (ends : work.ended? = some work) : work.Within allowed := by
  cases work with
  | done outcome => exact .done
  | broken defect => exact .still fun need needs => by cases needs
  | _ => cases ends

theorem Within.await {operator : Operator} {left right : TaskId} :
    (operator.await left right).Within allowed := by
  have both : (Work.gather .operands [.wait left, .wait right]).Within allowed := by
    refine .gather fun member inside => ?_
    rcases List.mem_pair.mp inside with rfl | rfl
    · exact .wait
    · exact .wait
  cases operator with
  | waitEither => exact .still fun need needs => by cases needs
  | waitBoth => exact both
  | combine => exact both

theorem doomed_of_failed? {work failed : Work} (fails : work.failed? = some failed) :
    failed.Doomed := by
  cases work with
  | done outcome =>
      cases outcome with
      | ok value => cases fails
      | error failure =>
          cases fails
          exact .fails
  | broken defect =>
      cases fails
      exact .breaks
  | _ => cases fails

/-- Where all members have values, each of them is a value. -/
theorem done_of_collected {members : List Work} {values : List Value}
    (collected : members.mapM value? = some values) {member : Work} (inside : member ∈ members) :
    ∃ value, member = .done (.ok value) := by
  induction members generalizing values with
  | nil => cases inside
  | cons first members ih =>
      rw [List.mapM_cons] at collected
      obtain ⟨value, here, rest⟩ := Option.bind_eq_some_iff.mp collected
      obtain ⟨others, later, _⟩ := Option.bind_eq_some_iff.mp rest
      rcases List.mem_cons.mp inside with rfl | inside
      · cases member with
        | done outcome =>
            cases outcome with
            | ok result => exact ⟨result, rfl⟩
            | error failure => cases here
        | _ => cases here
      · exact ih later inside

end Work

/-- What steps need is all that their works do. -/
theorem SetsUp.within {registry : Registry} {frame after : Frame} {next : TaskId}
    {steps : List Step} {works started : List Work}
    (sets : SetsUp registry frame next steps works started after)
    (needs : ∀ need ∈ stepsNeeds steps, allowed need) :
    (∀ work ∈ works, work.Within allowed) ∧ ∀ work ∈ started, work.Within allowed := by
  induction sets with
  | nil => exact ⟨List.forall_mem_nil _, List.forall_mem_nil _⟩
  | cons _ _ first rest =>
      rw [stepsNeeds_cons, List.forall_mem_append] at needs
      obtain ⟨works, started⟩ := rest needs.2
      obtain ⟨work, more⟩ := first needs.1
      rw [List.forall_mem_singleton] at work
      exact ⟨List.forall_mem_cons.mpr ⟨work, works⟩, List.forall_mem_append.mpr ⟨more, started⟩⟩
  | constant _ => exact ⟨List.forall_mem_singleton.mpr .done, List.forall_mem_nil _⟩
  | tablet _ ih =>
      rw [stepsNeeds_tablet] at needs
      exact ⟨List.forall_mem_singleton.mpr (.gather (ih needs).1), (ih needs).2⟩
  | bind _ ih =>
      obtain ⟨work, started⟩ := ih needs
      rw [List.forall_mem_singleton] at work
      exact ⟨List.forall_mem_singleton.mpr .wait,
        List.forall_mem_append.mpr ⟨started, List.forall_mem_singleton.mpr work.fresh⟩⟩
  | call _ ih =>
      rw [stepsNeeds_call, List.forall_mem_cons] at needs
      obtain ⟨work, started⟩ := ih needs.2
      rw [List.forall_mem_singleton] at work
      refine ⟨List.forall_mem_singleton.mpr (work.source fun callee same => ?_), started⟩
      cases same
      exact needs.1
  | invoke _ _ ih =>
      rw [stepsNeeds_invoke, List.forall_mem_cons] at needs
      obtain ⟨work, started⟩ := ih needs.2
      rw [List.forall_mem_singleton] at work
      exact ⟨List.forall_mem_singleton.mpr (work.source fun callee same => by cases same), started⟩
  | operands _ _ _ _ first second =>
      rw [stepsNeeds_operands, List.forall_mem_cons, List.forall_mem_append] at needs
      obtain ⟨one, started⟩ := first needs.2.1
      obtain ⟨other, more⟩ := second needs.2.2
      rw [List.forall_mem_singleton] at one other
      refine ⟨List.forall_mem_singleton.mpr (Work.Within.await.source fun callee same => ?_), ?_⟩
      · cases same
      · exact List.forall_mem_append.mpr ⟨started, List.forall_mem_cons.mpr ⟨one.fresh,
          List.forall_mem_append.mpr ⟨more, List.forall_mem_singleton.mpr other.fresh⟩⟩⟩
  | tuple _ ih =>
      rw [stepsNeeds_tuple] at needs
      exact ⟨List.forall_mem_singleton.mpr (.gather (ih needs).1), (ih needs).2⟩
  | parameter _ => exact ⟨List.forall_mem_singleton.mpr .done, List.forall_mem_nil _⟩
  | read _ =>
      refine ⟨List.forall_mem_singleton.mpr (Work.Within.wait.source fun callee same => ?_),
        List.forall_mem_nil _⟩
      cases same

theorem SetsUpEntry.within {registry : Registry} {frame after : Frame} {next : TaskId}
    {isLast : Bool} {step : Step} {work : Work} {started : List Work}
    (sets : SetsUpEntry registry frame next isLast step work started after)
    (needs : ∀ need ∈ stepsNeeds [step], allowed need) :
    work.Within allowed ∧ ∀ work ∈ started, work.Within allowed := by
  cases sets with
  | bind sets =>
      obtain ⟨work, started⟩ := sets.within needs
      rw [List.forall_mem_singleton] at work
      refine ⟨?_, List.forall_mem_append.mpr ⟨started, List.forall_mem_singleton.mpr work.fresh⟩⟩
      cases isLast with
      | true => exact .wait
      | false => exact .done
  | other _ sets =>
      obtain ⟨work, started⟩ := sets.within needs
      exact ⟨List.forall_mem_singleton.mp work, started⟩

/-- An entry is begun as it is set up, or cannot be set up. -/
theorem Machine.begin_cases (machine : Machine) (next : TaskId) (frame : Frame) (index : Nat)
    (entry : Entry) (entries : List Entry) :
    (∃ work state,
      (setUpEntry machine.registry index entries.isEmpty entry).Gives ⟨frame, next, [], []⟩ work
        state ∧
      machine.begin next frame index entry entries =
        ⟨.body state.frame work (index + 1) entries, state.started, state.events, none⟩) ∨
      ∃ defect started events, machine.begin next frame index entry entries =
        ⟨.broken defect, started, events, none⟩ := by
  rw [begin]
  cases run : (setUpEntry machine.registry index entries.isEmpty entry).run.run
      ⟨frame, next, [], []⟩ with
  | mk result state =>
      cases result with
      | error defect => exact .inr ⟨defect, _, _, rfl⟩
      | ok work => exact .inl ⟨work, _, run, rfl⟩

/-- An entry is begun as `SetsUpEntry` says, or cannot be set up. -/
theorem Machine.begin_sets (machine : Machine) (next : TaskId) (frame : Frame) (index : Nat)
    (entry : Entry) (entries : List Entry) :
    (∃ work started after events,
      machine.begin next frame index entry entries =
        ⟨.body after work (index + 1) entries, started, events, none⟩ ∧
      SetsUpEntry machine.registry frame next entries.isEmpty entry.step work started after) ∨
      ∃ defect started events, machine.begin next frame index entry entries =
        ⟨.broken defect, started, events, none⟩ := by
  rcases machine.begin_cases next frame index entry entries with
    ⟨work, state, gives, same⟩ | broken
  · exact .inl ⟨work, _, _, _, same, SetUp.setUpEntry_makes gives⟩
  · exact .inr broken

namespace Moves

variable {world : World} {work : Work} {change : Change}

/-- What will fail does not go on otherwise. -/
theorem doomed (moves : Moves machine world work change) (doomed : work.Doomed) :
    change.work.Doomed := by
  induction moves with
  | fail => exact .fails
  | breaks => exact .breaks
  | bodyFails => exact .fails
  | bodyBreaks => exact .breaks
  | goOn =>
      cases doomed with
      | source value => cases value
  | source _ ih =>
      cases doomed with
      | source part => exact .source (ih part)
  | spoil spoiled =>
      obtain ⟨member, inside, fails⟩ := spoiled_mem spoiled
      exact Work.doomed_of_failed? fails
  | collect collected =>
      cases doomed with
      | member inside fails =>
          obtain ⟨value, rfl⟩ := Work.done_of_collected collected inside
          cases fails
  | member _ ih =>
      cases doomed with
      | member inside fails =>
          rcases List.mem_append.mp inside with before | inside
          · exact .member (List.mem_append_left _ before) fails
          · rcases List.mem_cons.mp inside with rfl | after
            · exact .member (List.mem_append_right _ List.mem_cons_self) (ih fails)
            · exact .member (List.mem_append_right _ (List.mem_cons_of_mem _ after)) fails
  | last =>
      cases doomed with
      | current value => cases value
  | begin =>
      cases doomed with
      | current value => cases value
  | current _ ih =>
      cases doomed with
      | current part => exact .current (ih part)
  | _ => cases doomed

/-- A routine that is entered needs what the routine does. -/
theorem enter_within {routine : Routine} {argument : Value}
    (needs : ∀ need ∈ routine.needs, allowed need) :
    (enter routine argument).work.Within allowed := by
  rcases enter_cases routine argument with ⟨frame, same⟩ | ⟨outcome, same⟩
  · rw [same]
    exact .body .done needs
  · rw [same]
    exact .done

/-- Moves need nothing new. -/
theorem within (raceless : machine.Raceless allowed) (moves : Moves machine world work change)
    (within : work.Within allowed) (sound : ¬change.work.Doomed) :
    change.work.Within allowed ∧ ∀ work ∈ change.started, work.Within allowed := by
  induction moves with
  | fresh => exact ⟨fun need needs => within need (.fresh needs), List.forall_mem_nil _⟩
  | wait _ ends => exact ⟨.ended ends, List.forall_mem_nil _⟩
  | race won => exact ⟨.ended (Machine.race_ended won), List.forall_mem_nil _⟩
  | wake _ => exact ⟨.done, List.forall_mem_nil _⟩
  | @goOn value next =>
      rw [goOn_started]
      refine ⟨?_, List.forall_mem_nil _⟩
      rcases goOn_cases world.clock value next with
        ⟨ended, same, ends⟩ | ⟨wake, outcome, same⟩ | ⟨callee, routine, rfl, found, same⟩
      · rw [same]
        exact .ended ends
      · rw [same]
        exact .still fun need needs => by cases needs
      · rw [same]
        exact enter_within (raceless.routines (within _ .call) found)
  | fail => exact absurd .fails sound
  | breaks => exact absurd .breaks sound
  | source _ ih =>
      obtain ⟨inner, started⟩ := ih (fun need needs => within need (.source needs))
        fun doomed => sound (.source doomed)
      refine ⟨inner.source fun callee same => ?_, started⟩
      cases same
      exact within _ .call
  | spoil spoiled =>
      obtain ⟨_, _, fails⟩ := spoiled_mem spoiled
      exact absurd (Work.doomed_of_failed? fails) sound
  | collect _ => exact ⟨.done, List.forall_mem_nil _⟩
  | @member shape before member after change _ ih =>
      have each {other : Work} (inside : other ∈ before ++ member :: after) :
          other.Within allowed := fun need needs => within need (.member inside needs)
      obtain ⟨inner, started⟩ := ih (each (List.mem_append_right _ List.mem_cons_self))
        fun doomed => sound (.member (List.mem_append_right _ List.mem_cons_self) doomed)
      refine ⟨.gather (List.forall_mem_append.mpr ⟨?_, List.forall_mem_cons.mpr ⟨inner, ?_⟩⟩),
        started⟩
      · exact fun other inside => each (List.mem_append_left _ inside)
      · exact fun other inside => each (List.mem_append_right _ (List.mem_cons_of_mem _ inside))
  | last => exact ⟨.still (fun need needs => by cases needs), List.forall_mem_nil _⟩
  | @begin frame value index entry entries =>
      have needs (need : Need) (inside : need ∈ stepsNeeds ((entry :: entries).map Entry.step)) :
          allowed need := within need (.entries inside)
      rw [List.map_cons, stepsNeeds_cons, List.forall_mem_append] at needs
      rcases machine.begin_sets world.tasks.length frame index entry entries with
        ⟨current, started, after, events, same, sets⟩ | ⟨defect, started, events, same⟩
      · rw [same]
        obtain ⟨inner, others⟩ := sets.within needs.1
        exact ⟨inner.body needs.2, others⟩
      · rw [same] at sound
        exact absurd .breaks sound
  | bodyFails => exact absurd .fails sound
  | bodyBreaks => exact absurd .breaks sound
  | current _ ih =>
      obtain ⟨inner, started⟩ := ih (fun need needs => within need (.current needs))
        fun doomed => sound (.current doomed)
      exact ⟨inner.body fun need inside => within need (.entries inside), started⟩
  | settled => exact ⟨.done, List.forall_mem_nil _⟩
  | settle _ settles =>
      rcases settle_cases settles with rfl | ⟨ended, events, ends, rfl⟩
      · exact ⟨.still (fun need needs => by cases needs), List.forall_mem_nil _⟩
      · exact ⟨.ended ends, List.forall_mem_nil _⟩

/-- When all is settled that the work owes after the move, so is all that it owed before, and all
that the move has started. -/
theorem settles (raceless : machine.Raceless allowed) (moves : Moves machine world work change)
    (within : work.Within allowed) (sound : ¬change.work.Doomed)
    (known : ∀ (task : TaskId) (value : Value),
      world.tasks[task]? = some (.done (.ok value)) → settled task)
    (redeems : Redeems settled world.tasks.length change.started)
    (owed : ∀ task, change.work.Owes task → settled task) :
    (∀ task, work.Owes task → settled task) ∧
      SettledFrom settled world.tasks.length change.started.length := by
  induction moves with
  | fresh =>
      refine ⟨fun task owes => ?_, .none⟩
      cases owes with
      | fresh owes => exact owed task owes
  | @wait task ended there ends =>
      refine ⟨fun other owes => ?_, .none⟩
      cases owes with
      | wait =>
          cases ended with
          | done outcome =>
              cases outcome with
              | ok value => exact known task value there
              | error failure => exact absurd .fails sound
          | broken defect => exact absurd .breaks sound
          | _ => cases ends
  | race _ => exact ⟨(fun task owes => by cases owes), .none⟩
  | wake _ => exact ⟨(fun task owes => by cases owes), .none⟩
  | goOn =>
      rw [goOn_started]
      refine ⟨fun task owes => ?_, .none⟩
      cases owes with
      | source value => cases value
  | fail => exact absurd .fails sound
  | breaks => exact absurd .breaks sound
  | source _ ih =>
      obtain ⟨inner, started⟩ := ih (fun need needs => within need (.source needs))
        (fun doomed => sound (.source doomed)) redeems fun task owes => owed task (.source owes)
      refine ⟨fun task owes => ?_, started⟩
      cases owes with
      | source owes => exact inner task owes
  | spoil spoiled =>
      obtain ⟨_, _, fails⟩ := spoiled_mem spoiled
      exact absurd (Work.doomed_of_failed? fails) sound
  | collect collected =>
      refine ⟨fun task owes => ?_, .none⟩
      cases owes with
      | member inside owes =>
          obtain ⟨value, rfl⟩ := Work.done_of_collected collected inside
          cases owes
  | @member shape before member after change _ ih =>
      have here {other : Work} : other ∈ before ++ other :: after :=
        List.mem_append_right _ List.mem_cons_self
      obtain ⟨inner, started⟩ := ih (fun need needs => within need (.member here needs))
        (fun doomed => sound (.member here doomed)) redeems
        fun task owes => owed task (.member here owes)
      refine ⟨fun task owes => ?_, started⟩
      cases owes with
      | member inside owes =>
          rcases List.mem_append.mp inside with earlier | inside
          · exact owed task (.member (List.mem_append_left _ earlier) owes)
          · rcases List.mem_cons.mp inside with rfl | later
            · exact inner task owes
            · exact owed task (.member (List.mem_append_right _
              (List.mem_cons_of_mem _ later)) owes)
  | last =>
      refine ⟨fun task owes => ?_, .none⟩
      cases owes with
      | leaves left => exact owed task (.settle left)
      | current value => cases value
  | @begin frame value index entry entries =>
      have needs (need : Need) (inside : need ∈ stepsNeeds ((entry :: entries).map Entry.step)) :
          allowed need := within need (.entries inside)
      rw [List.map_cons, stepsNeeds_cons, List.forall_mem_append] at needs
      rcases machine.begin_sets world.tasks.length frame index entry entries with
        ⟨current, started, after, events, same, sets⟩ | ⟨defect, started, events, same⟩
      · rw [same] at redeems owed ⊢
        obtain ⟨before, some⟩ := sets.settles raceless needs.1 redeems
          (fun task owes => owed task (.current owes)) fun task left => owed task (.leaves left)
        refine ⟨fun task owes => ?_, some⟩
        cases owes with
        | leaves left => exact before task left
        | current value => cases value
      · rw [same] at sound
        exact absurd .breaks sound
  | bodyFails => exact absurd .fails sound
  | bodyBreaks => exact absurd .breaks sound
  | current _ ih =>
      obtain ⟨inner, started⟩ := ih (fun need needs => within need (.current needs))
        (fun doomed => sound (.current doomed)) redeems fun task owes => owed task (.current owes)
      refine ⟨fun task owes => ?_, started⟩
      cases owes with
      | leaves left => exact owed task (.leaves left)
      | current owes => exact inner task owes
  | settled =>
      refine ⟨fun task owes => ?_, .none⟩
      cases owes with
      | settle inside => cases inside
  | @settle task count bindings result other change there checks =>
      cases other with
      | done outcome =>
          cases outcome with
          | error failure =>
              cases checks
              exact absurd .fails sound
          | ok value =>
              rcases settle_eq checks with rfl | ⟨failure, rfl⟩
              · refine ⟨fun other owes => ?_, .none⟩
                cases owes with
                | settle inside =>
                    rcases List.mem_cons.mp inside with rfl | later
                    · exact known _ value there
                    · exact owed other (.settle later)
              · exact absurd .fails sound
      | broken defect =>
          cases checks
          exact absurd .breaks sound
      | _ => cases checks

end Moves

theorem Work.Owes.meet {work : Work} {task : TaskId} (owes : work.Owes task) :
    work.meet.Owes task := by
  cases work with
  | broken defect => cases owes
  | _ => exact owes

theorem Work.Doomed.meet {work : Work} (doomed : work.Doomed) : work.meet.Doomed := by
  cases work with
  | broken defect => exact .breaks
  | _ => exact doomed

theorem Work.Within.meet {work : Work} (within : work.Within allowed) :
    work.meet.Within allowed := by
  cases work with
  | broken defect => exact .ended rfl
  | _ => exact within

namespace World

variable {world next last : World} {task : TaskId} {work : Work} {change : Change}

/-- In a step the work of a task stays or moves, and its defect may be met. -/
theorem Goes.stands (goes : world.Goes machine next) (there : world.tasks[task]? = some work) :
    ∃ later origin, next.tasks[task]? = some later ∧ (later = origin ∨ later = origin.meet) ∧
      (origin = work ∨ ∃ change, Moves machine world work change ∧ origin = change.work) := by
  cases goes with
  | tick _ _ same => exact ⟨work, work, same ▸ there, .inl rfl, .inl rfl⟩
  | @move moved first change stands moves _ same =>
      by_cases here : task = moved
      · rw [here] at there ⊢
        obtain rfl := Option.some.inj (there.symm.trans stands)
        obtain ⟨later, now, met⟩ := getElem?_after_moved same stands
        exact ⟨later, change.work, now, met, .inr ⟨change, moves, rfl⟩⟩
      · obtain ⟨later, now, met⟩ := getElem?_after_other same there here
        exact ⟨later, work, now, met, .inl rfl⟩

/-- The task has its value. -/
def Settled (world : World) (task : TaskId) : Prop :=
  ∃ value, world.tasks[task]? = some (.done (.ok value))

/-- The task has not failed, and owes its value to nothing. -/
def Free (world : World) (task : TaskId) : Prop :=
  ∃ work, world.tasks[task]? = some work ∧ ¬work.Doomed ∧ ∀ other, ¬work.Owes other

theorem Settled.free (has : world.Settled task) : world.Free task := by
  obtain ⟨value, there⟩ := has
  refine ⟨_, there, fun doomed => ?_, fun other owes => ?_⟩
  · cases doomed
  · cases owes

theorem Settled.later (has : world.Settled task) (reaches : world.Reaches machine last) :
    last.Settled task := by
  obtain ⟨value, there⟩ := has
  exact ⟨value, reaches.keeps (fun holds goes => goes.done holds) there⟩

/-- A task that will fail stays so. -/
theorem Reaches.doomed (reaches : world.Reaches machine last)
    (there : world.tasks[task]? = some work) (doomed : work.Doomed) :
    ∃ later, last.tasks[task]? = some later ∧ later.Doomed := by
  have step {world next : World} (holds : ∃ work, world.tasks[task]? = some work ∧ work.Doomed)
      (goes : world.Goes machine next) : ∃ work, next.tasks[task]? = some work ∧ work.Doomed := by
    obtain ⟨work, there, doomed⟩ := holds
    obtain ⟨later, origin, now, met, source⟩ := goes.stands there
    have fails : origin.Doomed := by
      rcases source with rfl | ⟨change, moves, rfl⟩
      · exact doomed
      · exact moves.doomed doomed
    rcases met with rfl | rfl
    · exact ⟨_, now, fails⟩
    · exact ⟨_, now, fails.meet⟩
  exact reaches.keeps step ⟨work, there, doomed⟩

theorem Free.sound (free : last.Free task) (reaches : world.Reaches machine last)
    (there : world.tasks[task]? = some work) : ¬work.Doomed := by
  intro doomed
  obtain ⟨final, stands, sound, _⟩ := free
  obtain ⟨later, found, fails⟩ := reaches.doomed there doomed
  obtain rfl := Option.some.inj (found.symm.trans stands)
  exact sound fails

/-- Tasks that are free in the last world owe nothing by now but to what is settled there. -/
def Redeemed (allowed : Need → Prop) (world last : World) : Prop :=
  ∀ (task : TaskId) (work : Work), world.tasks[task]? = some work → work.Within allowed →
    last.Free task → ∀ other, work.Owes other → last.Settled other

/-- One step back, all is settled that the task which moves owes, and all that it starts. -/
theorem Redeemed.move (raceless : machine.Raceless allowed) (redeemed : Redeemed allowed next last)
    (reaches : next.Reaches machine last) (there : world.tasks[task]? = some work)
    (moves : Moves machine world work change) (clock : next.clock = world.clock)
    (same : next.tasks = world.tasksAfter task change) (within : work.Within allowed)
    (free : last.Free task) :
    change.work.Within allowed ∧ (∀ work ∈ change.started, work.Within allowed) ∧
      (∀ other, work.Owes other → last.Settled other) ∧
      SettledFrom last.Settled world.tasks.length change.started.length := by
  obtain ⟨later, now, met⟩ := getElem?_after_moved same there
  have sound : ¬change.work.Doomed := by
    intro doomed
    refine free.sound reaches now ?_
    rcases met with rfl | rfl
    · exact doomed
    · exact doomed.meet
  obtain ⟨inner, started⟩ := moves.within raceless within sound
  refine ⟨inner, started, moves.settles raceless within sound ?_ ?_ ?_⟩
  · intro other value stands
    have stays := (Goes.move there moves clock same).done stands
    exact Settled.later ⟨value, stays⟩ reaches
  · intro index found starts come other owes
    obtain ⟨later, now, met⟩ := getElem?_after_started same starts
    have within := started found (List.mem_of_getElem? starts)
    rcases met with rfl | rfl
    · exact redeemed _ _ now within come.free other owes
    · exact redeemed _ _ now within.meet come.free other owes.meet
  · intro other owes
    rcases met with rfl | rfl
    · exact redeemed _ _ now inner free other owes
    · exact redeemed _ _ now inner.meet free other owes.meet

theorem Reaches.redeemed (raceless : machine.Raceless allowed)
    (reaches : world.Reaches machine last) : Redeemed allowed world last := by
  induction reaches using Relation.ReflTransGen.head_induction_on with
  | refl =>
      intro task work there _ free other owes
      obtain ⟨found, stands, _, none⟩ := free
      obtain rfl := Option.some.inj (stands.symm.trans there)
      exact absurd owes (none other)
  | @head world next stepped rest ih =>
      intro task work there within free other owes
      cases step?_goes stepped with
      | tick _ _ same => exact ih task work (same ▸ there) within free other owes
      | @move moved first change stands moves clock same =>
          by_cases here : task = moved
          · rw [here] at there free
            obtain rfl := Option.some.inj (there.symm.trans stands)
            exact (ih.move raceless rest stands moves clock same within free).2.2.1 other owes
          · obtain ⟨later, now, rfl | rfl⟩ := getElem?_after_other same there here
            · exact ih task _ now within free other owes
            · exact ih task _ now within.meet free other owes.meet

/-- If no task of a world fails or owes anything in the end, all that is started later has its
value by then. -/
theorem Reaches.all_settled (raceless : machine.Raceless allowed)
    (reaches : world.Reaches machine last)
    (free : ∀ (task : TaskId) (work : Work), world.tasks[task]? = some work →
      work.Within allowed ∧ last.Free task) {task : TaskId}
    (late : world.tasks.length ≤ task) (below : task < last.tasks.length) :
    last.Settled task := by
  induction reaches using Relation.ReflTransGen.head_induction_on with
  | refl => exact absurd below (Nat.not_lt_of_le late)
  | @head world next stepped rest ih =>
      cases step?_goes stepped with
      | tick _ _ same =>
          rw [← same] at free late
          exact ih free late
      | @move moved work change stands moves clock same =>
          obtain ⟨within, come⟩ := free moved work stands
          obtain ⟨inner, started, _, settled⟩ :=
            (Reaches.redeemed raceless rest).move raceless rest stands moves clock same within come
          rcases Nat.lt_or_ge task next.tasks.length with early | beyond
          · have index : task = world.tasks.length + (task - world.tasks.length) :=
              (Nat.add_sub_cancel' late).symm
            rw [same, length_tasksAfter] at early
            rw [index]
            exact settled _ (by omega)
          · refine ih (forall_tasksAfter same (fun _ _ known => ⟨known.1.meet, known.2⟩)
              ⟨inner, come⟩ free fun index other starts => ?_) beyond
            have below := (List.getElem?_eq_some_iff.mp starts).1
            exact ⟨started other (List.mem_of_getElem? starts), (settled index below).free⟩

end World

end Runbook
