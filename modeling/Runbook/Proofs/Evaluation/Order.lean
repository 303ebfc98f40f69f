import Runbook.Proofs.Evaluation.Progress

/-!
The order in which tasks wait for each other.

A task waits for tasks that it has started, or for ones that were started beside it and before it.
That is so of every routine, of one that breaks down too: tasks get their numbers when an entry is
set up, and what an entry waits for is known by then. For the value of a name, a task waits for a
binding which its frame had before the task was started, and so before the binding that the task is
part of.
-/
namespace Runbook

variable {machine : Machine} {world next : World}

/-- The move begins an entry; `after` is the frame that setting it up leaves, be it broken down. -/
inductive Begins (machine : Machine) (world : World) : Work → Change → Frame → Prop
  | entry {frame : Frame} {value : Value} {index : Nat} {entry : Entry} {entries : List Entry}
      {result : Except Defect Work} {state : SetUp.State} :
      (setUpEntry machine.registry index entries.isEmpty entry).run.run
        ⟨frame, world.tasks.length, [], []⟩ = (result, state) →
      Begins machine world (.body frame (.done (.ok value)) index (entry :: entries))
        (machine.begin world.tasks.length frame index entry entries) state.frame
  | source {source next change after} : Begins machine world source change after →
      Begins machine world (.after source next) (change.within (.after · next)) after
  | member {shape before member others change after} :
      Begins machine world member change after →
      Begins machine world (.gather shape (before ++ member :: others))
        (change.within fun work => .gather shape (before ++ work :: others)) after
  | current {frame current index entries change after} :
      Begins machine world current change after →
      Begins machine world (.body frame current index entries)
        (change.within (.body frame · index entries)) after

namespace Work

theorem awaits_ended {work : Work} (ends : work.ended? = some work) :
    work.awaits = [] ∧ work.reads = [] ∧ work.bodies = [] := by
  cases work with
  | done outcome => exact ⟨rfl, rfl, rfl⟩
  | broken defect => exact ⟨rfl, rfl, rfl⟩
  | _ => cases ends

theorem ended?_of_failed? {work failed : Work} (fails : work.failed? = some failed) :
    failed.ended? = some failed := by
  cases work with
  | done outcome =>
      cases outcome with
      | ok value => cases fails
      | error failure =>
          cases fails
          rfl
  | broken defect =>
      cases fails
      rfl
  | _ => cases fails

end Work

theorem Machine.race_ended {left right : Option Work} {winner : Work}
    (won : race left right = some winner) : winner.ended? = some winner := by
  have first {work : Option Work} {ended : Work} (found : work.bind Work.ended? = some ended) :
      ended.ended? = some ended := by
    obtain ⟨work, _, ends⟩ := Option.bind_eq_some_iff.mp found
    obtain rfl := ended?_eq ends
    exact ends
  rw [race] at won
  split at won
  · rename_i ended _ found
    split at won
    · cases won
      rfl
    · cases won
      exact first found
  · rename_i ended _ found
    split at won
    · cases won
      rfl
    · cases won
      exact first found
  · cases won

/-- A routine that is entered waits for nothing, and its frame has no tasks. -/
theorem enter_quiet (routine : Routine) (argument : Value) :
    (enter routine argument).work.awaits = [] ∧ (enter routine argument).work.reads = [] ∧
      (∀ body ∈ (enter routine argument).work.bodies,
        body.1.tasks = [] ∧ body.2 = .done (.ok .unit)) ∧
      (enter routine argument).started = [] := by
  rw [enter]
  split
  · exact ⟨rfl, rfl, List.forall_mem_singleton.mpr ⟨rfl, rfl⟩, rfl⟩
  · split
    · exact ⟨rfl, rfl, List.forall_mem_singleton.mpr ⟨Frame.ofParameters_tasks _ _, rfl⟩, rfl⟩
    · exact ⟨rfl, rfl, List.forall_mem_nil _, rfl⟩

/-- What a change makes of a work: it waits for more tasks only if the change starts them, and those
wait for tasks of its frames and for earlier ones of their own. -/
structure Change.Keeps (has waits own : TaskId → Prop) (next : Nat) (change : Change) :
    Prop where
  asks : change.work.Asks has
  awaits : ∀ task : Nat, task ∈ change.work.awaits →
    waits task ∨ next ≤ task ∧ task < next + change.started.length
  framed : change.work.Framed fun task : Nat =>
    own task ∨ next ≤ task ∧ task < next + change.started.length
  started : ∀ (index : Nat) (work : Work), change.started[index]? = some work →
    (∀ task : Nat, task ∈ work.awaits → (own task ∨ next ≤ task) ∧ task < next + index) ∧
      work.bodies = []

namespace Change.Keeps

variable {has waits own : TaskId → Prop} {count : Nat}

theorem quiet {work : Work} {events : List Event} {met : Option TaskId}
    (awaits : work.awaits = []) (reads : work.reads = []) (bodies : work.bodies = []) :
    Keeps has waits own count ⟨work, [], events, met⟩ := by
  refine ⟨fun source mem => ?_, fun task mem => ?_, fun body mem => ?_, fun index work found => ?_⟩
  · rw [reads] at mem
    cases mem
  · rw [awaits] at mem
    cases mem
  · rw [bodies] at mem
    cases mem
  · cases found

theorem ended {work : Work} {events : List Event} {met : Option TaskId}
    (ends : work.ended? = some work) : Keeps has waits own count ⟨work, [], events, met⟩ := by
  obtain ⟨awaits, reads, bodies⟩ := Work.awaits_ended ends
  exact .quiet awaits reads bodies

theorem become {work : Work} (asks : work.Asks has) (awaits : ∀ task ∈ work.awaits, waits task)
    (framed : work.Framed own) : Keeps has waits own count (.become work) :=
  ⟨asks, fun task mem => .inl (awaits task mem), framed.mono fun _ => .inl, nofun⟩

theorem enter (routine : Routine) (argument : Value) :
    Keeps has waits own count (Runbook.enter routine argument) := by
  obtain ⟨awaits, reads, bodies, started⟩ := enter_quiet routine argument
  refine ⟨fun source mem => ?_, fun task mem => ?_, fun body mem => ?_, fun index work found => ?_⟩
  · rw [reads] at mem
    cases mem
  · rw [awaits] at mem
    cases mem
  · obtain ⟨empty, done⟩ := bodies body mem
    rw [empty, done]
    exact ⟨nofun, .nil, nofun⟩
  · rw [started] at found
    cases found

theorem goOn (clock : Nat) (value : Value) (next : Continuation) :
    Keeps has waits own count (machine.goOn clock value next) := by
  have perform {primitive : Primitive} {events : List Event} :
      Keeps has waits own count (Machine.goOn.perform clock value primitive events) := by
    simp only [Machine.goOn.perform]
    split
    · exact .ended rfl
    · exact .quiet rfl rfl rfl
  cases next with
  | pick names place =>
      rw [Machine.goOn]
      split
      · exact .ended rfl
      · exact .ended rfl
  | call callee =>
      rw [Machine.goOn]
      split
      · exact .enter _ _
      · exact .ended rfl
  | invoke primitive => exact perform
  | join primitive => exact perform

/-- An entry is set up in a frame that is filled by tasks which were started before. -/
theorem begin {frame : Frame} {index : Nat} {entry : Entry} {entries : List Entry}
    (filled : ∀ task ∈ frame.tasks, own task) (sorted : frame.tasks.Pairwise (· < ·))
    (among : ∀ task, own task → waits task) (below : ∀ task : Nat, own task → task < count) :
    Keeps has waits own count (machine.begin count frame index entry entries) := by
  have ranks := @SetUp.ranks_setUpEntry machine.registry _ _ index entries.isEmpty entry
    (fun task mem => below task (filled task mem)) sorted
  obtain ⟨result, state, run, ranked, fits⟩ := ranks
  have started (index : Nat) (work : Work) (found : state.started[index]? = some work) :
      (∀ task : Nat, task ∈ work.awaits → (own task ∨ count ≤ task) ∧ task < count + index) ∧
        work.bodies = [] := by
    have fits := ranked.started index work found
    exact ⟨fun task mem => (fits.awaits task mem).imp_left (Or.imp_left (filled task)), fits.bodies⟩
  rw [Machine.begin, run]
  cases result with
  | error defect =>
      exact ⟨List.forall_mem_nil _, List.forall_mem_nil _, List.forall_mem_nil _, started⟩
  | ok work =>
      obtain ⟨awaits, asks, bodies⟩ := fits work rfl
      rw [ranked.next] at awaits
      refine ⟨List.forall_mem_nil _, fun task mem => ?_, fun body mem => ?_, started⟩
      · obtain ⟨waits, before⟩ := awaits task mem
        exact waits.imp (fun inside => among task (filled task inside)) fun above => ⟨above, before⟩
      · rw [Work.bodies, bodies] at mem
        rw [List.mem_singleton.mp mem]
        refine ⟨fun task inside => ?_, ranked.sorted, asks⟩
        obtain ⟨old, before⟩ := ranked.filled task inside
        rw [ranked.next] at before
        exact old.imp (filled task) fun above => ⟨above, before⟩

end Change.Keeps

namespace Moves

variable {has waits own : TaskId → Prop} {work : Work} {change : Change}

/-- A binding that is settled leaves the others, or ends the body. -/
theorem settle_cases {count : Nat} {bindings : List (TaskId × Nat)} {result : Value}
    (settles : Machine.settle count bindings result work = some change) :
    change = .become (.settle bindings result) ∨
      ∃ ended events, ended.ended? = some ended ∧ change = ⟨ended, [], events, none⟩ := by
  cases work with
  | done outcome =>
      rcases settle_eq settles with same | ⟨failure, same⟩
      · exact .inl same
      · exact .inr ⟨_, _, rfl, same⟩
  | broken defect => exact .inr ⟨_, _, rfl, (Option.some.inj settles).symm⟩
  | _ => cases settles

/-- Moves keep the order of what is waited for. -/
theorem keeps (moves : Moves machine world work change) (asks : work.Asks has)
    (awaits : ∀ task ∈ work.awaits, waits task) (framed : work.Framed own)
    (among : ∀ task, own task → waits task)
    (below : ∀ task : Nat, own task → task < world.tasks.length) :
    change.Keeps has waits own world.tasks.length := by
  induction moves generalizing has with
  | fresh => exact .become asks awaits framed
  | wait _ ends => exact .ended ends
  | race won => exact .ended (Machine.race_ended won)
  | wake _ => exact .ended rfl
  | goOn => exact .goOn _ _ _
  | fail => exact .ended rfl
  | breaks => exact .ended rfl
  | @source source next change part ih =>
      cases next with
      | pick names place =>
          -- the source of a pick only waits, and ends when it moves
          rcases asks source List.mem_cons_self with ends | ⟨task, rfl, _⟩
          · cases source with
            | done outcome => cases part
            | broken defect => cases part
            | _ => cases ends
          · cases part with
            | wait _ ends =>
                obtain ⟨_, awaits, framed, started⟩ := @ih has nofun awaits framed
                refine ⟨fun other mem => .inl ?_, awaits, framed, started⟩
                rw [List.mem_singleton.mp mem]
                exact ends
      | _ =>
          obtain ⟨asks, awaits, framed, started⟩ := ih asks awaits framed
          exact ⟨asks, awaits, framed, started⟩
  | spoil spoiled =>
      obtain ⟨_, _, fails⟩ := spoiled_mem spoiled
      exact .ended (Work.ended?_of_failed? fails)
  | collect _ => exact .ended rfl
  | @member shape before member after change part ih =>
      rw [Work.asks_gather, List.forall_mem_append, List.forall_mem_cons] at asks
      rw [Work.awaits_gather, List.forall_mem_append, List.forall_mem_cons] at awaits
      rw [Work.framed_gather, List.forall_mem_append, List.forall_mem_cons] at framed
      have kept := ih asks.2.1 awaits.2.1 framed.2.1
      refine ⟨?_, ?_, ?_, kept.started⟩
      · exact Work.asks_gather.mpr (List.forall_mem_append.mpr ⟨asks.1,
          List.forall_mem_cons.mpr ⟨kept.asks, asks.2.2⟩⟩)
      · refine Work.awaits_gather.mpr (List.forall_mem_append.mpr ⟨?_,
          List.forall_mem_cons.mpr ⟨kept.awaits, ?_⟩⟩)
        · exact fun other inside task mem => .inl (awaits.1 other inside task mem)
        · exact fun other inside task mem => .inl (awaits.2.2 other inside task mem)
      · refine Work.framed_gather.mpr (List.forall_mem_append.mpr ⟨?_,
          List.forall_mem_cons.mpr ⟨kept.framed, ?_⟩⟩)
        · exact fun other inside => (framed.1 other inside).mono fun _ => .inl
        · exact fun other inside => (framed.2.2 other inside).mono fun _ => .inl
  | @last frame value index =>
      refine .become nofun (fun task mem => ?_) nofun
      obtain ⟨binding, inside, rfl⟩ := List.mem_map.mp mem
      exact among _ ((framed _ List.mem_cons_self).1 _ (Frame.unobserved_tasks inside))
  | begin =>
      obtain ⟨filled, sorted, _⟩ := framed _ List.mem_cons_self
      exact .begin filled sorted among below
  | bodyFails => exact .ended rfl
  | bodyBreaks => exact .ended rfl
  | current _ ih =>
      obtain ⟨⟨filled, sorted, asks⟩, inside⟩ := List.forall_mem_cons.mp framed
      have kept := ih asks awaits inside
      refine ⟨nofun, kept.awaits, List.forall_mem_cons.mpr ⟨?_, kept.framed⟩, kept.started⟩
      exact ⟨fun task mem => .inl (filled task mem), sorted, kept.asks⟩
  | settled => exact .ended rfl
  | settle _ settles =>
      rcases settle_cases settles with rfl | ⟨ended, events, ends, rfl⟩
      · refine ⟨nofun, fun task mem => .inl (awaits task ?_), nofun, nofun⟩
        exact List.mem_cons_of_mem _ mem
      · exact .ended ends

theorem goOn_started (clock : Nat) (value : Value) (next : Continuation) :
    (machine.goOn clock value next).started = [] := by
  cases next with
  | pick names place =>
      rw [Machine.goOn]
      split <;> rfl
  | call callee =>
      rw [Machine.goOn]
      split
      · exact (enter_quiet _ _).2.2.2
      · rfl
  | invoke primitive => rfl
  | join primitive => rfl

/-- A move that starts tasks begins an entry, and each of the tasks asks for names of its frame. -/
theorem begins (moves : Moves machine world work change) (framed : work.Framed own)
    (below : ∀ task : Nat, own task → task < world.tasks.length) :
    change.started = [] ∨ ∃ after, Begins machine world work change after ∧
      after.tasks.Pairwise (· < ·) ∧
      ∀ (index : Nat) (work : Work), change.started[index]? = some work →
        work.Asks (· ∈ after.tasks) := by
  induction moves with
  | goOn => exact .inl (goOn_started _ _ _)
  | source _ ih =>
      refine (ih framed).imp_right fun found => ?_
      obtain ⟨after, begins, rest⟩ := found
      exact ⟨after, .source begins, rest⟩
  | member _ ih =>
      rw [Work.framed_gather, List.forall_mem_append, List.forall_mem_cons] at framed
      refine (ih framed.2.1).imp_right fun found => ?_
      obtain ⟨after, begins, rest⟩ := found
      exact ⟨after, .member begins, rest⟩
  | current _ ih =>
      refine (ih (List.forall_mem_cons.mp framed).2).imp_right fun found => ?_
      obtain ⟨after, begins, rest⟩ := found
      exact ⟨after, .current begins, rest⟩
  | @begin frame value index entry entries =>
      obtain ⟨filled, sorted, _⟩ := framed _ List.mem_cons_self
      have ranks := @SetUp.ranks_setUpEntry machine.registry _ _ index entries.isEmpty entry
        (fun task mem => below task (filled task mem)) sorted
      obtain ⟨result, state, run, ranked, _⟩ := ranks
      have same : (machine.begin world.tasks.length frame index entry entries).started =
          state.started := by
        rw [Machine.begin, run]
        cases result <;> rfl
      refine .inr ⟨state.frame, .entry run, ranked.sorted, fun place work found => ?_⟩
      exact (ranked.started place work (same ▸ found)).asks
  | settle _ settles =>
      rcases settle_cases settles with rfl | ⟨ended, events, _, rfl⟩
      · exact .inl rfl
      · exact .inl rfl
  | _ => exact .inl rfl

end Moves

/-- The frame has a binding of the task `other` that was registered before `task` was started. The
binding that `task` is part of is registered later: it is of `task` or of one started after it. -/
def Frame.RegistersBefore (frame : Frame) (other task : TaskId) : Prop :=
  ∃ earlier binding later, frame.bindings = earlier ++ binding :: later ∧
    binding.task? = some other ∧ other < task ∧
    ∀ bound ∈ frame.bindings, ∀ own : Nat, bound.task? = some own → task ≤ own → bound ∈ later

theorem Frame.registersBefore {frame : Frame} {other task : TaskId}
    (sorted : frame.tasks.Pairwise (· < ·)) (inside : other ∈ frame.tasks)
    (before : other < task) : frame.RegistersBefore other task := by
  obtain ⟨binding, bound, same⟩ := List.mem_filterMap.mp inside
  obtain ⟨earlier, later, split⟩ := List.append_of_mem bound
  refine ⟨earlier, binding, later, split, same, before, fun bound mem own task above => ?_⟩
  rw [Frame.tasks, split, List.filterMap_append, List.filterMap_cons_some same,
    List.pairwise_append] at sorted
  rw [split, List.mem_append, List.mem_cons] at mem
  rcases mem with mem | rfl | mem
  · have less := sorted.2.2 own (List.mem_filterMap.mpr ⟨bound, mem, task⟩) other
      List.mem_cons_self
    exact absurd (Nat.lt_trans less before) (Nat.not_lt_of_le above)
  · obtain rfl := Option.some.inj (task.symm.trans same)
    exact absurd before (Nat.not_lt_of_le above)
  · exact mem

namespace World

variable {parent : Nat → Nat} {start : World}

/-- In the run from `start` the task was started by the setting up of an entry that left the
frame. -/
def StartedIn (machine : Machine) (start world : World) (task : TaskId) (frame : Frame) : Prop :=
  ∃ before after, start.Reaches machine before ∧ before.step? machine = some after ∧
    after.Reaches machine world ∧ (before.tasks.length ≤ task ∧ task < after.tasks.length) ∧
    ∃ caller work change, before.tasks[caller]? = some work ∧
      Begins machine before work change frame ∧ after.tasks = before.tasksAfter caller change

theorem StartedIn.step {task : TaskId} {frame : Frame}
    (started : start.StartedIn machine world task frame)
    (stepped : world.step? machine = some next) : start.StartedIn machine next task frame := by
  obtain ⟨before, after, reaches, first, rest, begun⟩ := started
  exact ⟨before, after, reaches, first, rest.tail stepped, begun⟩

/-- A task after a move is the moved one, another one, or one that is started, but for a defect in
it that has been met. -/
theorem getElem?_tasksAfter {task other : Nat} {change : Change} {found : Work}
    (there : (world.tasksAfter task change)[other]? = some found) :
    ∃ work, (found = work ∨ found = work.meet) ∧ ((other = task ∧ work = change.work) ∨
      (other ≠ task ∧ world.tasks[other]? = some work) ∨
      ∃ index, other = world.tasks.length + index ∧ change.started[index]? = some work) := by
  obtain ⟨work, same, there⟩ : ∃ work, (found = work ∨ found = work.meet) ∧
      (world.tasks.set task change.work ++ change.started)[other]? = some work := by
    rw [tasksAfter] at there
    cases meets : change.met with
    | none =>
        rw [meets] at there
        exact ⟨found, .inl rfl, there⟩
    | some met =>
        rw [meets, Option.elim_some, List.getElem?_append, List.length_modify] at there
        rw [List.getElem?_append]
        split
        · rw [if_pos ‹_›, List.getElem?_modify, Option.map_eq_map, Option.map_eq_some_iff] at there
          obtain ⟨work, there, same⟩ := there
          refine ⟨work, ?_, there⟩
          split at same
          · exact .inr same.symm
          · exact .inl same.symm
        · rw [if_neg ‹_›] at there
          exact ⟨found, .inl rfl, there⟩
  exact ⟨work, same, getElem?_moved there⟩

theorem length_tasksAfter (task : TaskId) (change : Change) :
    (world.tasksAfter task change).length = world.tasks.length + change.started.length := by
  rw [tasksAfter, List.length_append]
  cases change.met with
  | none => rw [Option.elim_none, List.length_set]
  | some met => rw [Option.elim_some, List.length_modify, List.length_set]

/-- All works are of a kind after a move if the moved one is, the others are, and those that are
started, and if what is of that kind stays so as its defect is met. -/
theorem forall_tasksAfter {task : TaskId} {change : Change} {kind : TaskId → Work → Prop}
    (same : next.tasks = world.tasksAfter task change)
    (meets : ∀ other work, kind other work → kind other work.meet) (moved : kind task change.work)
    (others : ∀ other work, world.tasks[other]? = some work → kind other work)
    (starts : ∀ index work, change.started[index]? = some work →
      kind (world.tasks.length + index) work) :
    ∀ other work, next.tasks[other]? = some work → kind other work := by
  intro other found there
  rw [same] at there
  obtain ⟨work, either, origin⟩ := getElem?_tasksAfter there
  have holds : kind other work := by
    rcases origin with ⟨rfl, rfl⟩ | ⟨_, stays⟩ | ⟨index, rfl, started⟩
    · exact moved
    · exact others other work stays
    · exact starts index work started
  rcases either with rfl | rfl
  · exact holds
  · exact meets other work holds

/-- What a move makes of the works is there after it, but for a defect that has been met. -/
theorem getElem?_after {task : TaskId} {change : Change}
    (same : next.tasks = world.tasksAfter task change) {other : Nat} {found : Work}
    (there : (world.tasks.set task change.work ++ change.started)[other]? = some found) :
    ∃ later, next.tasks[other]? = some later ∧ (later = found ∨ later = found.meet) := by
  rw [same, tasksAfter]
  cases change.met with
  | none => exact ⟨found, there, .inl rfl⟩
  | some met =>
      rw [List.getElem?_append] at there
      rw [Option.elim_some, List.getElem?_append, List.length_modify]
      split
      · rw [if_pos ‹_›] at there
        rw [List.getElem?_modify, there]
        by_cases meets : met = other
        · exact ⟨found.meet, congrArg some (if_pos meets), .inr rfl⟩
        · exact ⟨found, congrArg some (if_neg meets), .inl rfl⟩
      · rw [if_neg ‹_›] at there
        exact ⟨found, there, .inl rfl⟩

theorem getElem?_after_moved {task : TaskId} {work : Work} {change : Change}
    (same : next.tasks = world.tasksAfter task change)
    (there : world.tasks[task]? = some work) :
    ∃ later, next.tasks[task]? = some later ∧ (later = change.work ∨ later = change.work.meet) := by
  have below := (List.getElem?_eq_some_iff.mp there).1
  refine getElem?_after same ?_
  rw [List.getElem?_append_left (by rwa [List.length_set]), List.getElem?_set_self below]

theorem getElem?_after_other {task : TaskId} {change : Change}
    (same : next.tasks = world.tasksAfter task change) {other : Nat} {found : Work}
    (there : world.tasks[other]? = some found) (differs : other ≠ task) :
    ∃ later, next.tasks[other]? = some later ∧ (later = found ∨ later = found.meet) := by
  have below := (List.getElem?_eq_some_iff.mp there).1
  refine getElem?_after same ?_
  rw [List.getElem?_append_left (by rwa [List.length_set]),
    List.getElem?_set_ne (Ne.symm differs), there]

theorem getElem?_after_started {task : TaskId} {change : Change}
    (same : next.tasks = world.tasksAfter task change) {index : Nat} {found : Work}
    (there : change.started[index]? = some found) :
    ∃ later, next.tasks[world.tasks.length + index]? = some later ∧
      (later = found ∨ later = found.meet) := by
  refine getElem?_after same ?_
  rw [List.getElem?_append_right (by rw [List.length_set]; exact Nat.le_add_right _ _),
    List.length_set, Nat.add_sub_cancel_left, there]

/-- A task may have the value of a name from the task `other`. -/
def MayAsk (machine : Machine) (start world : World) (task other : TaskId) : Prop :=
  ∃ frame, start.StartedIn machine world task frame ∧ frame.RegistersBefore other task

theorem MayAsk.step {task other : TaskId} (asks : start.MayAsk machine world task other)
    (stepped : world.step? machine = some next) : start.MayAsk machine next task other := by
  obtain ⟨frame, started, registers⟩ := asks
  exact ⟨frame, started.step stepped, registers⟩

/-- The work of the task waits for what the task may wait for. -/
structure Heeds (machine : Machine) (start world : World) (parent : Nat → Nat) (task : Nat)
    (work : Work) : Prop where
  awaits : ∀ other ∈ work.awaits, world.MayWait parent task other
  framed : work.Framed (world.Owns parent task)
  asks : work.Asks (start.MayAsk machine world task)

theorem Heeds.meet {parent : Nat → Nat} {task : Nat} {work : Work}
    (heeds : start.Heeds machine world parent task work) :
    start.Heeds machine world parent task work.meet where
  awaits := by
    rw [Work.awaits_meet]
    exact heeds.awaits
  framed := by
    rw [Work.Framed, Work.bodies_meet]
    exact heeds.framed
  asks := by
    rw [Work.Asks, Work.reads_meet]
    exact heeds.asks

/-- What holds in all worlds that a run from `start` comes to. -/
structure Follows (machine : Machine) (start world : World) (parent : Nat → Nat) : Prop where
  begun : 0 < world.tasks.length
  parents : ∀ task, parent task ≤ task
  heeds : ∀ (task : Nat) (work : Work), world.tasks[task]? = some work →
    start.Heeds machine world parent task work

theorem Follows.ordered (follows : start.Follows machine world parent) : world.Ordered parent :=
  ⟨follows.parents, fun task work there => (follows.heeds task work there).awaits⟩

theorem start_follows (machine : Machine) (routine : Routine) (argument : Value) :
    (World.start routine argument).Follows machine (World.start routine argument) fun _ => 0 := by
  refine ⟨Nat.one_pos, fun _ => Nat.zero_le _, fun task work there => ?_⟩
  cases task with
  | zero =>
      obtain rfl := Option.some.inj there
      obtain ⟨awaits, reads, bodies, _⟩ := enter_quiet routine argument
      refine ⟨fun other mem => ?_, fun body mem => ?_, fun source mem => ?_⟩
      · rw [awaits] at mem
        cases mem
      · obtain ⟨empty, done⟩ := bodies body mem
        rw [empty, done]
        exact ⟨nofun, .nil, nofun⟩
      · rw [reads] at mem
        cases mem
  | succ task => cases there

theorem Follows.tick (follows : start.Follows machine world parent)
    (stepped : world.step? machine = some next) (same : next.tasks = world.tasks) :
    start.Follows machine next parent := by
  have length := congrArg List.length same
  refine ⟨length ▸ follows.begun, follows.parents, fun task work there => ?_⟩
  rw [same] at there
  obtain ⟨awaits, framed, asks⟩ := follows.heeds task work there
  refine ⟨fun other mem => ?_, framed.mono fun other owned => ?_, asks.mono fun _ may =>
    may.step stepped⟩
  · rw [MayWait, Owns, length]
    exact awaits other mem
  · rw [Owns, length]
    exact owned

/-- A task that is started asks for names that its frame has by then. -/
theorem asks_started (reaches : start.Reaches machine world)
    (stepped : world.step? machine = some next) {task : Nat} {work : Work} {change : Change}
    (there : world.tasks[task]? = some work) (moves : Moves machine world work change)
    (same : next.tasks = world.tasksAfter task change)
    (framed : work.Framed (world.Owns parent task)) {index : Nat} {begun : Work}
    (started : change.started[index]? = some begun)
    (earlier : ∀ other ∈ begun.awaits, other < world.tasks.length + index) :
    begun.Asks (start.MayAsk machine next (world.tasks.length + index)) := by
  intro source mem
  rcases moves.begins framed (fun _ owned => owned.1) with none | ⟨frame, begins, sorted, has⟩
  · rw [none] at started
    cases started
  · refine (has index begun started source mem).imp_right fun reads => ?_
    obtain ⟨other, rfl, inside⟩ := reads
    have before := earlier other (Work.awaits_of_reads begun mem List.mem_cons_self)
    have within : world.tasks.length + index < next.tasks.length := by
      rw [same, length_tasksAfter]
      exact Nat.add_lt_add_left (List.getElem?_eq_some_iff.mp started).1 _
    refine ⟨other, rfl, frame, ?_, Frame.registersBefore sorted inside before⟩
    exact ⟨world, next, reaches, stepped, .refl, ⟨Nat.le_add_right _ _, within⟩, task, work,
      change, there, begins, same⟩

theorem Follows.move (follows : start.Follows machine world parent)
    (reaches : start.Reaches machine world) (stepped : world.step? machine = some next)
    {task : Nat} {work : Work} {change : Change} (there : world.tasks[task]? = some work)
    (moves : Moves machine world work change) (same : next.tasks = world.tasksAfter task change) :
    start.Follows machine next (adopt parent world.tasks.length task) := by
  have below : task < world.tasks.length := (List.getElem?_eq_some_iff.mp there).1
  obtain ⟨awaits, framed, asks⟩ := follows.heeds task work there
  have kept := moves.keeps asks awaits framed (fun _ => Or.inl) (fun _ owned => owned.1)
  have length : next.tasks.length = world.tasks.length + change.started.length := by
    rw [same, length_tasksAfter]
  refine ⟨length ▸ Nat.add_pos_left follows.begun _, adopt_le follows.parents below,
    forall_tasksAfter same (fun _ _ heeds => heeds.meet) ?_ ?_ ?_⟩
  · exact ⟨fun another mem => .moved length below (kept.awaits another mem),
      kept.framed.mono fun another => .moved length, kept.asks.mono fun _ may => may.step stepped⟩
  · intro other work stays
    have before := (List.getElem?_eq_some_iff.mp stays).1
    obtain ⟨awaits, framed, asks⟩ := follows.heeds other work stays
    exact ⟨fun another mem => .stays length before (awaits another mem),
      framed.mono fun another => .stays length, asks.mono fun _ may => may.step stepped⟩
  · intro index work started
    have inside := (List.getElem?_eq_some_iff.mp started).1
    obtain ⟨waits, bodies⟩ := kept.started index work started
    refine ⟨fun another mem => .started length inside (waits another mem), fun body mem => ?_, ?_⟩
    · rw [bodies] at mem
      cases mem
    · exact asks_started reaches stepped there moves same framed started fun another mem =>
        (waits another mem).2

/-- All worlds that a run comes to follow from its start. -/
theorem reaches_follows {routine : Routine} {argument : Value}
    (reaches : (World.start routine argument).Reaches machine world) :
    ∃ parent, (World.start routine argument).Follows machine world parent := by
  induction reaches with
  | refl => exact ⟨_, start_follows machine routine argument⟩
  | tail reaches stepped ih =>
      obtain ⟨parent, follows⟩ := ih
      cases step?_goes stepped with
      | tick _ _ same => exact ⟨parent, follows.tick stepped same⟩
      | move there moves _ same => exact ⟨_, follows.move reaches stepped there moves same⟩

/-- All works of a run are of a kind if what it begins with is, if moves keep to it, and if what is
of that kind stays so as its defect is met. -/
theorem Reaches.works {routine : Routine} {argument : Value} {kind : Work → Prop}
    (reaches : (World.start routine argument).Reaches machine world)
    (begins : kind (enter routine argument).work) (meets : ∀ work, kind work → kind work.meet)
    (moves : ∀ {world : World} {parent : Nat → Nat} {task : TaskId} {work : Work} {change : Change},
      (World.start routine argument).Follows machine world parent →
      (∀ (task : TaskId) (work : Work), world.tasks[task]? = some work → kind work) →
      world.tasks[task]? = some work → Moves machine world work change →
        kind change.work ∧ ∀ started ∈ change.started, kind started) :
    ∀ (task : TaskId) (work : Work), world.tasks[task]? = some work → kind work := by
  induction reaches with
  | refl =>
      intro task work there
      cases task with
      | zero =>
          obtain rfl := Option.some.inj there
          exact begins
      | succ task => cases there
  | tail reaches stepped ih =>
      obtain ⟨parent, follows⟩ := reaches_follows reaches
      cases step?_goes stepped with
      | tick _ _ same => exact fun task work there => ih task work (same ▸ there)
      | move there moved _ same =>
          obtain ⟨kept, started⟩ := moves follows ih there moved
          exact forall_tasksAfter same (fun _ => meets) kept ih fun _ work begun =>
            started work (List.mem_of_getElem? begun)

end World

end Runbook
