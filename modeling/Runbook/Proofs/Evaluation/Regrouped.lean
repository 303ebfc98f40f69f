import Runbook.Proofs.Evaluation.Readback
import Runbook.Registry.Rehearsal

/-!
A group that is bound and read back is what it was.

Steps that are performed together may as well be bound to names, and the names be read: in whatever
order tasks have their turns, the run ends in the same ways, at the same moments.
-/
namespace Runbook

namespace SetUp

variable {registry : Registry} {before middle after : State} {defect : Defect}

theorem setUpAll_length (setting : Setting) {steps : List Step} {works : List Work}
    (gives : (setUpAll registry setting steps).Gives before works after) :
    works.length = steps.length := by
  induction steps generalizing before works with
  | nil =>
      cases gives
      rfl
  | cons step steps ih =>
      rw [setUpAll] at gives
      obtain ⟨work, _, first, gives⟩ := gives_bind_iff.mp gives
      obtain ⟨others, _, rest, gives⟩ := gives_bind_iff.mp gives
      cases gives
      rw [List.length_cons, List.length_cons, ih rest]

/-- Setting up leaves no binding that has not been asked for. -/
theorem setUpAll_settled (setting : Setting) {steps : List Step} {works : List Work}
    {given : List Binding} (fixed : Given given) (same : before.frame = ⟨given⟩)
    (gives : (setUpAll registry setting steps).Gives before works after) :
    ∀ binding ∈ after.frame.bindings, binding.unobserved? = none := by
  obtain ⟨started, sets, _⟩ := setUpAll_makes setting steps gives
  obtain ⟨deeds, _, settles, done⟩ := sets.deeds
  obtain ⟨more, all, settled⟩ := Frame.performAll_given fixed settles
    (List.forall_mem_nil fun binding : Binding => binding.unobserved? = none)
  rw [List.append_nil] at all
  rw [done, same, all]
  refine List.forall_mem_append.mpr ⟨fun binding inside => ?_, settled⟩
  obtain ⟨name, value, rfl⟩ := fixed binding inside
  rfl

section
variable {base : Frame} {names : List Name} {task next : TaskId} {started : List Work}
  {events : List Event}

/-- A name of a group is read from its task. -/
theorem gives_reading {name : Name} (inside : name ∈ names) (observed : Bool) :
    (read name).Gives ⟨base.add (.started names task observed), next, started, events⟩
      (Work.reading task names name)
      ⟨base.add (.started names task true), next, started, events⟩ := by
  obtain ⟨place, placed, same⟩ := Work.reading_of_mem task inside
  have placed : placeOf? name (Binding.started names task observed).names = some place := placed
  have found : (base.add (.started names task observed)).find? name =
      some ⟨.started names task observed, place⟩ := by
    rw [Frame.find?_add, placed]
  have observes : (base.add (.started names task observed)).observe name =
      base.add (.started names task true) := by
    rw [Frame.observe_add]
    exact if_pos inside
  rw [← observes, same]
  exact gives_read found

/-- Names of a group are all read from its task. -/
theorem gives_readings (setting : Setting) {some : List Name} (inside : some ⊆ names)
    (observed : Bool) :
    (setUpAll registry setting (some.map .read)).Gives
      ⟨base.add (.started names task observed), next, started, events⟩
      (some.map (Work.reading task names))
      ⟨base.add (.started names task (observed || !some.isEmpty)), next, started, events⟩ := by
  induction some generalizing observed with
  | nil =>
      rw [List.isEmpty_nil, Bool.not_true, Bool.or_false]
      exact gives_pure _
  | cons name some ih =>
      obtain ⟨here, inside⟩ := List.cons_subset.mp inside
      have rest := ih inside true
      rw [Bool.true_or] at rest
      rw [List.map_cons, setUpAll, List.isEmpty_cons, Bool.not_false, Bool.or_true]
      exact (gives_reading here observed).bind (rest.bind (gives_pure _))

end

section
variable {setting : Setting} {steps : List Step} {names : List Name} {frame : Frame}
  {next : TaskId} {index : Nat} {isLast : Bool} {works : List Work}

/-- Steps that are performed together are the entry, or are bound by it. -/
theorem gives_tuple (gives : (setUpAll registry setting steps).Gives
      ⟨frame, next, [], [.starting index setting]⟩ works after) :
    (setUpEntry registry index isLast ⟨setting, .tuple steps⟩).Gives ⟨frame, next, [], []⟩
      (.gather .results works) after :=
  (gives_report _).bind (gives.bind (gives_pure _))

theorem gives_group (gives : (setUpAll registry setting steps).Gives
      ⟨frame, next, [], [.starting index setting, .binding names setting]⟩ works after) :
    (setUpEntry registry index false ⟨setting, .bind names (.tuple steps)⟩).Gives
      ⟨frame, next, [], []⟩ (.done (.ok .unit))
      { after with
        next := after.next + 1
        started := after.started ++ [.fresh (.gather .results works)]
        frame := after.frame.add (.started names after.next false) } := by
  have tuple : (setUp registry setting (.tuple steps)).Gives
      ⟨frame, next, [], [.starting index setting, .binding names setting]⟩
      (.gather .results works) after := gives.bind (gives_pure _)
  exact (gives_report _).bind ((gives_report _).bind (tuple.bind
    ((gives_bind names false _).bind (gives_pure _))))

theorem breaks_tuple (breaks : (setUpAll registry setting steps).Breaks
      ⟨frame, next, [], [.starting index setting]⟩ defect after) :
    (setUpEntry registry index isLast ⟨setting, .tuple steps⟩).Breaks ⟨frame, next, [], []⟩ defect
      after :=
  (gives_report _).breaks (breaks.bind _)

theorem breaks_group (breaks : (setUpAll registry setting steps).Breaks
      ⟨frame, next, [], [.starting index setting, .binding names setting]⟩ defect after) :
    (setUpEntry registry index isLast ⟨setting, .bind names (.tuple steps)⟩).Breaks
      ⟨frame, next, [], []⟩ defect after :=
  (gives_report _).breaks ((gives_report _).breaks ((breaks.bind _).bind _))

end

end SetUp

/-- An entry that reads a group: what the run has then still to do, and what it makes of the value of
the group. -/
def Entry.Reads (entry : Entry) (machine : Machine) (names : List Name)
    (readout : Outcome → Outcome) : Prop :=
  ∀ (task : TaskId) (base : Frame), 0 < task →
    (∀ binding ∈ base.bindings, binding.unobserved? = none) →
    ∃ group : Group, group.machine = machine ∧ group.task = task ∧ group.size = names.length ∧
      group.readout = readout ∧ ∃ count,
        (Work.body (base.add (.started names task false)) (.done (.ok .unit)) 1 [entry]).Fated machine
          (fun _ => True) (· = group.reader) count

namespace Entry.Reads

variable (machine : Machine) (setting : Setting) {names : List Name}

theorem asked {base : Frame} {task : TaskId}
    (settled : ∀ binding ∈ base.bindings, binding.unobserved? = none) :
    (base.add (.started names task true)).unobserved = [] := by
  rw [Frame.unobserved, Frame.add, List.filterMap_eq_nil_iff]
  exact List.forall_mem_append.mpr ⟨settled, List.forall_mem_singleton.mpr rfl⟩

theorem left {base : Frame} {task : TaskId}
    (settled : ∀ binding ∈ base.bindings, binding.unobserved? = none) :
    (base.add (.started names task false)).unobserved = [(task, names.length)] := by
  rw [Frame.unobserved, Frame.add, List.filterMap_append, List.filterMap_eq_nil_iff.mpr settled]
  rfl

/-- The names of a group are read together. -/
theorem together (distinct : names.Nodup) :
    Entry.Reads ⟨setting, .tuple (names.map .read)⟩ machine names id := by
  intro task base bound settled
  have begins (world : World) : machine.begin world.tasks.length
      (base.add (.started names task false)) 1 ⟨setting, .tuple (names.map .read)⟩ [] =
      ⟨.body (base.add (.started names task (false || !names.isEmpty)))
        (.gather .results (names.map (Work.reading task names))) 2 [], [], [.starting 1 setting],
        none⟩ := by
    have reads : (setUpEntry machine.registry 1 true ⟨setting, .tuple (names.map .read)⟩).Gives
        ⟨base.add (.started names task false), world.tasks.length, [], []⟩ _ _ :=
      (SetUp.gives_report _).bind
        ((SetUp.gives_readings setting (List.Subset.refl names) false).bind (SetUp.gives_pure _))
    exact Machine.begin_gives reads
  by_cases some : names = []
  · subst some
    refine ⟨.empty machine bound, rfl, rfl, rfl, rfl, 3, .step fun world _ =>
      ⟨_, rfl, by rw [begins], ?_⟩⟩
    rw [begins]
    refine .step fun world _ => ⟨_, rfl, rfl, .step fun world _ => ⟨_, rfl, rfl, ?_⟩⟩
    have waits : (base.add (.started [] task false)).unobserved = [(task, 0)] := left settled
    change Work.settle (base.add (.started [] task false)).unobserved .unit = .settle [(task, 0)] .unit
    rw [waits]
  · have asked : (base.add (.started names task true)).unobserved = [] := asked settled
    refine ⟨.together machine bound asked distinct some, rfl, rfl, rfl, rfl, 1,
      .step fun world _ => ⟨_, rfl, by rw [begins], ?_⟩⟩
    rw [begins, List.isEmpty_eq_false_iff.mpr some]
    rfl

/-- One name of a group is read. -/
theorem single (distinct : names.Nodup) (place : Fin names.length) :
    Entry.Reads ⟨setting, .read (names.get place)⟩ machine names (Outcome.part place) := by
  intro task base bound settled
  have placed := placeOf?_get distinct place
  have begins (world : World) : machine.begin world.tasks.length
      (base.add (.started names task false)) 1 ⟨setting, .read (names.get place)⟩ [] =
      ⟨.body (base.add (.started names task true)) (Work.reading task names (names.get place)) 2 [],
        [], [.starting 1 setting], none⟩ := by
    have read : (setUpEntry machine.registry 1 true ⟨setting, .read (names.get place)⟩).Gives
        ⟨base.add (.started names task false), world.tasks.length, [], []⟩ _ _ :=
      (SetUp.gives_report _).bind (SetUp.gives_reading (List.get_mem names place) false)
    exact Machine.begin_gives read
  have asked : (base.add (.started names task true)).unobserved = [] := asked settled
  refine ⟨.single machine bound asked placed, rfl, rfl, rfl, rfl, 1,
    .step fun world _ => ⟨_, rfl, by rw [begins], ?_⟩⟩
  rw [begins]
  rfl

end Entry.Reads

namespace World

variable {machine : Machine} {given : List Binding} {next : World}

/-- A run that opens begins its first entry. -/
theorem Next.opening {entry : Entry} {entries : List Entry} {log : List Logged}
    (step : Next machine (.opening given (entry :: entries) log) next) :
    next.clock = 0 ∧ next.tasks = (World.opening given (entry :: entries) log).tasksAfter 0
      (machine.begin 1 ⟨given⟩ 0 entry entries) := by
  have there : (World.opening given (entry :: entries) log).tasks[0]? =
      some (.body ⟨given⟩ (.done (.ok .unit)) 0 (entry :: entries)) := rfl
  obtain ⟨clock, here | ⟨other, _, differs, moved, _⟩⟩ := step.elsewhere there rfl
  · exact ⟨clock, here⟩
  · cases other with
    | zero => exact absurd rfl differs
    | succ other => cases moved

theorem opening_goes (entry : Entry) (entries : List Entry) (log : List Logged) :
    ∃ next, Next machine (.opening given (entry :: entries) log) next := by
  have moved : machine.stepTask? (.opening given (entry :: entries) log) 0 =
      some (machine.begin 1 ⟨given⟩ 0 entry entries) := rfl
  exact ⟨⟨0, _, [], []⟩, .move moved rfl rfl⟩

variable {names : List Name} {steps : List Step} {entry : Entry} {readout : Outcome → Outcome}
  {setting : Setting}

/-- All that two runs start in their first moves is paired, but for what one starts last. -/
theorem Shared.of_grown {world world' next next' : World} {pairs : Pairing}
    {started started' : List Work} {one other last : Work} (single : world.tasks.length = 1)
    (single' : world'.tasks.length = 1)
    (grown : (world.ground Comparison.everything [] world').Grown pairs started started')
    (tasks : next.tasks = one :: started) (tasks' : next'.tasks = other :: (started' ++ [last]))
    (clock : next'.clock = next.clock) :
    next.Shared pairs [0] [0, 1 + started'.length] next' := by
  have fresh {pair : Nat × Nat} (inside : pair ∈ pairs) : 1 ≤ pair.1 ∧ 1 ≤ pair.2 := by
    rcases grown.fresh pair inside with known | fresh
    · cases known
    · have above : world.tasks.length ≤ pair.1 ∧ world'.tasks.length ≤ pair.2 := fresh
      rw [single, single'] at above
      exact above
  have below {pair : Nat × Nat} (inside : pair ∈ pairs) :
      pair.1 < 1 + started.length ∧ pair.2 < 1 + started'.length := by
    have below := grown.below inside
    rw [List.length_append, List.length_append] at below
    change _ < world.tasks.length + _ ∧ _ < world'.tasks.length + _ at below
    rw [single, single'] at below
    exact below
  have later {task : Nat} {tasks started : List Work} {work found : Work} (length : tasks.length = 1)
      (above : 1 ≤ task) (there : (tasks ++ started)[task]? = some found) :
      (work :: started)[task]? = some found := by
    obtain ⟨first, rfl⟩ := List.length_eq_one_iff.mp length
    cases task with
    | zero => cases above
    | succ task => exact there
  refine ⟨clock, paired_of grown.ordered fun pair inside => ?_, fun task => ⟨fun inside => ?_,
    fun found => ?_⟩, fun task => ⟨fun inside => ?_, fun found => ?_⟩, ?_, ?_⟩
  · obtain ⟨work, work', there, there', alike⟩ := grown.works pair inside
    refine ⟨work, work', tasks ▸ later single (fresh inside).1 there, ?_, alike⟩
    have there' : (other :: started')[pair.2]? = some work' := later single' (fresh inside).2 there'
    rw [tasks', ← List.cons_append]
    rw [List.getElem?_append_left (List.getElem?_eq_some_iff.mp there').1]
    exact there'
  · obtain ⟨_, inside⟩ := Pairing.mem_lefts.mp inside
    rw [tasks, List.length_cons, Nat.add_comm, List.mem_singleton]
    exact ⟨(below inside).1, Nat.ne_of_gt (fresh inside).1⟩
  · rw [tasks, List.length_cons, Nat.add_comm, List.mem_singleton] at found
    refine Pairing.mem_lefts.mpr (grown.whole₁ task ?_ ⟨trivial, ?_⟩)
    · rw [List.length_append]
      change _ < world.tasks.length + _
      rw [single]
      exact found.1
    · rw [single]
      exact Nat.pos_of_ne_zero found.2
  · obtain ⟨_, inside⟩ := Pairing.mem_rights.mp inside
    rw [tasks', List.length_cons, List.length_append, List.length_singleton]
    simp only [List.mem_cons, List.not_mem_nil, or_false, not_or]
    have low := fresh inside
    have high := below inside
    omega
  · rw [tasks', List.length_cons, List.length_append, List.length_singleton] at found
    simp only [List.mem_cons, List.not_mem_nil, or_false, not_or] at found
    refine Pairing.mem_rights.mpr (grown.whole₂ task ?_ ⟨trivial, ?_⟩)
    · rw [List.length_append]
      change _ < world'.tasks.length + _
      omega
    · omega
  · rw [tasks]
    exact List.forall_mem_singleton.mpr (Nat.succ_pos _)
  · intro task own
    rw [List.mem_cons, List.mem_singleton] at own
    rw [tasks', List.length_cons, List.length_append, List.length_singleton]
    rcases own with rfl | rfl
    · exact Nat.succ_pos _
    · rw [Nat.add_comm]
      exact Nat.lt_succ_self _

/-- After their first moves, the run that has bound the steps is before what reads their values, and
the plain run before having them; or both have broken down. -/
theorem opening_regrouped (setting : Setting) (log : List Logged) (fixed : Given given)
    (reads : entry.Reads machine names readout) (size : names.length = steps.length) :
    (∃ group : Group, group.machine = machine ∧ group.readout = readout ∧ ∀ {plain bound : World},
        Next machine (.opening given [⟨setting, .tuple steps⟩] log) plain →
        Next machine (.opening given [⟨setting, .bind names (.tuple steps)⟩, entry] log) bound →
        ∃ pairs frame ones others count, group.Before pairs frame ones others count plain bound) ∨
      ∃ defect defect', ∀ {plain bound : World},
        Next machine (.opening given [⟨setting, .tuple steps⟩] log) plain →
        Next machine (.opening given [⟨setting, .bind names (.tuple steps)⟩, entry] log) bound →
        plain.outcome? = some (.error defect) ∧ bound.outcome? = some (.error defect') := by
  let first : SetUp.State := ⟨⟨given⟩, 1, [], [.starting 0 setting]⟩
  let second : SetUp.State := ⟨⟨given⟩, 1, [], [.starting 0 setting, .binding names setting]⟩
  have alike : SetUp.State.Alike
      (World.ground Comparison.everything [] (.opening given [⟨setting, .tuple steps⟩] log)
        (.opening given [⟨setting, .bind names (.tuple steps)⟩, entry] log))
      (fun _ => True) (stepsMentions steps ++ []) [] first second := by
    obtain ⟨own, frames⟩ := @BindingsAlike.of_given [] (fun _ => True) _ fixed
    exact ⟨⟨_, own, fun _ => id, Seen.of_reads fun _ _ => trivial, frames⟩, rfl, rfl,
      World.paired_of .nil nofun, rfl⟩
  obtain ⟨pairs, result, after, result', after', _, run, run', grown, _, same⟩ :=
    @SetUp.setUpAll_agree _ _ machine.registry setting steps _ _ _ _ alike
  cases result with
  | error defect =>
      cases result' with
      | ok members' => exact same.elim
      | error defect' =>
          refine .inr ⟨defect, defect', fun step step' => ⟨?_, ?_⟩⟩
          · obtain ⟨_, same⟩ := step.opening
            rw [Machine.begin_breaks (SetUp.breaks_tuple run)] at same
            rw [outcome?, same]
            rfl
          · obtain ⟨_, same⟩ := step'.opening
            rw [Machine.begin_breaks (SetUp.breaks_group run')] at same
            rw [outcome?, same]
            rfl
  | ok members =>
      cases result' with
      | error defect' => exact same.elim
      | ok members' =>
          obtain ⟨states, alike⟩ := same
          have gives : (setUpAll machine.registry setting steps).Gives first members after := run
          have gives' : (setUpAll machine.registry setting steps).Gives second members' after' := run'
          have next : after'.next = 1 + after'.started.length := by
            rw [states.next₂, List.length_append]
            rfl
          obtain ⟨group, rfl, task, sized, rfl, count, fated⟩ := reads after'.next after'.frame
            (next ▸ Nat.lt_add_right _ Nat.one_pos) (SetUp.setUpAll_settled setting fixed rfl gives')
          refine .inl ⟨group, rfl, rfl, fun {plain bound} step step' => ?_⟩
          obtain ⟨clock, tasks⟩ := step.opening
          obtain ⟨clock', tasks'⟩ := step'.opening
          have begun : group.machine.begin 1 ⟨given⟩ 0 ⟨setting, .tuple steps⟩ [] = _ :=
            Machine.begin_gives (SetUp.gives_tuple gives)
          have begun' : group.machine.begin 1 ⟨given⟩ 0
              ⟨setting, .bind names (.tuple steps)⟩ [entry] = _ :=
            Machine.begin_gives (SetUp.gives_group gives')
          rw [begun] at tasks
          rw [begun'] at tasks'
          have shared := Shared.of_grown rfl rfl grown tasks tasks' (clock'.trans clock.symm)
          rw [← next, ← task] at shared
          refine ⟨pairs, after.frame, members, members', count + 1, shared, ?_, alike, ?_, ?_, _,
            count, ?_, fated, .inr ⟨rfl, ?_⟩⟩
          · rw [sized, size]
            exact SetUp.setUpAll_length setting gives
          · exact List.filterMap_eq_nil_iff.mpr (SetUp.setUpAll_settled setting fixed rfl gives)
          · rw [tasks]
            rfl
          · rw [tasks']
            rfl
          · rw [tasks', task, next, Nat.add_comm]
            exact List.getElem?_concat_length

/-- While its only entry gathers values, a run may come to what these make, once all are there, or
to a failure. -/
theorem May.gathers {frame : Frame} {members : List Work} {ends : Outcome → Nat → Prop}
    {world : World} (may : May machine ends world) (asked : frame.unobserved = [])
    (there : world.tasks[0]? = some (.body frame (.gather .results members) 1 [])) :
    (∃ last values, Relation.ReflTransGen (Next machine) world last ∧
        last.tasks[0]? = some (.body frame (.gather .results (values.map fun value =>
          .done (.ok value))) 1 []) ∧
        values.length = members.length ∧ ends (.ok (.ofResults values)) last.clock) ∨
      ∃ failure moment, ends (.error failure) moment := by
  induction may generalizing members with
  | now done _ => cases (outcome?_eq_none there rfl).symm.trans done
  | @later world next going step rest ih =>
      have continues {members' : List Work} (size : members'.length = members.length)
          (now : next.tasks[0]? = some (.body frame (.gather .results members') 1 [])) :
          (∃ last values, Relation.ReflTransGen (Next machine) world last ∧
              last.tasks[0]? = some (.body frame (.gather .results (values.map fun value =>
                .done (.ok value))) 1 []) ∧
              values.length = members.length ∧ ends (.ok (.ofResults values)) last.clock) ∨
            ∃ failure moment, ends (.error failure) moment := by
        refine (ih now).imp_left fun found => ?_
        obtain ⟨last, values, reaches, stands, sized, as⟩ := found
        exact ⟨last, values, .head step reaches, stands, sized.trans size, as⟩
      cases step with
      | tick _ _ same => exact continues rfl (same ▸ there)
      | @move task change moved clock same =>
          by_cases own : task = 0
          · subst own
            rw [Machine.stepTask?, there, Option.bind_some, Machine.step?_body frame 1 [] rfl] at moved
            obtain ⟨inner, first, rfl⟩ := Option.map_eq_some_iff.mp moved
            have main : next.tasks[0]? = some (.body frame inner.work 1 []) := by
              obtain ⟨later, now, rfl | rfl⟩ := getElem?_after_moved same there
              · exact now
              · exact now
            rcases (Machine.step?_moves _ first).gathers with ⟨later, gathers, size⟩ | ⟨_, found⟩
            · rw [gathers] at main
              exact continues size main
            · obtain ⟨verdict, concludes, values⟩ := found
              have fated : (Work.body frame inner.work 1 []).Fated machine (fun _ => True)
                  (Work.Concludes verdict) 2 := concludes.body asked
              obtain ⟨outcome, rfl, as⟩ := rest.of_fated main fated trivial fun _ _ => trivial
              cases outcome with
              | error failure => exact .inr ⟨failure, _, as⟩
              | ok value =>
                  obtain ⟨collected, all, same⟩ := values value rfl
                  refine .inl ⟨world, collected, .refl, ?_, ?_, ?_⟩
                  · rw [there, all]
                  · rw [all, List.length_map]
                  · rw [same, clock] at as
                    exact as
          · exact continues rfl (getElem?_stays (Ne.symm own) same there rfl)

end World

namespace Routine

/-- In some order of turns, the steps that the only entry performs together have these values at a
moment. -/
def Gathers (routine : Routine) (registry : Registry) (argument : Value) (values : List Value)
    (moment : Nat) : Prop :=
  ∃ world frame, Relation.ReflTransGen (World.Next ⟨registry, routine.library⟩)
      (World.start routine argument) world ∧ world.clock = moment ∧
    world.tasks[0]? = some (.body frame (.gather .results (values.map fun value =>
      .done (.ok value))) 1 [])

variable {routine : Routine} {registry : Registry} {argument : Value} {setting : Setting}
  {names : List Name} {steps : List Step} {entry : Entry} {readout : Outcome → Outcome}
  {ends : Outcome → Nat → Prop}

/-- Steps that are bound to names and read back end as those that are performed together, but for
what is read. -/
theorem ends_regrouped (reads : entry.Reads ⟨registry, routine.library⟩ names readout)
    (fails : ∀ failure, readout (.error failure) = .error failure)
    (size : names.length = steps.length) :
    ((routine.running [⟨setting, .tuple steps⟩]).May registry argument
        (fun outcome moment => ends (readout outcome) moment) ↔
      (routine.running [⟨setting, .bind names (.tuple steps)⟩, entry]).May registry argument ends) ∧
    ((routine.running [⟨setting, .tuple steps⟩]).Must registry argument
        (fun outcome moment => ends (readout outcome) moment) ↔
      (routine.running [⟨setting, .bind names (.tuple steps)⟩, entry]).Must registry argument
        ends) := by
  obtain ⟨log, _, ⟨given, fixed, opens⟩ | ⟨failure, begins⟩⟩ := start_running routine argument
  · rw [May, May, Must, Must, opens, opens]
    refine World.after_next rfl rfl (World.opening_goes _ _ _) (World.opening_goes _ _ _)
      fun step step' => ?_
    have opens := World.opening_regrouped setting log fixed reads size
    rcases opens with ⟨group, machine, rfl, before⟩ | broken
    · obtain ⟨pairs, frame, ones, others, count, before⟩ := before step step'
      change (World.May ⟨registry, routine.library⟩ _ _ ↔ World.May ⟨registry, routine.library⟩ _ _) ∧
        (World.Must ⟨registry, routine.library⟩ _ _ ↔ World.Must ⟨registry, routine.library⟩ _ _)
      rw [← machine]
      exact ⟨⟨before.may_bound, before.may_plain⟩, before.must_bound, before.must_plain⟩
    · obtain ⟨defect, defect', broken⟩ := broken
      obtain ⟨plain, bound⟩ := broken step step'
      rw [World.may_iff_of_outcome? plain, World.may_iff_of_outcome? bound,
        World.must_iff_of_outcome? plain, World.must_iff_of_outcome? bound]
      exact ⟨⟨nofun, nofun⟩, nofun, nofun⟩
  · rw [May, May, Must, Must, begins, begins]
    have ended : World.outcome? ⟨0, [.done (.error failure)], [0], log⟩ =
        some (.ok (.error failure)) := rfl
    rw [World.may_iff_of_outcome? ended, World.may_iff_of_outcome? ended,
      World.must_iff_of_outcome? ended, World.must_iff_of_outcome? ended]
    have same : (∃ outcome, (Except.ok (.error failure) : Except Defect Outcome) = .ok outcome ∧
          ends (readout outcome) 0) ↔
        ∃ outcome, (Except.ok (.error failure) : Except Defect Outcome) = .ok outcome ∧
          ends outcome 0 := by
      constructor
      · rintro ⟨_, ⟨⟩, as⟩
        exact ⟨_, rfl, fails failure ▸ as⟩
      · rintro ⟨_, ⟨⟩, as⟩
        exact ⟨_, rfl, (fails failure).symm ▸ as⟩
    exact ⟨same, same⟩

/-- A value that steps performed together may come to is made of values that they all have then. -/
theorem gathers_of_may {value : Value} {moment : Nat}
    (may : (routine.running [⟨setting, .tuple steps⟩]).May registry argument
      fun outcome time => outcome = .ok value ∧ time = moment) :
    ∃ values : List Value, values.length = steps.length ∧ value = .ofResults values ∧
      (routine.running [⟨setting, .tuple steps⟩]).Gathers registry argument values moment := by
  obtain ⟨log, _, ⟨given, fixed, opens⟩ | ⟨failure, begins⟩⟩ := start_running routine argument
  · rw [May, opens] at may
    cases may with
    | now done _ => cases done
    | @later _ next _ step rest =>
        obtain ⟨_, tasks⟩ := step.opening
        cases run : (setUpAll registry setting steps).run.run
            ⟨⟨given⟩, 1, [], [.starting 0 setting]⟩ with
        | mk result after =>
            cases result with
            | error defect =>
                have breaks : (setUpAll registry setting steps).Breaks
                  ⟨⟨given⟩, 1, [], [.starting 0 setting]⟩ defect after := run
                rw [Machine.begin_breaks (SetUp.breaks_tuple breaks)] at tasks
                have broken : next.outcome? = some (.error defect) := by
                  rw [World.outcome?, tasks]
                  rfl
                obtain ⟨_, same, _⟩ := (World.may_iff_of_outcome? broken).mp rest
                cases same
            | ok members =>
                have gives : (setUpAll registry setting steps).Gives
                  ⟨⟨given⟩, 1, [], [.starting 0 setting]⟩ members after := run
                have begun : Machine.begin ⟨registry, routine.library⟩ 1 ⟨given⟩ 0
                    ⟨setting, .tuple steps⟩ [] = _ := Machine.begin_gives (SetUp.gives_tuple gives)
                replace tasks := tasks.trans (congrArg (World.tasksAfter _ 0) begun)
                have asked : after.frame.unobserved = [] := List.filterMap_eq_nil_iff.mpr
                  (SetUp.setUpAll_settled setting fixed rfl gives)
                rcases rest.gathers asked (by rw [tasks]; rfl) with found | ⟨_, _, same, _⟩
                · obtain ⟨last, values, reaches, stands, size, same, clock⟩ := found
                  refine ⟨values, size.trans (SetUp.setUpAll_length setting gives),
                    (Except.ok.inj same).symm, last, after.frame, ?_, clock, stands⟩
                  rw [opens]
                  exact .head step reaches
                · cases same
  · rw [May, begins, World.may_iff_of_outcome? rfl] at may
    obtain ⟨outcome, ended, same, _⟩ := may
    cases ended
    cases same

/-- Binding a group and reading it back is the identity, but for whose turn it is. The steps may be
bound to different names and these read together, or one alone: in some order of turns, such a run
comes to an outcome at a moment, if and only if steps performed together do without names, and in
each order, if and only if these do. What is read of one name is the value of its step. So a run
ends as they do, when and how they end does not depend on whose turn it is. No value of the group
is lost when a few become one, and a routine that gets no argument has a value for each of its
parameters. -/
theorem bound_group (routine : Routine) (registry : Registry) (argument : Value)
    (setting setting' : Setting) (names : List Name) (steps : List Step) (distinct : names.Nodup)
    (size : names.length = steps.length) :
    let plain := routine.running [⟨setting, .tuple steps⟩]
    let bound (read : Step) :=
      routine.running [⟨setting, .bind names (.tuple steps)⟩, ⟨setting', read⟩]
    let all := bound (.tuple (names.map .read))
    let one (place : Fin names.length) := bound (.read (names.get place))
    (∀ ends, (all.May registry argument ends ↔ plain.May registry argument ends) ∧
      (all.Must registry argument ends ↔ plain.Must registry argument ends)) ∧
    (∀ place ends, ((one place).May registry argument ends ↔
        plain.May registry argument fun outcome moment => ends (outcome.part place) moment) ∧
      ((one place).Must registry argument ends ↔
        plain.Must registry argument fun outcome moment => ends (outcome.part place) moment)) ∧
    (∀ value moment, (plain.May registry argument fun outcome time =>
        outcome = .ok value ∧ time = moment) →
      ∃ (values : List Value) (sized : values.length = names.length),
        plain.Gathers registry argument values moment ∧ value = .ofResults values ∧
        ∀ place : Fin names.length,
          Outcome.part place (.ok value) = .ok (values.get (place.cast sized.symm))) ∧
    (∀ drain fuel report, all.perform? registry argument drain fuel = some (.ok report) →
      plain.May registry argument fun outcome moment =>
        outcome = report.outcome ∧ moment = report.elapsed) ∧
    (∀ ends, plain.Must registry argument ends → ∀ drain, ∃ fuel report,
      all.perform? registry argument drain fuel = some (.ok report) ∧
        ends report.outcome report.elapsed) ∧
    (∀ values : List Value, (Value.ofResults values).split values.length = .ok ⟨values, rfl⟩) ∧
    (∀ value count values, Value.split value count = .ok values →
      Value.ofResults values.val = value ∨ value = .parallel [] ∧ count = 0) ∧
    ∃ frame, (enter routine routine.defaultArgument).work =
      .body frame (.done (.ok .unit)) 0 routine.sequence := by
  intro plain bound all one
  have together (ends : Outcome → Nat → Prop) :=
    @ends_regrouped routine registry argument setting names steps _ _ ends
      (Entry.Reads.together ⟨registry, routine.library⟩ setting' distinct) (fun _ => rfl) size
  have single (place : Fin names.length) (ends : Outcome → Nat → Prop) :=
    @ends_regrouped routine registry argument setting names steps _ _ ends
      (Entry.Reads.single ⟨registry, routine.library⟩ setting' distinct place) (fun _ => rfl) size
  refine ⟨fun ends => ⟨(together ends).1.symm, (together ends).2.symm⟩,
    fun place ends => ⟨(single place ends).1.symm, (single place ends).2.symm⟩, ?_, ?_, ?_,
    fun values => Value.split_ofResults rfl, fun _ _ _ => Value.ofResults_split, ?_⟩
  · intro value moment may
    obtain ⟨values, sized, rfl, gathers⟩ := gathers_of_may may
    have sized := sized.trans size.symm
    exact ⟨values, sized, gathers, rfl, fun place => Outcome.part_ofResults place sized⟩
  · intro drain fuel report performed
    exact (together _).1.mpr (may_of_perform? performed)
  · intro ends must drain
    exact ((together ends).2.mp must).perform? drain
  · rw [enter]
    split
    · exact ⟨_, rfl⟩
    · have parts : routine.defaultArgument.split routine.parameters.length =
          .ok ⟨routine.parameters.map fun _ => .unit, List.length_map _⟩ :=
        Value.split_ofResults (List.length_map _)
      simp only [parts]
      exact ⟨_, rfl⟩

end Routine

/-- Names of a group. -/
def Name.cup : Name := ⟨0, "cup"⟩

def Name.pot : Name := ⟨1, "pot"⟩

theorem Routine.bound_group_serving :
    let plain := Routine.serving.running [⟨.inherit, .tuple [.nap, .read ⟨0, "x"⟩]⟩]
    let bound (read : Step) := Routine.serving.running
      [⟨.inherit, .bind [.cup, .pot] (.tuple [.nap, .read ⟨0, "x"⟩])⟩, ⟨.inherit, read⟩]
    [Name.cup, Name.pot].Nodup ∧
    (∃ report, (bound (.tuple [.read .cup, .read .pot])).perform? .standard (.text "tea") 0 40 =
        some (.ok report) ∧ report.outcome = .ok (.parallel [.unit, .text "tea"]) ∧
      report.elapsed = 5 ∧ plain.May .standard (.text "tea") fun outcome moment =>
        outcome = report.outcome ∧ moment = report.elapsed) ∧
    (bound (.read .pot)).May .standard (.text "tea") fun outcome moment =>
      outcome = .ok (.text "tea") ∧ moment = 5 := by
  have performs : ∃ report, (Routine.serving.running
      [⟨.inherit, .bind [.cup, .pot] (.tuple [.nap, .read ⟨0, "x"⟩])⟩,
        ⟨.inherit, .tuple [.read .cup, .read .pot]⟩]).perform? .standard (.text "tea") 0 40 =
      some (.ok report) ∧ report.outcome = .ok (.parallel [.unit, .text "tea"]) ∧
        report.elapsed = 5 := ⟨_, rfl, rfl, rfl⟩
  obtain ⟨report, performed, outcome, elapsed⟩ := performs
  obtain ⟨_, alone, _, may, _⟩ := bound_group serving .standard (.text "tea") .inherit .inherit
    [.cup, .pot] [.nap, .read ⟨0, "x"⟩] (by decide) rfl
  have plain := may 0 40 report performed
  refine ⟨by decide, ⟨report, performed, outcome, elapsed, plain⟩, ?_⟩
  refine (alone ⟨1, by decide⟩ _).1.mpr (World.May.imp plain ?_)
  rintro _ _ ⟨rfl, rfl⟩
  rw [outcome, elapsed]
  exact ⟨rfl, rfl⟩

/-- Two operations that fail at the same moment, the first behind two tasks that wait for it. -/
def Step.pouring : List Step :=
  let five : Step := .literal (.quantity (.number 5))
  [.bind [⟨0, "x"⟩] (.bind [⟨1, "y"⟩] (.bind [⟨2, "z"⟩] (.invoke "first" five))),
    .bind [⟨3, "w"⟩] (.invoke "second" five)]

/-- Whose turn it is decides which failure ends the run, and the task of the binding has other turns
than the run itself. -/
theorem Routine.bound_group_tie :
    let registry := (Registry.standard.rehearse "first" .failAfter).rehearse "second" .failAfter
    let names : List Name := [⟨4, "a"⟩, ⟨5, "b"⟩]
    let ends (sequence : List Entry) :=
      (((Routine.lone (.tuple [])).running sequence).perform? registry .unit 0 60).map
        (Except.map fun report => (report.outcome, report.elapsed))
    names.Nodup ∧ names.length = Step.pouring.length ∧
    ends [⟨.inherit, .tuple Step.pouring⟩] = some (.ok (.error (.builtin "first" "5"), 5)) ∧
    ends [⟨.inherit, .bind names (.tuple Step.pouring)⟩, ⟨.inherit, .tuple (names.map .read)⟩] =
      some (.ok (.error (.builtin "second" "5"), 5)) := by
  decide +kernel

end Runbook
