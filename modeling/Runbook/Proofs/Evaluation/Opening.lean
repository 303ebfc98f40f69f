import Runbook.Proofs.Evaluation.Beside

/-!
How runs open whose first entry performs given steps.

A step that reads only its own names is set up alike wherever it stands. So the task that performs
it in a run of its own, and all that it starts, are paired with those that perform it in a larger
run, after the first move of both.
-/
namespace Runbook

/-- A routine that only performs a step. -/
def Routine.performing (procedure : Procedure) (setting : Setting) (step : Step)
    (library : Library) : Routine :=
  ⟨procedure, [], [⟨setting, step⟩], library⟩

/-- An operator applied to two steps. -/
def Operator.step (operator : Operator) (left right : Step) : Step :=
  .invoke operator.primitive (.tuple [left, right])

namespace SetUp

variable {registry : Registry} {setting : Setting} {before middle after : State}

/-- A step that reads only its own names is set up alike in two runs. Its task in the one is paired
with its task in the other, and so is what they start. -/
theorem start_agree {ground : Ground} {step : Step} {work' : Work} {one other after' : State}
    (alike : State.Alike ground (fun _ => False) (step.mentions ++ []) [] one other)
    (gives' : (setUp registry setting step).Gives other work' after') :
    ∃ work after pairs, (setUp registry setting step).Gives one work after ∧
      after.next = (ground.ones ++ after.started).length ∧ (after.next, after'.next) ∈ pairs ∧
      ground.Grown pairs (after.started ++ [.fresh work]) (after'.started ++ [.fresh work']) := by
  obtain ⟨pairs, result, after, result', last, _, run, run', _, _, rest⟩ :=
    @setUp_agree _ _ registry setting step _ _ _ _ alike
  cases run'.symm.trans gives'
  cases result with
  | error defect => exact rest.elim
  | ok work =>
      obtain ⟨alike, same⟩ := rest
      refine ⟨work, after, _, run, alike.next₁, ?_, alike.grown.start (.fresh same)⟩
      rw [← alike.next₁, ← alike.next₂]
      exact List.mem_append_right _ (List.mem_singleton.mpr rfl)

/-- An entry that applies an operator to two steps starts a task for each of them. -/
theorem setUpEntry_operands {operator : Operator} {left right : Step} {work work' : Work}
    (found : registry.lookup operator.primitive = some operator.asPrimitive) (isLast : Bool)
    (first : (setUp registry setting left).Gives
      { before with events := before.events ++ [.starting 0 setting] } work middle)
    (second : (setUp registry setting right).Gives
      { middle with next := middle.next + 1, started := middle.started ++ [.fresh work] } work'
      after) :
    (setUpEntry registry 0 isLast ⟨setting, operator.step left right⟩).Gives before
      (.after (operator.await middle.next after.next) (.join operator.asPrimitive))
      { after with next := after.next + 1, started := after.started ++ [.fresh work'] } := by
  refine (gives_report (.starting 0 setting)).bind ?_
  change (setUp registry setting (.invoke operator.primitive (.tuple [left, right]))).Gives _ _ _
  rw [setUp, found]
  exact first.bind ((gives_start work).bind (second.bind ((gives_start work').bind (gives_pure _))))

/-- An entry that binds a step to names starts a task for it. -/
theorem setUpEntry_bind {names : List Name} {step : Step} {isLast : Bool} {work : Work}
    (gives : (setUpEntry registry 0 isLast ⟨setting, .bind names step⟩).Gives before work after) :
    ∃ inner middle, (setUp registry setting step).Gives
        { before with events := before.events ++ [.starting 0 setting] ++ [.binding names setting] }
        inner middle ∧
      work = (if isLast then .wait middle.next else .done (.ok .unit)) ∧
      after = { middle with
        next := middle.next + 1
        started := middle.started ++ [.fresh inner]
        frame := middle.frame.add (.started names middle.next isLast) } := by
  obtain ⟨_, _, reports, gives⟩ := gives_bind_iff.mp gives
  cases reports
  obtain ⟨_, _, reports, gives⟩ := gives_bind_iff.mp gives
  cases reports
  obtain ⟨inner, middle, sets, gives⟩ := gives_bind_iff.mp gives
  obtain ⟨task, last, binds, gives⟩ := gives_bind_iff.mp gives
  cases binds
  refine ⟨inner, middle, sets, ?_⟩
  cases isLast with
  | true =>
      cases gives
      exact ⟨rfl, rfl⟩
  | false =>
      cases gives
      exact ⟨rfl, rfl⟩

end SetUp

namespace World

variable {machine : Machine} {world last : World} {work : Work} {change : Change}

/-- The first step of a run is a move of the run itself. -/
theorem Orderly.opens (orderly : world.Orderly machine) (tasks : world.tasks = [work])
    (moved : machine.step? world work = some change) :
    ∃ next, world.step? machine = some next ∧ Move machine world next 0 work change [] := by
  have only {task : TaskId} (listed : task ∈ world.agenda machine) : task = 0 := by
    have below := ready_below (mem_agenda.mp listed)
    rw [tasks] at below
    exact Nat.lt_one_iff.mp below
  have there : world.tasks[0]? = some work := by
    rw [tasks]
    rfl
  have ready : 0 ∈ world.agenda machine := by
    rw [mem_agenda, Machine.ready, Machine.stepTask?, there, Option.bind_some, moved]
    rfl
  obtain ⟨next, task, found, other, rest, stepped, move⟩ :=
    orderly.goes_on (List.ne_nil_of_mem ready)
  have agenda := move.agenda
  rw [eq_singleton_of_nodup orderly.nodup_agenda (fun _ => only) ready] at agenda
  obtain ⟨rfl, rfl⟩ := List.cons.inj agenda
  obtain rfl := Option.some.inj (there.symm.trans move.there)
  obtain rfl := Option.some.inj (moved.symm.trans move.moved)
  exact ⟨next, stepped, move⟩

/-- A run that does not break down by some moment has set its first entry up. -/
theorem Orderly.begins {moment : Nat} {frame : Frame} {value : Value} {entry : Entry}
    {entries : List Entry} (orderly : world.Orderly machine)
    (tasks : world.tasks = [.body frame (.done (.ok value)) 0 (entry :: entries)])
    (through : Through machine moment world last)
    (whole : ∀ defect, last.outcome? ≠ some (.error defect)) :
    ∃ work state next,
      (setUpEntry machine.registry 0 entries.isEmpty entry).Gives ⟨frame, 1, [], []⟩ work state ∧
      world.step? machine = some next ∧ Through machine moment next last ∧
      Move machine world next 0 (.body frame (.done (.ok value)) 0 (entry :: entries))
        ⟨.body state.frame work 1 entries, state.started, state.events, none⟩ [] := by
  have moved : machine.step? world (.body frame (.done (.ok value)) 0 (entry :: entries)) =
      some (machine.begin 1 frame 0 entry entries) := by
    rw [Machine.step?, tasks]
    rfl
  obtain ⟨next, stepped, move⟩ := orderly.opens tasks moved
  have early : next.clock ≤ moment := by
    rw [move.clock]
    exact Nat.le_trans (Reaches.clock_le through.reaches) through.come
  have later := through.later (.single stepped) early
  rw [Machine.begin] at move
  cases run : (setUpEntry machine.registry 0 entries.isEmpty entry).run.run ⟨frame, 1, [], []⟩ with
  | mk result state =>
      rw [run] at move
      cases result with
      | ok work => exact ⟨work, state, next, run, stepped, later, move⟩
      | error defect =>
          -- a run whose entry cannot be set up has broken down
          have broken : ∃ defect, next.tasks[0]? = some (.broken defect) := by
            rcases move.getElem?_moved with plain | met
            · exact ⟨defect, plain⟩
            · exact ⟨.met, met⟩
          obtain ⟨_, there⟩ := broken
          obtain ⟨defect, ends⟩ := later.reaches.broken (outcome?_eq_error.mpr there)
          exact absurd ends (whole defect)

end World

/-- After the first move of two runs, they are abreast of each other in what both have started. -/
theorem Comparison.opens {two : Comparison} {ground : Ground} {more : Pairing}
    {next next' : World} {work work' : Work} {change change' : Change}
    (like : ground.like = two.like) (none : ground.pairs = [])
    (ones : ground.ones = two.start.tasks) (others : ground.others = two.start'.tasks)
    (only : two.start.tasks = [work]) (only' : two.start'.tasks = [work'])
    (first : 0 < ground.first₁ ∧ 0 < ground.first₂)
    (clocks : two.start.clock = two.start'.clock)
    (stepped : two.start.step? two.machine = some next)
    (stepped' : two.start'.step? two.machine' = some next')
    (move : World.Move two.machine two.start next 0 work change [])
    (move' : World.Move two.machine' two.start' next' 0 work' change' [])
    (grown : ground.Grown more change.started change'.started)
    (keeps : two.keeps more next next') : two.Abreast more next next' := by
  have fresh : ∀ pair ∈ more, 0 < pair.1 ∧ 0 < pair.2 := by
    intro pair inside
    rcases grown.fresh pair inside with known | ⟨above, above'⟩
    · rw [none] at known
      cases known
    · exact ⟨Nat.lt_of_lt_of_le first.1 above, Nat.lt_of_lt_of_le first.2 above'⟩
  have asleep {machine : Machine} {world next : World} {work : Work}
      (only : world.tasks = [work]) : World.woken machine world next 0 = [] := by
    rw [World.woken, only]
    refine List.filter_eq_nil_iff.mpr fun task below wakes => ?_
    rw [List.mem_singleton.mp below] at wakes
    simp only [bne_self_eq_false, Bool.and_false, Bool.false_eq_true] at wakes
  refine ⟨.single stepped, .single stepped', World.paired_of grown.ordered fun pair inside => ?_,
    fun pair inside => ?_, ?_, .inl ?_, keeps⟩
  · have positive := fresh pair inside
    obtain ⟨one, other, there, there', alike⟩ := grown.works pair inside
    rw [ones] at there
    rw [others] at there'
    rw [like] at alike
    rcases move.getElem?_next (Nat.ne_of_gt positive.1) there with same | met
    · rcases move'.getElem?_next (Nat.ne_of_gt positive.2) there' with same' | met'
      · exact ⟨one, other, same, same', alike⟩
      · exact ⟨one, _, same, met', alike.meetRight⟩
    · rcases move'.getElem?_next (Nat.ne_of_gt positive.2) there' with same' | met'
      · exact ⟨_, other, met, same', alike.meetLeft⟩
      · exact ⟨_, _, met, met', alike.meetLeft.meetRight⟩
  · have positive := fresh pair inside
    exact iff_of_false (Nat.ne_of_gt positive.1) (Nat.ne_of_gt positive.2)
  · rw [move.agenda_next two.orderly₁, move'.agenda_next two.orderly₂, asleep only, asleep only',
      List.append_nil, List.append_nil, List.filter_nil, List.nil_append, List.nil_append]
    have apart {keep : TaskId → Bool} : (∀ pair ∈ more, pair.1 ∉ [0].filter keep) ∧
        ∀ pair ∈ more, pair.2 ∉ [0].filter keep := by
      refine ⟨fun pair inside zero => ?_, fun pair inside zero => ?_⟩
      · have positive := (fresh pair inside).1
        rw [List.mem_singleton.mp (List.mem_filter.mp zero).1] at positive
        exact Nat.lt_irrefl _ positive
      · have positive := (fresh pair inside).2
        rw [List.mem_singleton.mp (List.mem_filter.mp zero).1] at positive
        exact Nat.lt_irrefl _ positive
    refine .append (.append (.none apart.1 apart.2) ?_) (.none apart.1 apart.2)
    refine .sorted grown.ordered List.pairwise_lt_range' List.pairwise_lt_range'
      fun pair inside => ?_
    have positive := fresh pair inside
    have below := grown.below inside
    rw [ones, others, List.length_append, List.length_append, only, only'] at below
    rw [List.mem_range'_1, List.mem_range'_1, only, only']
    exact iff_of_true ⟨positive.1, below.1⟩ ⟨positive.2, below.2⟩
  · rw [move.clock, move'.clock]
    exact clocks

/-- After its first move a run only waits for what it has started. -/
theorem World.Idle.opens {machine : Machine} {world next : World} {work : Work} {change : Change}
    {tasks : List Nat} {count : Nat} (move : Move machine world next 0 work change [])
    (only : world.tasks.length = 1) (idles : change.work.Idles count) (other : 0 ∉ tasks)
    (whole : ∀ task, 1 ≤ task → task < 1 + change.started.length → task ∈ tasks) :
    next.Idle tasks count := by
  refine ⟨?_, other, fun task below differs => whole task (Nat.pos_of_ne_zero differs) ?_⟩
  · rcases move.getElem?_moved with same | met
    · exact ⟨_, same, idles⟩
    · exact ⟨_, met, idles.meet⟩
  · rw [move.length, only] at below
    exact below

/-- What a move tells is all that is heard of it. -/
theorem World.Move.silent {machine : Machine} {world next : World} {task : TaskId} {work : Work}
    {change : Change} {rest : List TaskId} (move : Move machine world next task work change rest)
    (tells : told change.events = []) : heard next.log = heard world.log := by
  rw [move.log, heard_append, heard_map, tells]
  exact List.append_nil _

/-- The beginning of a run that only performs a step, which is bound to names. -/
def World.solo (machine : Machine) (procedure : Procedure) (setting : Setting) (names : List Name)
    (step : Step) : World :=
  .start (.performing procedure setting (.bind names step) machine.library) .unit

/-- Whatever the second run starts is to be paired, and what the first one starts from that number
on. -/
def Ground.beside (one other : World) (first : Nat) : Ground :=
  ⟨Comparison.everything, [], one.tasks, other.tasks, first, 1, (first ≤ ·), (1 ≤ ·)⟩

/-- The first move of a run that only performs a step, which it starts as a task. -/
structure World.Solo (machine : Machine) (procedure : Procedure) (setting : Setting)
    (names : List Name) (step : Step) (next : World) (work : Work) (middle : SetUp.State)
    (frame : Frame) : Prop where
  gives : (setUp machine.registry setting step).Gives
    ⟨⟨[]⟩, 1, [], [.starting 0 setting, .binding names setting]⟩ work middle
  stepped : (World.solo machine procedure setting names step).step? machine = some next
  settled : frame.unobserved = []
  silent : told middle.events = []
  move : Move machine (World.solo machine procedure setting names step) next 0
    (.body .empty (.done (.ok .unit)) 0 [⟨setting, .bind names step⟩])
    ⟨.body frame (.wait middle.next) 1 [], middle.started ++ [.fresh work], middle.events, none⟩ []

namespace World.Solo

variable {machine : Machine} {procedure : Procedure} {setting : Setting} {names : List Name}
  {step : Step} {next : World} {work : Work} {middle : SetUp.State} {frame : Frame}

theorem opens {moment : Nat} {last : World} (bound : step.Bound [])
    (through : Through machine moment (World.solo machine procedure setting names step) last)
    (whole : ∀ defect, last.outcome? ≠ some (.error defect)) :
    ∃ next work middle frame, Solo machine procedure setting names step next work middle frame ∧
      Through machine moment next last := by
  obtain ⟨_, state, next, gives, stepped, through, move⟩ :=
    (World.start_orderly (.performing procedure setting (.bind names step) machine.library)
      .unit).begins rfl through whole
  obtain ⟨work, middle, sets, rfl, rfl⟩ := SetUp.setUpEntry_bind gives
  obtain ⟨started, makes, _, _, tells⟩ := SetUp.setUp_makes setting step sets
  obtain ⟨own, same, settled, _⟩ := makes.own bound
  refine ⟨next, work, middle, _, ⟨sets, stepped, ?_, tells, move⟩, through⟩
  rw [same, Frame.add, Frame.unobserved, List.filterMap_append]
  rw [List.filterMap_eq_nil_iff.mpr fun binding inside => ?_]
  · rfl
  · exact settled binding (List.nil_append own ▸ inside)

theorem heard (solo : Solo machine procedure setting names step next work middle frame) :
    Runbook.heard next.log = [] := solo.move.silent solo.silent

theorem waits (solo : Solo machine procedure setting names step next work middle frame) :
    next.tasks[0]? = some (.body frame (.wait middle.next) 1 []) :=
  solo.move.getElem?_moved.elim id id

/-- The step is set up alike in another run, and what it starts there is paired with what it starts in
its own. -/
theorem paired (solo : Solo machine procedure setting names step next work middle frame)
    (bound : step.Bound []) {other : World} {one : SetUp.State}
    (settled : ∀ binding ∈ one.frame.bindings, binding.unobserved? = none)
    (beginning : one.next = (other.tasks ++ one.started).length) (silent : told one.events = []) :
    ∃ work' after pairs, (setUp machine.registry setting step).Gives one work' after ∧
      after.next = (other.tasks ++ after.started).length ∧ (after.next, middle.next) ∈ pairs ∧
      (Ground.beside other (.solo machine procedure setting names step) one.next).Grown pairs
        (after.started ++ [.fresh work']) (middle.started ++ [.fresh work]) := by
  have alike : SetUp.State.Alike
      (Ground.beside other (.solo machine procedure setting names step) one.next)
      (fun _ => False) (step.mentions ++ []) [] one
      ⟨⟨[]⟩, 1, [], [.starting 0 setting, .binding names setting]⟩ := by
    refine ⟨⟨fun _ => False, [], fun _ => id, ?_, ?_⟩, beginning, rfl,
      ⟨List.Subset.refl _, .nil, List.forall_mem_nil _, ⟨Nat.le_of_eq beginning, Nat.le_refl 1⟩,
        List.forall_mem_nil _, fun task below late => ?_, fun task below late => ?_⟩, silent⟩
    · exact step.seen bound (List.forall_mem_nil _) fun _ _ => trivial
    · rw [← List.nil_append one.frame.bindings]
      exact BindingsAlike.nil.appendLeft settled fun _ _ => id
    · have later : one.next ≤ task := late
      rw [beginning] at later
      exact absurd below (Nat.not_lt_of_le later)
    · exact absurd late (Nat.not_le_of_lt below)
  exact SetUp.start_agree alike solo.gives

/-- The run itself only waits, if all that it has started is paired. -/
theorem idle {other : World} {first : Nat} {pairs : Pairing} {started : List Work}
    (solo : Solo machine procedure setting names step next work middle frame)
    (grown : (Ground.beside other (.solo machine procedure setting names step) first).Grown pairs
      started (middle.started ++ [.fresh work])) :
    next.Idle pairs.rights (1 + 2) := by
  refine .opens solo.move rfl (.body 1 solo.settled (.wait _)) ?_ ?_
  · intro zero
    obtain ⟨other, paired⟩ := Pairing.mem_rights.mp zero
    exact Nat.not_succ_le_zero _ ((grown.fresh _ paired).elim nofun And.right)
  · intro task positive last
    refine Pairing.mem_rights.mpr (grown.whole₂ task ?_ positive)
    rw [List.length_append]
    exact last

end World.Solo

end Runbook
