import Runbook.Proofs.Evaluation.Delayed
import Runbook.Proofs.Evaluation.Overlooked
import Runbook.Proofs.Evaluation.Pruned
import Runbook.Proofs.Evaluation.Reordered

/-!
One sequence after another.

A sequence without bindings is performed to its end before what follows it is begun. If it has a
value without a race, all that it started has ended by then; what it leaves behind is tasks that
have their values, and bindings that nothing asks for. So what follows goes on as in a run of its
own, only later. If the sequence fails, nothing that follows it is ever begun.
-/
namespace Runbook

theorem Report.after_nothing : Report.after [] 0 = id := by
  funext report
  have same : report.log.map (Logged.later 0) = report.log := List.map_id _
  rw [after, same]
  rfl

theorem BindingsAlike.of_given {pairs : Pairing} {seen : Name → Prop} {given : List Binding}
    (fixed : Given given) : ∃ own, BindingsAlike pairs seen own given given := by
  induction given with
  | nil => exact ⟨[], .nil⟩
  | cons binding given ih =>
      obtain ⟨⟨name, value, rfl⟩, others⟩ := List.forall_mem_cons.mp fixed
      obtain ⟨own, alike⟩ := ih others
      exact ⟨_, .parameter name value alike⟩

namespace World

variable {machine : Machine} {world next : World} {task : TaskId}

theorem toOutcome?_more {fuel more : Nat} {found : Except Defect Outcome × World}
    (finds : world.toOutcome? machine fuel = some found) (enough : fuel ≤ more) :
    world.toOutcome? machine more = some found := by
  induction fuel generalizing world more with
  | zero => cases finds
  | succ fuel ih =>
      obtain ⟨less, rfl⟩ := Nat.exists_eq_add_of_le enough
      rw [Nat.add_right_comm, toOutcome?]
      rw [toOutcome?] at finds
      split at finds
      · exact finds
      · split at finds
        · exact ih finds (Nat.le_add_right _ _)
        · cases finds

/-- A run that has started nothing is alone. -/
theorem alone_of_single {work : Work} (single : world.tasks = [work]) : world.Alone := by
  intro task other differs found
  rw [single] at found
  cases task with
  | zero => exact absurd rfl differs
  | succ task => cases found

namespace Alone

theorem ready (alone : world.Alone) (ready : machine.ready world task = true) : task = 0 := by
  by_contra beside
  have below := ready_below ready
  obtain ⟨value, same⟩ := alone task _ beside (List.getElem?_eq_getElem below)
  rw [Machine.ready, Machine.stepTask?, List.getElem?_eq_getElem below, same] at ready
  cases ready

theorem tail (alone : world.Alone) (orderly : world.Orderly machine) : world.queue.tail = [] := by
  refine List.eq_nil_iff_forall_not_mem.mpr fun task inside => ?_
  obtain ⟨ready, beside⟩ := orderly.follow task inside
  exact beside (alone.ready ready)

theorem orderly (alone : world.Alone) (tail : world.queue.tail = []) : world.Orderly machine where
  follow := by
    rw [tail]
    exact List.forall_mem_nil _
  queued _ _ ready beside := absurd (alone.ready ready) beside
  distinct := by
    cases queue : world.queue with
    | nil => exact .nil
    | cons first queue =>
        rw [queue, List.tail_cons] at tail
        rw [tail]
        exact List.nodup_singleton first

theorem agenda (alone : world.Alone) (orderly : world.Orderly machine)
    (ready : machine.ready world 0 = true) : world.agenda machine = [0] :=
  eq_singleton_of_nodup orderly.nodup_agenda (fun _ inside => alone.ready (mem_agenda.mp inside))
    (mem_agenda.mpr ready)

end Alone

/-- The run can begin its next entry. -/
theorem ready_body {frame : Frame} {value : Value} {index : Nat} {entries : List Entry}
    (there : world.tasks[0]? = some (.body frame (.done (.ok value)) index entries)) :
    machine.ready world 0 = true := by
  rw [Machine.ready, Machine.stepTask?, there, Option.bind_some]
  cases entries <;> rfl

/-- The first world of a run whose parameters are given. -/
def opening (given : List Binding) (sequence : List Entry) (log : List Logged) : World :=
  ⟨0, [.body ⟨given⟩ (.done (.ok .unit)) 0 sequence], [0], log⟩

variable {given hidden : List Binding} {value : Value} {index : Nat} {rest : List Entry}

/-- A run that begins at some moment reports what it does when it begins at once, later. -/
theorem report?_later {log : List Logged} (quiet : heard log = []) (clock : Nat)
    (told : List Logged) (drain fuel limit : Nat) :
    World.report? machine drain fuel limit
        ⟨clock, [.body ⟨given⟩ (.done (.ok .unit)) 0 rest], [0], told⟩ =
      ((opening given rest log).report? machine drain fuel limit).map
        (Option.map (Report.after (heard told) clock)) := by
  have begun : (Work.body ⟨given⟩ (.done (.ok .unit)) 0 rest).translate (.delaying clock) =
      .body ⟨given⟩ (.done (.ok .unit)) 0 rest := by
    rw [Work.translate, Work.translate, funext (Entry.translate_delaying clock), List.map_id']
    exact congrArg (Work.body · _ 0 rest) (Frame.renumber_identity _)
  refine (Tandem.delayed machine (heard told) clock).report? drain fuel limit
    ⟨trivial, (Nat.zero_add _).symm, rfl, fun task => ?_, ?_⟩
  · cases task with
    | zero => exact .some begun.symm
    | succ task => exact .none
  · change heard told = heard told ++ (heard log).map _
    rw [quiet, List.map_nil, List.append_nil]

/-- Tasks that have their values make no difference to a run that is alone with them. -/
theorem Alone.report?_pruned (alone : world.Alone) (orderly : world.Orderly machine)
    (fixed : Given given)
    (there : world.tasks[0]? = some (.body ⟨given⟩ (.done (.ok .unit)) 0 rest))
    (drain fuel limit : Nat) :
    world.report? machine drain fuel limit = World.report? machine drain fuel limit
      ⟨world.clock, [.body ⟨given⟩ (.done (.ok .unit)) 0 rest], [0], world.log⟩ := by
  let main : Work := .body ⟨given⟩ (.done (.ok .unit)) 0 rest
  let single : World := ⟨world.clock, [main], [0], world.log⟩
  have alone' : single.Alone := alone_of_single rfl
  have orderly' : single.Orderly machine := alone'.orderly rfl
  let two := Comparison.same machine single world orderly' orderly
  have alike : main.Alike two.like [(0, 0)] main := by
    obtain ⟨own, frames⟩ := BindingsAlike.of_given fixed
    exact .body 0 frames (.done _) rfl
  have pruned : two.Prunes [(0, 0)] single world := by
    refine ⟨⟨.refl, .refl, ?_, ?_, ?_, .inl rfl, trivial⟩, List.mem_singleton.mpr rfl, ?_, ?_, rfl,
      rfl⟩
    · refine World.paired_of (List.pairwise_singleton _ _) fun pair inside => ?_
      rw [List.mem_singleton.mp inside]
      exact ⟨main, main, rfl, there, alike⟩
    · intro pair inside
      rw [List.mem_singleton.mp inside]
    · have one : single.agenda two.machine = [0] := alone'.agenda orderly' (ready_body rfl)
      have other : world.agenda two.machine' = [0] := alone.agenda orderly (ready_body there)
      rw [one, other]
      exact ⟨[(0, 0)], List.Subset.refl _, rfl, rfl⟩
    · intro task within
      rw [Nat.lt_one_iff.mp within]
      exact List.mem_singleton.mpr rfl
    · intro task work found stray
      exact alone task work (fun zero => stray (List.mem_singleton.mpr zero)) found
  have kept : world.report? machine drain fuel limit =
      (single.report? machine drain fuel limit).map (Option.map (Report.after [] 0)) :=
    (Comparison.Prunes.tandem two trivial).report? drain fuel limit ⟨_, pruned⟩
  rw [kept, Report.after_nothing, Option.map_id, Option.map_id]
  rfl

/-- Bindings that nothing asks for make no difference to a run, nor do the value that it has and the
number of entries that it has performed. -/
theorem report?_overlooked (fixed : Given given)
    (settled : ∀ binding ∈ hidden, binding.unobserved? = none) (more : rest ≠ [])
    (there : world.tasks[0]? = some (.body ⟨given ++ hidden⟩ (.done (.ok value)) index rest))
    (sees : Seen (Plainly hidden []) (stepsMentions (rest.map Entry.step)))
    (drain fuel limit : Nat) :
    world.report? machine drain fuel limit = World.report? machine drain fuel limit
      { world with tasks := world.tasks.set 0 (.body ⟨given⟩ (.done (.ok .unit)) 0 rest) } := by
  have below := (List.getElem?_eq_some_iff.mp there).1
  have overlooked : World.Tied (.ofRun (Work.Overlooks given hidden index)) [] 0
      { world with tasks := world.tasks.set 0 (.body ⟨given⟩ (.done (.ok .unit)) 0 rest) }
      world := by
    refine ⟨rfl, rfl, fun task => ?_, (List.map_id _).symm⟩
    cases task with
    | zero =>
        rw [List.getElem?_set_self below, there]
        have same : Work.Overlooks given hidden index
            (.body ⟨given ++ []⟩ (.done (.ok .unit)) 0 rest)
            (.body ⟨given ++ (hidden ++ [])⟩ (.done (.ok value)) (0 + index) rest) :=
          .body (.inr ⟨more, rfl, rfl⟩) sees
        rw [List.append_nil, List.append_nil, Nat.zero_add] at same
        exact .some same
    | succ task =>
        rw [List.getElem?_set_ne (Nat.succ_ne_zero task).symm]
        cases world.tasks[task + 1]? with
        | none => exact .none
        | some work => exact .some rfl
  have tandem : Tandem machine machine [] 0 fun one two => True ∧
      World.Tied (.ofRun (Work.Overlooks given hidden index)) [] 0 one two :=
    .overlooks machine fixed settled
  rw [tandem.report? drain fuel limit ⟨trivial, overlooked⟩, Report.after_nothing, Option.map_id,
    Option.map_id]
  rfl

/-- A run that is alone, and whose hidden bindings nothing asks for, reports what a run does that
begins with the entries that it has still to perform. -/
theorem Alone.report? (alone : world.Alone) (orderly : world.Orderly machine) (fixed : Given given)
    (settled : ∀ binding ∈ hidden, binding.unobserved? = none) (more : rest ≠ [])
    (there : world.tasks[0]? = some (.body ⟨given ++ hidden⟩ (.done (.ok value)) index rest))
    (sees : Seen (Plainly hidden []) (stepsMentions (rest.map Entry.step))) {log : List Logged}
    (quiet : heard log = []) (drain fuel limit : Nat) :
    world.report? machine drain fuel limit =
      ((opening given rest log).report? machine drain fuel limit).map
        (Option.map (Report.after (heard world.log) world.clock)) := by
  let bare : World :=
    { world with tasks := world.tasks.set 0 (.body ⟨given⟩ (.done (.ok .unit)) 0 rest) }
  have first : bare.tasks[0]? = some (.body ⟨given⟩ (.done (.ok .unit)) 0 rest) :=
    List.getElem?_set_self (List.getElem?_eq_some_iff.mp there).1
  have lonely : bare.Alone := by
    intro task work differs found
    rw [List.getElem?_set_ne differs.symm] at found
    exact alone task work differs found
  rw [report?_overlooked fixed settled more there sees,
    lonely.report?_pruned (lonely.orderly (alone.tail orderly)) fixed first,
    report?_later quiet]

/-- With more entries behind its sequence a run has the same beginning. -/
theorem opening_followed (given : List Binding) (sequence rest : List Entry) (log : List Logged) :
    Followed rest (opening given sequence log) (opening given (sequence ++ rest) log) := by
  refine ⟨rfl, rfl, fun task => ?_, (List.map_id _).symm⟩
  cases task with
  | zero => exact .some rfl
  | succ task => exact .none

theorem opening_orderly (given : List Binding) (sequence : List Entry) (log : List Logged) :
    (opening given sequence log).Orderly machine :=
  (alone_of_single rfl).orderly rfl

theorem opening_along (given : List Binding) (sequence : List Entry) :
    (Work.body ⟨given⟩ (.done (.ok .unit)) 0 sequence).Along given sequence := by
  have whole : (Work.body ⟨given ++ []⟩ (.done (.ok .unit)) 0 sequence).Along given sequence :=
    .body (List.nil_append sequence).symm (List.forall_mem_nil _) (List.nil_subset _)
  rwa [List.append_nil] at whole

/-- When a sequence has come to its value without a race, all has ended that it has started, and the
run with more entries behind is alone with these. -/
theorem opening_ends {allowed : Need → Prop} (raceless : machine.Raceless allowed)
    (fixed : Given given) {sequence : List Entry} (plain : ∀ entry ∈ sequence, entry.Plain)
    (needs : ∀ need ∈ stepsNeeds (sequence.map Entry.step), allowed need) {log : List Logged}
    {fuel : Nat} {first : World}
    (found : (opening given sequence log).toOutcome? machine fuel = some (.ok (.ok value), first))
    (rest : List Entry) :
    first.step? machine = none ∧ ∃ count other hidden result index,
      Steps machine count (opening given (sequence ++ rest) log) other ∧ other.Orderly machine ∧
      other.Alone ∧
      other.tasks[0]? = some (.body ⟨given ++ hidden⟩ (.done (.ok result)) index rest) ∧
      (∀ binding ∈ hidden, binding.unobserved? = none) ∧
      hidden.flatMap Binding.names ⊆ Sequence.binders sequence ∧
      other.clock = first.clock ∧ heard other.log = heard first.log := by
  have orderly : (opening given sequence log).Orderly machine := opening_orderly given sequence log
  have orderly' : (opening given (sequence ++ rest) log).Orderly machine :=
    opening_orderly given (sequence ++ rest) log
  obtain ⟨count, middle, other, final, steps, steps', followed, there, along, atEnd⟩ :=
    comes_to_end fixed plain (opening_followed given sequence rest log) rfl
      (opening_along given sequence) found
  cases along with
  | @body before entries hidden current index same settled names =>
      obtain ⟨frame, result, last, final⟩ := atEnd
      injection final with frames value _ none
      cases value
      cases none
      have unobserved : (Frame.mk (given ++ hidden)).unobserved = [] :=
        Frame.unobserved_given fixed settled
      have begins (task : TaskId) (work : Work)
          (begun : (opening given sequence log).tasks[task]? = some work) :
          work.Within allowed ∧ middle.Free task := by
        cases task with
        | succ task => cases begun
        | zero =>
            cases begun
            exact ⟨.body .done needs, free_of_ending there unobserved⟩
      have alone : middle.Alone := by
        intro task work beside found
        have below := (List.getElem?_eq_some_iff.mp found).1
        obtain ⟨value, ends⟩ :=
          Reaches.all_settled raceless steps.reaches begins (Nat.pos_of_ne_zero beside) below
        exact ⟨value, Option.some.inj (found.symm.trans ends)⟩
      -- the run of the sequence alone has its value then, and the one that goes on is where it is
      have later := toOutcome?_more found (Nat.le_add_left fuel count)
      rw [steps.toOutcome?_add (outcome?_eq_none there rfl)] at later
      obtain ⟨clock, told, asleep⟩ :=
        alone.ends (orderly.reaches steps.reaches) there unobserved later
      refine ⟨asleep, count, other, hidden, result, index, steps', orderly'.reaches steps'.reaches,
        Followed.alone followed alone, Followed.run followed there, settled, names, ?_, ?_⟩
      · rw [clock]
        exact followed.clock
      · rw [told, followed.log]
        exact List.map_id _

theorem toMoment_of_asleep (asleep : world.step? machine = none) (limit fuel : Nat) :
    world.toMoment machine limit fuel = world := by
  cases fuel with
  | zero => rfl
  | succ fuel => rw [toMoment, asleep]

theorem Steps.report?_add {count : Nat} (steps : Steps machine count world next)
    (going : next.outcome? = none) (drain fuel limit : Nat) :
    world.report? machine drain (count + fuel) limit = next.report? machine drain fuel limit := by
  rw [World.report?, World.report?, steps.toOutcome?_add going]

/-- From some fuel on, a run reports the same with any more. -/
theorem report?_steady (machine : Machine) (world : World) :
    ∃ enough, ∀ drain fuel more limit, enough ≤ fuel → enough ≤ more →
      world.report? machine drain fuel limit = world.report? machine drain more limit := by
  by_cases ends : ∃ fuel found, world.toOutcome? machine fuel = some found
  · obtain ⟨enough, found, ends⟩ := ends
    refine ⟨enough, fun drain fuel more limit within within' => ?_⟩
    rw [World.report?, World.report?, toOutcome?_more ends within, toOutcome?_more ends within']
  · have none (fuel : Nat) : world.toOutcome? machine fuel = none :=
      Option.eq_none_iff_forall_ne_some.mpr fun found finds => ends ⟨fuel, found, finds⟩
    refine ⟨0, fun drain fuel more limit _ _ => ?_⟩
    rw [World.report?, World.report?, none, none]

/-- When a sequence has come to its value without a race, the run goes on as one that begins with
what follows. -/
theorem opening_continues {allowed : Need → Prop} (raceless : machine.Raceless allowed)
    (fixed : Given given) {sequence : List Entry} (plain : ∀ entry ∈ sequence, entry.Plain)
    (needs : ∀ need ∈ stepsNeeds (sequence.map Entry.step), allowed need) {log : List Logged}
    (quiet : heard log = []) {fuel : Nat} {first : World}
    (found : (opening given sequence log).toOutcome? machine fuel = some (.ok (.ok value), first))
    (more : rest ≠ []) {known : List Name} (own : stepsBound known (rest.map Entry.step))
    (apart : ∀ name ∈ known, name ∉ Sequence.binders sequence) :
    first.step? machine = none ∧ ∃ count, ∀ drain fuel limit,
      (opening given (sequence ++ rest) log).report? machine drain (count + fuel) limit =
        ((opening given rest log).report? machine drain fuel limit).map
          (Option.map (Report.after (heard first.log) first.clock)) := by
  obtain ⟨asleep, count, other, hidden, result, index, steps, orderly, alone, there, settled, names,
    clock, told⟩ := opening_ends raceless fixed plain needs found rest
  have sees : Seen (Plainly hidden []) (stepsMentions (rest.map Entry.step)) := by
    rw [← List.append_nil (stepsMentions _)]
    exact stepsSeen (rest.map Entry.step) own
      (fun name inside => .inr fun hides => apart name inside (names hides)) fun _ _ => trivial
  refine ⟨asleep, count, fun drain fuel limit => ?_⟩
  rw [steps.report?_add (outcome?_eq_none there rfl),
    alone.report? orderly fixed settled more there sees quiet, told, clock]

/-- No entry of the sequence has been begun, and none is the next to be: the run has failed, or they
are all still behind another entry, if not behind a work that has no value yet. -/
def Before (rest : List Entry) (world : World) : Prop :=
  ∃ main, world.tasks[0]? = some main ∧ (main.Fails ∨ ∃ frame current index entries,
    main = .body frame current index (entries ++ rest) ∧ (entries = [] → current.value? = none))

/-- When a sequence fails, nothing that follows it is begun. -/
theorem opening_fails (fixed : Given given) {sequence : List Entry}
    (plain : ∀ entry ∈ sequence, entry.Plain) {log : List Logged} {fuel : Nat} {failure : Failure}
    {last : World} (found : (opening given sequence log).toOutcome? machine fuel =
      some (.ok (.error failure), last)) (rest : List Entry) :
    (∀ drain fuel limit, (opening given (sequence ++ rest) log).report? machine drain fuel limit =
      (opening given sequence log).report? machine drain fuel limit) ∧
    ∀ reached, (opening given (sequence ++ rest) log).Reaches machine reached →
      reached.Before rest := by
  obtain ⟨fails, ends⟩ := toOutcome?_reaches found
  have along := opening_along given sequence
  have known {reached : World} (reaches : (opening given sequence log).Reaches machine reached) :=
    underway_of_failure fixed plain rfl (.inl along) fails ends reaches
  have tandem : Tandem machine machine [] 0 fun one two =>
      (opening given sequence log).Reaches machine one ∧ Followed rest one two :=
    followed_tandem fun reaches work there => by
      obtain ⟨later, stands, underway, _⟩ := known reaches
      rw [← Option.some.inj (stands.symm.trans there)]
      exact underway
  have here : (opening given sequence log).Reaches machine (opening given sequence log) ∧
      Followed rest (opening given sequence log) (opening given (sequence ++ rest) log) :=
    ⟨.refl, opening_followed given sequence rest log⟩
  refine ⟨fun drain fuel limit => ?_, fun reached reaches => ?_⟩
  · have same := tandem.report? drain fuel limit here
    rw [same, Report.after_nothing, Option.map_id, Option.map_id]
    rfl
  · obtain ⟨alone, reaches, _, followed⟩ := tandem.reaches here reaches
    obtain ⟨later, stands, underway, leads⟩ := known reaches
    refine ⟨_, Followed.run followed stands, ?_⟩
    rcases leads with along | ⟨ended, fails⟩
    · cases along
      cases underway with
      | body _ far => exact .inr ⟨_, _, _, _, rfl, far⟩
      | ended ends => cases ends
    · refine .inl ?_
      cases later with
      | done outcome => exact ⟨rfl, fails⟩
      | broken defect => exact ⟨rfl, rfl⟩
      | _ => cases ended

end World

namespace Routine

/-- No routine that can come to be performed waits for the first of two tasks. -/
def Raceless (routine : Routine) (registry : Registry) : Prop :=
  ∀ other, routine.Reaches other → ∀ name primitive, .primitive name ∈ other.needs →
    registry.lookup name = some primitive → primitive.operator ≠ some .waitEither

variable {routine : Routine} {registry : Registry} {argument : Value}

theorem Calm.raceless (calm : routine.Calm) (built : registry.Built) :
    routine.Raceless registry := by
  intro other reaches name primitive needs found races
  rw [built.performs found races] at needs
  exact calm other reaches needs

theorem Raceless.machine (raceless : routine.Raceless registry) :
    Machine.Raceless ⟨registry, routine.library⟩
      fun need => ∃ other, routine.Reaches other ∧ need ∈ other.needs where
  routines := by
    intro callee called needed found need inside
    obtain ⟨caller, reaches, calls⟩ := needed
    exact ⟨called, reaches.tail ⟨callee, calls, found⟩, inside⟩
  primitives := by
    intro name primitive needed found
    obtain ⟨other, reaches, needs⟩ := needed
    exact raceless other reaches name primitive needs found

theorem heard?_running (routine : Routine) (sequence : List Entry) (registry : Registry)
    (argument : Value) (drain fuel : Nat) :
    (routine.running sequence).heard? registry argument drain fuel =
      (World.start (routine.running sequence) argument).report? ⟨registry, routine.library⟩
        drain fuel fuel := by
  have same : (routine.running sequence).library = routine.library := rfl
  rw [heard?, perform?, World.report?, same]
  cases (World.start (routine.running sequence) argument).toOutcome? ⟨registry, routine.library⟩
    fuel with
  | none => rfl
  | some found =>
      obtain ⟨outcome, first⟩ := found
      cases outcome <;> rfl

/-- The argument has a part for each parameter, or there are none. -/
def Fits (routine : Routine) (argument : Value) : Prop :=
  routine.parameters.isEmpty = true ∨
    ∃ values, argument.split routine.parameters.length = .ok values

/-- With an argument that fits, a run with another sequence begins with the same parameters. -/
theorem Fits.opening {routine : Routine} {argument : Value} (fits : routine.Fits argument) :
    ∃ given, Given given ∧ ∀ sequence, World.start (routine.running sequence) argument =
      .opening given sequence [⟨0, .entered routine.procedure.name⟩] := by
  rcases fits with none | ⟨values, parts⟩
  · refine ⟨[], List.forall_mem_nil _, fun sequence => ?_⟩
    simp only [World.start, enter, running, none, ↓reduceIte]
    rfl
  · by_cases none : routine.parameters.isEmpty = true
    · refine ⟨[], List.forall_mem_nil _, fun sequence => ?_⟩
      simp only [World.start, enter, running, none, ↓reduceIte]
      rfl
    · refine ⟨_, given_ofParameters routine.parameters values.val, fun sequence => ?_⟩
      simp only [World.start, enter, running, none, parts]
      rfl

/-- A run with another sequence begins with the same parameters, or fails for them. -/
theorem start_running (routine : Routine) (argument : Value) : ∃ log, heard log = [] ∧
    ((∃ given, Given given ∧ ∀ sequence,
        World.start (routine.running sequence) argument = .opening given sequence log) ∨
      ∃ failure, ∀ sequence,
        World.start (routine.running sequence) argument =
          ⟨0, [.done (.error failure)], [0], log⟩) := by
  refine ⟨[⟨0, .entered routine.procedure.name⟩], rfl, ?_⟩
  by_cases fits : routine.Fits argument
  · exact .inl fits.opening
  · obtain ⟨some, parts⟩ := not_or.mp fits
    cases split : argument.split routine.parameters.length with
    | ok values => exact absurd ⟨values, split⟩ parts
    | error failure =>
        refine .inr ⟨failure, fun sequence => ?_⟩
        simp only [World.start, enter, running, some, split, Bool.false_eq_true, ↓reduceIte]
        rfl

/-- If each name is bound once, as in all that is compiled, no sequence binds a parameter anew. -/
theorem parameters_kept {first : List Entry} (distinct : (routine.running first).binders.Nodup) :
    routine.parameters.filter (· ∉ Sequence.binders first) = routine.parameters :=
  List.filter_eq_self.mpr fun _ inside =>
    decide_eq_true (List.disjoint_of_nodup_append distinct inside)

/-- Entries that are no bindings are performed strictly one after the other. If a sequence of them
has a value, and no race can come to be performed in it, then a sequence that follows it, and that
reads only names of its own and parameters that are not bound anew, does as in a run of its own:
with its outcome, later by the time of the first, and with what is heard of it after what was heard
of the first. If the first sequence fails, the run ends as that of the first alone does, and no
entry that follows is ever begun. -/
theorem runs_in_turn (routine : Routine) (registry : Registry) (argument : Value)
    (first rest : List Entry) (plain : ∀ entry ∈ first, entry.Plain)
    (raceless : (routine.running first).Raceless registry) (more : rest ≠ [])
    (own : stepsBound (routine.parameters.filter (· ∉ Sequence.binders first))
      (rest.map Entry.step))
    (drain fuel : Nat) (report : Report)
    (reports : (routine.running first).perform? registry argument drain fuel = some (.ok report)) :
    (∀ value, report.outcome = .ok value →
      ∃ enough, ∀ drain fuel, enough ≤ fuel →
        (routine.running (first ++ rest)).heard? registry argument drain fuel =
          ((routine.running rest).heard? registry argument drain fuel).map
            (Option.map (Report.after (heard report.log) report.elapsed))) ∧
    (∀ failure, report.outcome = .error failure →
      (∀ drain fuel, (routine.running (first ++ rest)).heard? registry argument drain fuel =
        (routine.running first).heard? registry argument drain fuel) ∧
      ∀ reached, (World.start (routine.running (first ++ rest)) argument).Reaches
        ⟨registry, routine.library⟩ reached → reached.Before rest) := by
  obtain ⟨log, quiet, ⟨given, fixed, begins⟩ | ⟨failure, begins⟩⟩ := start_running routine argument
  · obtain ⟨outcome, last, found, rfl⟩ := perform?_eq_ok.mp reports
    change (World.start (routine.running first) argument).toOutcome? ⟨registry, routine.library⟩ _ =
      _ at found
    simp only [heard?_running, begins] at found ⊢
    refine ⟨fun value same => ?_, fun failure same => ?_⟩
    · cases same
      have races : Machine.Raceless ⟨registry, routine.library⟩ _ := raceless.machine
      obtain ⟨asleep, count, continues⟩ := World.opening_continues races fixed plain
        (fun need inside => ⟨_, .refl, inside⟩) quiet found more own
        fun name inside => of_decide_eq_true (List.mem_filter.mp inside).2
      obtain ⟨enough, steady⟩ :=
        World.report?_steady ⟨registry, routine.library⟩ (.opening given rest log)
      have ended : last.toMoment ⟨registry, (routine.running first).library⟩ (last.clock + drain)
          fuel = last := World.toMoment_of_asleep asleep _ _
      refine ⟨count + enough, fun drain fuel within => ?_⟩
      obtain ⟨spare, rfl⟩ := Nat.exists_eq_add_of_le within
      rw [Nat.add_assoc, continues, ended, steady drain (enough + spare) (count + (enough + spare)) _
        (Nat.le_add_right _ _) (Nat.le_add_left_of_le (Nat.le_add_right _ _))]
    · cases same
      obtain ⟨same, before⟩ := World.opening_fails fixed plain found rest
      exact ⟨fun drain fuel => same drain fuel fuel, before⟩
  · obtain ⟨outcome, last, found, rfl⟩ := perform?_eq_ok.mp reports
    obtain ⟨reaches, ends⟩ := World.toOutcome?_reaches found
    have fails : (World.mk 0 [.done (.error failure)] [0] log).outcome? =
        some (.ok (.error failure)) := rfl
    rw [begins] at reaches
    have final := ends.symm.trans (reaches.outcome fails)
    simp only [heard?_running, begins]
    refine ⟨fun value same => ?_,
      fun other same => ⟨fun drain fuel => trivial, fun reached reaches => ?_⟩⟩
    · cases same
      cases final
    · exact ⟨_, World.outcome?_eq_ok.mp (reaches.outcome fails), .inl ⟨rfl, rfl⟩⟩

end Routine

/-- A procedure that takes a nap on the way, and another in the background. -/
def Procedure.serving : Procedure :=
  ⟨0, "main", ["x"], none, [
    .execute 0 (.application 0 "task" (.restriction 0 (.role "cook") [
      .assignment 0 ["y"] (.application 0 "sleep" (.amount 0 (.number 5))),
      .execute 0 (.reference 0 ["x"])])),
    .assignment 0 ["z"] (.application 0 "sleep" (.amount 0 (.number 5))),
    .execute 0 (.application 0 "write" (.reference 0 ["x"]))]⟩

/-- The first of its entries. -/
def Sequence.steeping : List Entry :=
  [⟨.inherit, .invoke "task" (.tuple [.bind [⟨1, "y"⟩] .nap, .tuple [.read ⟨0, "x"⟩]])⟩]

/-- The others. -/
def Sequence.pouring : List Entry :=
  [⟨.inherit, .bind [⟨2, "z"⟩] .nap⟩, ⟨.inherit, .invoke "write" (.tuple [.read ⟨0, "x"⟩])⟩]

def Sequence.dropping : List Entry := [⟨.inherit, .invoke "fail" (.tuple [.read ⟨0, "x"⟩])⟩]

/-- What the procedure compiles to. -/
def Routine.serving : Routine :=
  let sequence := Sequence.steeping ++ Sequence.pouring
  ⟨.serving, [⟨0, "x"⟩], sequence, [(0, ⟨.serving, [⟨0, "x"⟩], sequence, []⟩)]⟩

open Sequence in
theorem Routine.runs_in_turn_serving :
    Document.compile ⟨[.serving]⟩ ⟨"", ""⟩ Registry.standard.names = .ok serving ∧
    (∃ report, (serving.running steeping).perform? .standard (.text "tea") 0 40 =
        some (.ok report) ∧ report.elapsed = 5 ∧
      heard report.log = [⟨5, .said .task (.parallel [.unit, .text "tea"])⟩] ∧
      ∃ enough, ∀ drain fuel, enough ≤ fuel →
        serving.heard? .standard (.text "tea") drain fuel =
          ((serving.running pouring).heard? .standard (.text "tea") drain fuel).map
            (Option.map (Report.after (heard report.log) report.elapsed))) ∧
    ∀ drain fuel, (serving.running (dropping ++ pouring)).heard? .standard (.text "tea") drain fuel =
      (serving.running dropping).heard? .standard (.text "tea") drain fuel := by
  have raceless (sequence : List Entry)
      (calm : .primitive Operator.waitEither.primitive ∉ (serving.running sequence).needs) :
      (serving.running sequence).Raceless .standard := by
    have others : ∀ entry ∈ serving.library,
        .primitive Operator.waitEither.primitive ∉ entry.2.needs := by decide
    exact Calm.raceless (.of_library calm others) (.inr .refl)
  have first : ∃ report, (serving.running steeping).perform? .standard (.text "tea") 0 40 =
      some (.ok report) ∧ report.outcome = .ok (.parallel [.unit, .text "tea"]) ∧
        report.elapsed = 5 ∧
        heard report.log = [⟨5, .said .task (.parallel [.unit, .text "tea"])⟩] :=
    ⟨_, rfl, rfl, rfl, rfl⟩
  have failing : ∃ report, (serving.running dropping).perform? .standard (.text "tea") 0 40 =
      some (.ok report) ∧ report.outcome = .error (.builtin "fail" "tea") := ⟨_, rfl, rfl⟩
  obtain ⟨report, reports, has, time, told⟩ := first
  obtain ⟨report', reports', fails⟩ := failing
  have plain (step : Step) (none : ∀ names inner, step ≠ .bind names inner) :
      ∀ entry ∈ [(⟨.inherit, step⟩ : Entry)], entry.Plain :=
    List.forall_mem_singleton.mpr none
  have own (first : List Entry) (distinct : (serving.running first).binders.Nodup) :
      stepsBound (serving.parameters.filter (· ∉ Sequence.binders first))
        (pouring.map Entry.step) := by
    rw [parameters_kept distinct]
    exact ⟨trivial, ⟨List.mem_append_left _ (List.mem_singleton_self _), trivial⟩, trivial⟩
  refine ⟨rfl, ⟨report, reports, time, told, ?_⟩, ?_⟩
  · exact (runs_in_turn serving .standard (.text "tea") steeping pouring (plain _ nofun)
      (raceless steeping (by decide)) (List.cons_ne_nil _ _) (own _ (by decide)) 0 40 report
      reports).1 _ has
  · exact ((runs_in_turn serving .standard (.text "tea") dropping pouring (plain _ nofun)
      (raceless dropping (by decide)) (List.cons_ne_nil _ _) (own _ (by decide)) 0 40 report'
      reports').2 _ fails).1

end Runbook
