import Runbook.Proofs.Evaluation.Owed
import Runbook.Proofs.Evaluation.Tandem

/-!
Sequences that more entries follow.

A run does not look ahead: until its body has come to the end of a sequence without bindings, or has
failed, it goes on in the same way whatever entries follow there. A body that comes to the end has
nothing left to be settled, and has its value in two moves more.
-/
namespace Runbook

/-- The entry is no binding. -/
def Entry.Plain (entry : Entry) : Prop := ∀ names step, entry.step ≠ .bind names step

/-- The routine with another sequence. -/
def Routine.running (routine : Routine) (sequence : List Entry) : Routine :=
  { routine with sequence }

/-- The body with more entries behind its own. -/
def Work.followed (rest : List Entry) : Work → Work
  | .body frame current index entries => .body frame current index (entries ++ rest)
  | work => work

/-- The work is a body with something left to be done before its end, or it has ended. -/
inductive Work.Underway : Work → Prop
  | body {frame current index entries} : (∀ entry ∈ entries, entry.Plain) →
      (entries = [] → current.value? = none) → Underway (.body frame current index entries)
  | ended {work} : work.ended? = some work → Underway work

namespace Machine

variable {machine : Machine} {world : World}

/-- An entry that is no binding is set up without regard to what follows it. -/
theorem begin_followed {entry : Entry} (plain : entry.Plain) (next : TaskId) (frame : Frame)
    (index : Nat) (entries rest : List Entry) :
    machine.begin next frame index entry (entries ++ rest) =
      (machine.begin next frame index entry entries).within (Work.followed rest) := by
  have same (isLast isLast' : Bool) : setUpEntry machine.registry index isLast entry =
      setUpEntry machine.registry index isLast' entry := by
    obtain ⟨setting, step⟩ := entry
    cases step with
    | bind names step => exact absurd rfl (plain names step)
    | _ => rfl
  rw [begin, begin, same (entries ++ rest).isEmpty entries.isEmpty]
  cases (setUpEntry machine.registry index entries.isEmpty entry).run.run
      ⟨frame, next, [], []⟩ with
  | mk result state => cases result <;> rfl

/-- Until its end, a body moves in the same way with more entries behind it. -/
theorem step?_followed {work : Work} (underway : work.Underway) (rest : List Entry) :
    step? machine world (work.followed rest) =
      (step? machine world work).map (·.within (Work.followed rest)) := by
  cases underway with
  | ended ends =>
      cases work with
      | done outcome => rfl
      | broken defect => rfl
      | _ => cases ends
  | @body frame current index entries plain far =>
      rw [Work.followed]
      cases going : current.ended? with
      | none =>
          rw [step?_body _ _ _ going, step?_body _ _ _ going, Option.map_map]
          rfl
      | some ended =>
          cases current with
          | done outcome =>
              cases outcome with
              | error failure => rfl
              | ok value =>
                  cases entries with
                  | nil => cases far rfl
                  | cons entry entries =>
                      rw [List.cons_append, step?, step?,
                        begin_followed (plain entry List.mem_cons_self)]
                      rfl
          | broken defect => rfl
          | _ => cases going

end Machine

namespace Work

variable {rest : List Entry}

theorem ended?_followed (work : Work) : (work.followed rest).ended? = work.ended? := by
  cases work <;> rfl

theorem wakes_followed (work : Work) : (work.followed rest).wakes = work.wakes := by
  cases work <;> rfl

theorem meet_followed (work : Work) : (work.followed rest).meet = work.meet.followed rest := by
  cases work <;> rfl

end Work

/-- The run is underway. -/
def World.Underway (world : World) : Prop := ∀ work, world.tasks[0]? = some work → work.Underway

/-- Two worlds of which the second has more entries behind those of the run. -/
abbrev World.Followed (rest : List Entry) (world other : World) : Prop :=
  World.Tied (.ofRun fun one two => two = one.followed rest) [] 0 world other

namespace World

variable {machine : Machine} {world other : World} {rest : List Entry}

theorem followed_lawful (machine : Machine) (rest : List Entry) :
    (Ties.ofRun fun one two => two = one.followed rest).Lawful machine machine [] 0 := by
  refine Ties.ofRun_lawful (fun {one two} same => ?_) (fun {one two} same => ?_)
    fun {one two} same => ?_
  · rw [same, Work.ended?_followed]
  · rw [same, Work.wakes_followed]
  · rw [same, Work.meet_followed]

/-- A run that is underway moves in the same way with more entries behind its own. -/
theorem run_followed (followed : Followed rest world other) (underway : world.Underway)
    {one two : Work} (there : world.tasks[0]? = some one) (same : two = one.followed rest) :
    Option.Rel (Change.Tied (.ofRun fun one two => two = one.followed rest) 0 world.tasks.length)
      (machine.step? world one) (machine.step? other two) := by
  have unaware := @Tied.unaware (fun one two => two = one.followed rest) machine [] world other
    (fun {one two} same => same ▸ one.ended?_followed) followed two
  have positive := Nat.zero_lt_of_lt (List.getElem?_eq_some_iff.mp there).1
  rw [unaware, same, Machine.step?_followed (underway one there)]
  cases machine.step? world one with
  | none => exact .none
  | some change => exact .some ⟨rfl, Ties.ofRun_started change.started positive, rfl, rfl⟩

theorem step?_followed (followed : Followed rest world other) (underway : world.Underway) :
    Option.Rel (Followed rest) (world.step? machine) (other.step? machine) :=
  Tied.step? (followed_lawful machine rest) followed fun _ _ there same =>
    run_followed followed underway there same

/-- A run that is always underway is performed in the same way with more entries behind its own. -/
theorem followed_tandem
    (all : ∀ {reached : World}, world.Reaches machine reached → reached.Underway) :
    Tandem machine machine [] 0 fun one two => world.Reaches machine one ∧ Followed rest one two :=
  (followed_lawful machine rest).tandem (fun reaches stepped => reaches.tail stepped)
    fun reaches followed there same => run_followed followed (all reaches) there same

end World

/-- All are bindings of parameters. -/
def Given (bindings : List Binding) : Prop :=
  ∀ binding ∈ bindings, ∃ name value, binding = .parameter name value

theorem given_ofParameters (parameters : List Name) (values : List Value) :
    Given (Frame.ofParameters parameters values).bindings := by
  intro binding inside
  obtain ⟨pair, _, rfl⟩ := List.mem_map.mp inside
  exact ⟨pair.1, pair.2, rfl⟩

namespace Frame

variable {given extra : List Binding}

/-- Asking for a name leaves parameters as they are. -/
theorem observe_given (fixed : Given given) (name : Name) :
    (Frame.mk (given ++ extra)).observe name =
      ⟨given ++ ((Frame.mk extra).observe name).bindings⟩ := by
  induction given with
  | nil => rfl
  | cons binding given ih =>
      obtain ⟨⟨other, value, rfl⟩, others⟩ := List.forall_mem_cons.mp fixed
      rw [List.cons_append, observe_cons, ih others, Binding.observe, ite_self]
      rfl

theorem unobserved_given (fixed : Given given)
    (settled : ∀ binding ∈ extra, binding.unobserved? = none) :
    (Frame.mk (given ++ extra)).unobserved = [] := by
  refine List.filterMap_eq_nil_iff.mpr fun binding inside => ?_
  rcases List.mem_append.mp inside with own | more
  · obtain ⟨name, value, rfl⟩ := fixed binding own
    rfl
  · exact settled binding more

/-- Settled deeds add settled bindings. -/
theorem performAll_given (fixed : Given given) {deeds : List Deed}
    (settles : ∀ deed ∈ deeds, deed.Settled)
    (settled : ∀ binding ∈ extra, binding.unobserved? = none) :
    ∃ more, (Frame.mk (given ++ extra)).performAll deeds = ⟨given ++ more⟩ ∧
      ∀ binding ∈ more, binding.unobserved? = none := by
  induction deeds generalizing extra with
  | nil => exact ⟨extra, rfl, settled⟩
  | cons deed deeds ih =>
      rw [List.forall_mem_cons] at settles
      cases deed with
      | bind binding =>
          have all : ∀ each ∈ extra ++ [binding], each.unobserved? = none :=
            List.forall_mem_append.mpr ⟨settled, List.forall_mem_singleton.mpr settles.1⟩
          obtain ⟨more, done, rest⟩ := ih settles.2 all
          refine ⟨more, ?_, rest⟩
          rw [← done, ← List.append_assoc]
          rfl
      | read name =>
          have all : ∀ each ∈ ((Frame.mk extra).observe name).bindings,
              each.unobserved? = none := by
            rw [observe]
            cases done : observeIn? name extra with
            | none => exact settled
            | some observed => exact observeIn?_settled done settled
          obtain ⟨more, done, rest⟩ := ih settles.2 all
          refine ⟨more, ?_, rest⟩
          rw [← done, ← observe_given fixed]
          rfl

end Frame

/-- The work is a body that performs the sequence. Its frame has what was given, and bindings that
are nested in entries. -/
inductive Work.Along (given : List Binding) (sequence : List Entry) : Work → Prop
  | body {before entries extra current index} : sequence = before ++ entries →
      (∀ binding ∈ extra, binding.unobserved? = none) →
      extra.flatMap Binding.names ⊆ Sequence.binders sequence →
      Along given sequence (.body ⟨given ++ extra⟩ current index entries)

/-- The body has come to the end of its sequence. -/
def Work.AtEnd (work : Work) : Prop :=
  ∃ frame value index, work = .body frame (.done (.ok value)) index []

/-- The work has ended without a value. -/
def Work.Fails (work : Work) : Prop := work.ended? = some work ∧ work.value? = none

/-- The work has nothing left to be done but to have its value. -/
inductive Work.Through : Work → Prop
  | last {frame value index} : frame.unobserved = [] →
      Through (.body frame (.done (.ok value)) index [])
  | settle {value} : Through (.settle [] value)
  | has {value} : Through (.done (.ok value))

section
variable {machine : Machine} {world next last : World} {given : List Binding}
  {sequence rest : List Entry} {work : Work} {change : Change}

/-- A move leads on along the sequence, or fails, or is the one at its end. -/
theorem Moves.along (fixed : Given given) (plain : ∀ entry ∈ sequence, entry.Plain)
    (along : work.Along given sequence) (moves : Moves machine world work change) :
    change.work.Along given sequence ∨ change.work.Fails ∨
      work.AtEnd ∧ ∃ value, change.work = .settle [] value := by
  obtain @⟨before, entries, extra, current, index, same, settled, names⟩ := along
  cases moves with
  | @last _ value =>
      refine .inr (.inr ⟨⟨_, value, _, rfl⟩, value, ?_⟩)
      exact congrArg (Work.settle · value) (Frame.unobserved_given fixed settled)
  | @begin _ value _ entry entries =>
      rcases machine.begin_sets world.tasks.length ⟨given ++ extra⟩ index entry entries with
        ⟨current, started, after, events, same', sets⟩ | ⟨defect, started, events, same'⟩
      · rw [same']
        have inside : entry ∈ sequence :=
          same ▸ List.mem_append_right _ List.mem_cons_self
        generalize entries.isEmpty = isLast at sets
        have bound := sets.names
        obtain ⟨setting, step⟩ := entry
        cases sets with
        | bind _ => exact absurd rfl (plain _ inside _ _)
        | other _ sets =>
            obtain ⟨deeds, _, settles, rfl⟩ := sets.deeds
            obtain ⟨more, done, all⟩ := Frame.performAll_given fixed settles settled
            rw [done] at bound ⊢
            refine .inl (.body (same.trans (List.append_cons _ _ _)) all fun name mem => ?_)
            rw [Frame.names, Frame.names, List.flatMap_append, List.flatMap_append,
              List.append_assoc, List.append_cancel_left_eq] at bound
            rw [bound] at mem
            rcases List.mem_append.mp mem with old | new
            · exact names old
            · rw [same, Sequence.binders, List.map_append, stepsBinders_append, List.map_cons,
                stepsBinders]
              exact List.mem_append_right _ (List.mem_append_left _ new)
      · rw [same']
        exact .inr (.inl ⟨rfl, rfl⟩)
  | bodyFails => exact .inr (.inl ⟨rfl, rfl⟩)
  | bodyBreaks => exact .inr (.inl ⟨rfl, rfl⟩)
  | current _ => exact .inl (.body same settled names)

theorem Moves.through (through : work.Through) (moves : Moves machine world work change) :
    change.work.Through := by
  cases through with
  | last settled =>
      cases moves with
      | last =>
          change (Work.settle _ _).Through
          rw [settled]
          exact .settle
      | current moves => cases moves
  | settle =>
      cases moves
      exact .has
  | has => cases moves

namespace Work

theorem Along.meet (along : work.Along given sequence) : work.meet = work := by
  cases along
  rfl

theorem Through.meet (through : work.Through) : work.meet = work := by
  cases through <;> rfl

theorem Fails.meet (fails : work.Fails) : work.meet.Fails := by
  cases work with
  | broken defect => exact ⟨rfl, rfl⟩
  | _ => exact fails

theorem Along.through (fixed : Given given) (along : work.Along given sequence)
    (final : work.AtEnd) : work.Through := by
  obtain ⟨frame, value, index, rfl⟩ := final
  cases along with
  | body _ settled _ => exact .last (Frame.unobserved_given fixed settled)

theorem Along.underway (along : work.Along given sequence)
    (plain : ∀ entry ∈ sequence, entry.Plain) (far : ¬work.AtEnd) : work.Underway := by
  obtain @⟨before, entries, extra, current, index, same, settled, names⟩ := along
  refine .body (fun entry inside => plain entry ?_) ?_
  · rw [same]
    exact List.mem_append_right _ inside
  · rintro rfl
    cases current with
    | done outcome =>
        cases outcome with
        | ok value => exact absurd ⟨_, value, index, rfl⟩ far
        | error failure => rfl
    | _ => rfl

end Work

namespace World

/-- A run that has nothing left to be done but to have its value has it in the end. -/
theorem Reaches.stays_through (reaches : world.Reaches machine last)
    (there : world.tasks[0]? = some work) (through : work.Through) :
    ∃ later, last.tasks[0]? = some later ∧ later.Through := by
  have step {world next : World} (holds : ∃ work, world.tasks[0]? = some work ∧ work.Through)
      (goes : world.Goes machine next) : ∃ work, next.tasks[0]? = some work ∧ work.Through := by
    obtain ⟨work, there, through⟩ := holds
    obtain ⟨later, origin, now, met, source⟩ := goes.stands there
    have still : origin.Through := by
      rcases source with rfl | ⟨change, moves, rfl⟩
      · exact through
      · exact moves.through through
    rw [still.meet, or_self] at met
    exact ⟨later, now, met ▸ still⟩
  exact reaches.keeps step ⟨work, there, through⟩

/-- A run along a sequence goes on along it or fails, unless it has come to the end. -/
theorem Goes.along (fixed : Given given) (plain : ∀ entry ∈ sequence, entry.Plain)
    (there : world.tasks[0]? = some work) (along : work.Along given sequence) (far : ¬work.AtEnd)
    (goes : world.Goes machine next) :
    ∃ later, next.tasks[0]? = some later ∧ (later.Along given sequence ∨ later.Fails) := by
  obtain ⟨later, origin, now, met, source⟩ := goes.stands there
  have leads : origin.Along given sequence ∨ origin.Fails := by
    rcases source with rfl | ⟨change, moves, rfl⟩
    · exact .inl along
    · rcases moves.along fixed plain along with along | fails | ⟨final, _⟩
      · exact .inl along
      · exact .inr fails
      · exact absurd final far
  refine ⟨later, now, ?_⟩
  rcases leads with leads | fails
  · rw [leads.meet, or_self] at met
    exact .inl (met ▸ leads)
  · rcases met with rfl | rfl
    · exact .inr fails
    · exact .inr fails.meet

/-- A run that fails does not come to the end of its sequence. -/
theorem underway_of_failure (fixed : Given given) (plain : ∀ entry ∈ sequence, entry.Plain)
    (there : world.tasks[0]? = some work) (along : work.Along given sequence ∨ work.Fails)
    {failure : Failure} (fails : world.Reaches machine last)
    (ends : last.outcome? = some (.ok (.error failure))) (reaches : world.Reaches machine next) :
    ∃ later, next.tasks[0]? = some later ∧ later.Underway ∧
      (later.Along given sequence ∨ later.Fails) := by
  have never {middle : World} (reaches : world.Reaches machine middle) {work : Work}
      (there : middle.tasks[0]? = some work) (through : work.Through) : False := by
    rcases Reaches.total reaches fails with later | earlier
    · obtain ⟨final, stands, through⟩ := later.stays_through there through
      rw [outcome?_eq_ok.mp ends] at stands
      cases Option.some.inj stands
      cases through
    · rw [outcome?_eq_ok.mp (earlier.outcome ends)] at there
      cases Option.some.inj there
      cases through
  have known : ∃ work, next.tasks[0]? = some work ∧ (work.Along given sequence ∨ work.Fails) := by
    induction reaches with
    | refl => exact ⟨work, there, along⟩
    | @tail middle next reaches stepped ih =>
        obtain ⟨work, there, along | fails⟩ := ih
        · exact Goes.along fixed plain there along
            (fun final => never reaches there (along.through fixed final)) (step?_goes stepped)
        · rcases (step?_goes stepped).ended there fails.1 with same | met
          · exact ⟨work, same, .inr fails⟩
          · exact ⟨work.meet, met, .inr fails.meet⟩
  obtain ⟨work, there, along | fails⟩ := known
  · have underway := along.underway plain fun final =>
      never reaches there (along.through fixed final)
    exact ⟨work, there, underway, .inl along⟩
  · exact ⟨work, there, .ended fails.1, .inr fails⟩

/-- A run that has no outcome after so many steps has needed fuel for each of them. -/
theorem Steps.toOutcome?_add {count : Nat} (steps : Steps machine count world last)
    (going : last.outcome? = none) (fuel : Nat) :
    world.toOutcome? machine (count + fuel) = last.toOutcome? machine fuel := by
  induction steps with
  | refl => rw [Nat.zero_add]
  | @head count world next last stepped rest ih =>
      have none : world.outcome? = none := by
        cases ends : world.outcome? with
        | none => rfl
        | some result =>
            have reaches : world.Reaches machine last := .head stepped rest.reaches
            cases result with
            | ok outcome => cases (reaches.outcome ends).symm.trans going
            | error defect =>
                obtain ⟨other, broken⟩ := reaches.broken ends
                cases broken.symm.trans going
      rw [Nat.add_right_comm, World.toOutcome?, none, stepped]
      exact ih going

theorem not_value_of_fails (there : world.tasks[0]? = some work) (fails : work.Fails)
    (reaches : world.Reaches machine last) (value : Value) :
    last.outcome? ≠ some (.ok (.ok value)) := by
  intro ends
  obtain ⟨ended, none⟩ := fails
  cases work with
  | done outcome =>
      have final := reaches.outcome (outcome?_eq_ok.mpr there)
      cases Option.some.inj (final.symm.trans ends)
      cases none
  | broken defect =>
      obtain ⟨other, broken⟩ := reaches.broken (outcome?_eq_error.mpr there)
      cases broken.symm.trans ends
  | _ => cases ended

/-- A run that has a value comes to the end of its sequence before; and so does the run with more
entries behind its own, in as many steps. -/
theorem comes_to_end (fixed : Given given) (plain : ∀ entry ∈ sequence, entry.Plain)
    {other first : World} (followed : Followed rest world other)
    (there : world.tasks[0]? = some work) (along : work.Along given sequence) {fuel : Nat}
    {value : Value} (found : world.toOutcome? machine fuel = some (.ok (.ok value), first)) :
    ∃ count middle other' final, Steps machine count world middle ∧
      Steps machine count other other' ∧ Followed rest middle other' ∧
      middle.tasks[0]? = some final ∧ final.Along given sequence ∧ final.AtEnd := by
  induction fuel generalizing world other work with
  | zero => cases found
  | succ fuel ih =>
      by_cases final : work.AtEnd
      · exact ⟨0, world, other, work, .refl, .refl, followed, there, along, final⟩
      · have going : work.ended? = none := by
          cases along
          rfl
        rw [toOutcome?, outcome?_eq_none there going] at found
        have underway : world.Underway := by
          intro found there'
          obtain rfl := Option.some.inj (there.symm.trans there')
          exact along.underway plain final
        have step := @step?_followed machine _ _ _ followed underway
        cases stepped : world.step? machine with
        | none =>
            rw [stepped] at found
            cases found
        | some next =>
            rw [stepped] at found step
            obtain ⟨later, now, leads⟩ :=
              Goes.along fixed plain there along final (step?_goes stepped)
            rcases leads with along | fails
            · cases taken : other.step? machine with
              | none =>
                  rw [taken] at step
                  cases step
              | some next' =>
                  rw [taken] at step
                  cases step with
                  | some followed =>
                      obtain ⟨count, middle, other', rest⟩ := ih followed now along found
                      exact ⟨count + 1, middle, other', rest.imp fun _ known =>
                        ⟨.head stepped known.1, .head taken known.2.1, known.2.2⟩⟩
            · obtain ⟨reaches, ends⟩ := toOutcome?_reaches found
              exact absurd ends (not_value_of_fails now fails reaches value)

/-- All tasks beside the run itself have their values. -/
def Alone (world : World) : Prop :=
  ∀ (task : TaskId) (work : Work), task ≠ 0 → world.tasks[task]? = some work →
    ∃ value, work = .done (.ok value)

theorem Followed.run (followed : Followed rest world next)
    (there : world.tasks[0]? = some work) : next.tasks[0]? = some (work.followed rest) := by
  obtain ⟨_, there, rfl⟩ := followed.tasks.other there
  exact there

theorem Followed.alone (followed : Followed rest world next) (alone : world.Alone) : next.Alone := by
  intro task work beside there
  obtain ⟨former, there, same⟩ := followed.tasks.former there
  cases task with
  | zero => exact absurd rfl beside
  | succ task =>
      obtain rfl : work = former := same
      exact alone _ work beside there

/-- At its end, with no binding that is still to be asked for, the run owes nothing to any task. -/
theorem free_of_ending {frame : Frame} {value : Value} {index : Nat}
    (there : world.tasks[0]? = some (.body frame (.done (.ok value)) index []))
    (none : frame.unobserved = []) : world.Free 0 := by
  refine ⟨_, there, fun doomed => ?_, fun task owes => ?_⟩
  · cases doomed with
    | current doomed => cases doomed
  · cases owes with
    | leaves left =>
        rw [Frame.Leaves, none] at left
        cases left
    | current owes => cases owes

/-- When all tasks have ended, nothing happens any more. -/
theorem step?_of_ended (ended : ∀ (task : TaskId) (work : Work), world.tasks[task]? = some work →
    work.ended? = some work) : world.step? machine = none := by
  have still (queue : List TaskId) : machine.turn? world queue = none := by
    refine Machine.turn?_eq_none.mpr fun task _ => ?_
    rw [Machine.stepTask?, Option.bind_eq_none_iff]
    intro work there
    have ends := ended task work there
    cases work with
    | done outcome => rfl
    | broken defect => rfl
    | _ => cases ends
  have wake : world.wake? = none := by
    refine List.min?_eq_none_iff.mpr (List.eq_nil_iff_forall_not_mem.mpr fun moment inside => ?_)
    obtain ⟨work, among, awaited⟩ := Work.mem_wakesOfAll.mp inside
    obtain ⟨task, there⟩ := List.mem_iff_getElem?.mp among
    have ends := ended task work there
    cases work with
    | sleep wake outcome => cases ends
    | fresh work => cases ends
    | after source next => cases ends
    | gather shape members => cases ends
    | body frame current index entries => cases ends
    | _ => cases awaited
  rw [step?, still, still, wake]
  rfl

/-- If the run is alone and can move, it does, and stays alone if it starts nothing. -/
theorem Alone.move (alone : world.Alone) (orderly : world.Orderly machine)
    (there : world.tasks[0]? = some work) (moved : machine.step? world work = some change)
    (none : change.started = []) :
    ∃ next, world.step? machine = some next ∧ next.Orderly machine ∧ next.Alone ∧
      (next.tasks[0]? = some change.work ∨ next.tasks[0]? = some change.work.meet) ∧
      next.clock = world.clock ∧ next.log = world.log ++ change.events.map (⟨world.clock, ·⟩) := by
  have ready : machine.ready world 0 = true := by
    rw [Machine.ready, Machine.stepTask?, there, Option.bind_some, moved]
    rfl
  obtain ⟨next, task, found, taken, others, stepped, move⟩ :=
    orderly.goes_on (List.ne_nil_of_mem (mem_agenda.mpr ready))
  have first : task = 0 := by
    by_contra beside
    obtain ⟨value, rfl⟩ := alone task found beside move.there
    cases move.moved
  cases first
  obtain rfl := Option.some.inj (there.symm.trans move.there)
  obtain rfl := Option.some.inj (moved.symm.trans move.moved)
  refine ⟨next, stepped, orderly.later stepped, fun task later beside found => ?_,
    move.getElem?_moved, move.clock, move.log⟩
  have below : task < world.tasks.length := by
    have within := (List.getElem?_eq_some_iff.mp found).1
    rw [move.length, none] at within
    exact within
  obtain ⟨value, same⟩ := alone task _ beside (List.getElem?_eq_getElem below)
  have stands : (world.tasks ++ change.started)[task]? = some (.done (.ok value)) := by
    rw [List.getElem?_append_left below, List.getElem?_eq_getElem below, same]
  refine ⟨value, Option.some.inj (found.symm.trans ?_)⟩
  rcases move.getElem?_next beside stands with same | met
  · exact same
  · exact met

/-- A run that is alone at the end of its sequence has its value at once, and nothing comes after. -/
theorem Alone.ends (alone : world.Alone) (orderly : world.Orderly machine) {frame : Frame}
    {value : Value} {index : Nat}
    (there : world.tasks[0]? = some (.body frame (.done (.ok value)) index []))
    (none : frame.unobserved = []) {fuel : Nat} {outcome : Except Defect Outcome} {first : World}
    (found : world.toOutcome? machine fuel = some (outcome, first)) :
    first.clock = world.clock ∧ heard first.log = heard world.log ∧
      first.step? machine = .none := by
  have settles : machine.step? world (.body frame (.done (.ok value)) index []) =
      some (.become (.settle [] value)) := by rw [Machine.step?, none]
  obtain ⟨next, stepped, orderly, alone, stands, clock, log⟩ :=
    alone.move orderly there settles rfl
  rw [show (Change.become (.settle [] value)).work.meet = .settle [] value from rfl] at stands
  have stands := stands.elim id id
  have finishes : machine.step? next (.settle [] value) = some (.finish (.ok value)) := rfl
  obtain ⟨last, stepped', orderly, alone, ends, clock', log'⟩ :=
    alone.move orderly stands finishes rfl
  have ends : last.tasks[0]? = some (.done (.ok value)) := ends.elim id id
  have same : first = last := by
    have going (work : Work) {world : World} (there : world.tasks[0]? = some work)
        (going : work.ended? = .none) : world.outcome? = .none := outcome?_eq_none there going
    cases fuel with
    | zero => cases found
    | succ fuel =>
        rw [toOutcome?, going _ there rfl, stepped] at found
        cases fuel with
        | zero => cases found
        | succ fuel =>
            dsimp only at found
            rw [toOutcome?, going _ stands rfl, stepped'] at found
            cases fuel with
            | zero => cases found
            | succ fuel =>
                dsimp only at found
                rw [toOutcome?, outcome?_eq_ok.mpr ends] at found
                exact (congrArg Prod.snd (Option.some.inj found)).symm
  rw [same]
  refine ⟨clock'.trans clock, ?_, ?_⟩
  · rw [log', log, heard_append, heard_append, heard_map, heard_map]
    exact List.append_nil _ |>.trans (List.append_nil _)
  · refine step?_of_ended fun task work there => ?_
    by_cases run : task = 0
    · rw [run] at there
      rw [← Option.some.inj (ends.symm.trans there)]
      rfl
    · obtain ⟨value, rfl⟩ := alone task work run there
      rfl

end World

end

end Runbook
