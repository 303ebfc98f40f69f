import Runbook.Proofs.Evaluation.Schedule
import Runbook.Proofs.Evaluation.Order

/-!
When works have their values.

For each task it is known with what it ends, and when: `arrivals` says it, the first task first.
With that, a work is due with a value at a moment. What steps are set up to is due as the schedule
of the steps says, and moves keep what is due.
-/
namespace Runbook

/-- What is in the diary for a binding. -/
inductive Binding.Dates (arrivals : List Arrival) (now : Nat) : Binding → Dated → Prop
  | parameter {name value moment} : moment ≤ now →
      Dates arrivals now (.parameter name value) ⟨⟨[name], value, true⟩, moment⟩
  | started {names task observed given} : arrivals[task]? = some given →
      Dates arrivals now (.started names task observed)
        ⟨⟨names, given.value, observed⟩, given.moment⟩

/-- The diary is that of the frame. -/
def Frame.Dates (arrivals : List Arrival) (now : Nat) (frame : Frame) (diary : Diary) : Prop :=
  List.Forall₂ (Binding.Dates arrivals now) frame.bindings.reverse diary

variable {machine : Machine} {arrivals : List Arrival} {now : Nat}

namespace Frame

theorem dates_add {frame : Frame} {binding : Binding} {diary : Diary} :
    (frame.add binding).Dates arrivals now diary ↔
      ∃ dated rest, binding.Dates arrivals now dated ∧ frame.Dates arrivals now rest ∧
        diary = dated :: rest := by
  rw [Dates, add, List.reverse_append, List.reverse_singleton, List.singleton_append,
    List.forall₂_cons_left_iff]
  rfl

theorem dates_ofParameters (now : Nat) (parameters : List Name) (values : List Value) :
    (ofParameters parameters values).Dates arrivals now
      (Store.since now ((parameters.zip values).map fun (name, value) =>
        (⟨[name], value, true⟩ : Stored)).reverse) := by
  rw [Dates, ofParameters, Store.since, List.map_reverse, List.map_map, List.forall₂_reverse_iff,
    List.forall₂_map_left_iff, List.forall₂_map_right_iff, List.forall₂_same]
  intro pair _
  exact .parameter (Nat.le_refl now)

/-- More tasks and later moments leave the diary of a frame. -/
theorem Dates.later {frame : Frame} {diary : Diary} (dates : frame.Dates arrivals now diary)
    (more : List Arrival) {later : Nat} (le : now ≤ later) :
    frame.Dates (arrivals ++ more) later diary := by
  refine List.Forall₂.imp ?_ dates
  intro binding dated dates
  cases dates with
  | parameter come => exact .parameter (come.trans le)
  | started there =>
      have below := (List.getElem?_eq_some_iff.mp there).1
      exact .started ((List.getElem?_append_left below).trans there)

/-- Reading a name is waiting for what it means, and taking the part of its value. -/
theorem Dates.read {frame : Frame} {diary after : Diary} {name : Name} {given : Arrival}
    {binding : Binding} {place : Fin binding.names.length}
    (found : frame.find? name = some ⟨binding, place⟩) (dates : frame.Dates arrivals now diary)
    (reads : diary.read now name = .ok (given, after)) :
    (frame.observe name).Dates arrivals now after ∧ ∃ dated, binding.Dates arrivals now dated ∧
      pick? binding.names.length place dated.value = some given.value ∧
      given.moment = max now dated.moment := by
  obtain ⟨bindings⟩ := frame
  induction bindings using List.reverseRecOn generalizing diary after with
  | nil => cases found
  | append_singleton bindings last ih =>
      change (add ⟨bindings⟩ last).find? name = _ at found
      change (add ⟨bindings⟩ last).Dates arrivals now diary at dates
      change ((add ⟨bindings⟩ last).observe name).Dates arrivals now after ∧ _
      obtain ⟨dated, rest, first, others, rfl⟩ := dates_add.mp dates
      have names : dated.names = last.names := by cases first <;> rfl
      obtain ⟨⟨group, value, taken⟩, moment⟩ := dated
      obtain rfl : group = last.names := names
      rw [find?_add] at found
      rw [observe_add]
      rw [Diary.read] at reads
      cases here : placeOf? name last.names with
      | some other =>
          rw [here] at found
          cases found
          rw [if_pos (placeOf?_isSome_iff.mp (Option.isSome_of_eq_some here))]
          simp only [here, Stop.bind_eq_ok, Stop.pure_eq_ok, Prod.mk.injEq] at reads
          obtain ⟨part, splits, rfl, rfl⟩ := reads
          refine ⟨dates_add.mpr ⟨_, rest, ?_, others, rfl⟩, _, first,
            Stored.part_eq_ok.mp splits, rfl⟩
          cases first with
          | parameter come => exact .parameter come
          | started there => exact .started there
      | none =>
          rw [here] at found
          have outside : name ∉ last.names := fun inside => by
            have := placeOf?_isSome_iff.mpr inside
            rw [here] at this
            cases this
          rw [if_neg outside]
          simp only [here, Stop.bind_eq_ok, Stop.pure_eq_ok, Prod.mk.injEq] at reads
          obtain ⟨⟨_, remaining⟩, earlier, rfl, rfl⟩ := reads
          obtain ⟨follow, part⟩ := ih earlier found others
          exact ⟨dates_add.mpr ⟨_, remaining, first, follow, rfl⟩, part⟩

end Frame

/-- The task of a binding that no step has asked for ends with the arrival, whose value has as many
parts as the binding has names. -/
def Arrival.Settles (arrivals : List Arrival) (binding : TaskId × Nat) (given : Arrival) : Prop :=
  arrivals[binding.1]? = some given ∧ ∃ parts, given.value.split binding.2 = .ok parts

/-- Settling the diary is waiting for the bindings of the frame that no step has asked for. -/
theorem Frame.Dates.settle {frame : Frame} {diary : Diary} {last : Nat}
    (dates : frame.Dates arrivals now diary) (settles : diary.settle now = .ok last) :
    ∃ given, List.Forall₂ (Arrival.Settles arrivals) frame.unobserved given ∧
      last = latest now given := by
  obtain ⟨bindings⟩ := frame
  induction bindings using List.reverseRecOn generalizing diary last with
  | nil =>
      cases dates
      cases settles
      exact ⟨[], .nil, rfl⟩
  | append_singleton bindings bound ih =>
      change (Frame.add ⟨bindings⟩ bound).Dates arrivals now diary at dates
      obtain ⟨dated, rest, first, others, rfl⟩ := Frame.dates_add.mp dates
      rw [Diary.settle] at settles
      obtain ⟨moment, earlier, settles⟩ := Stop.bind_eq_ok.mp settles
      obtain ⟨given, all, rfl⟩ := ih earlier others
      have unobserved : Frame.unobserved ⟨bindings ++ [bound]⟩ =
          Frame.unobserved ⟨bindings⟩ ++ bound.unobserved?.toList := by
        rw [Frame.unobserved, List.filterMap_append, ← Frame.unobserved]
        cases found : bound.unobserved? <;> simp [found]
      rw [unobserved]
      cases first with
      | parameter come =>
          cases settles
          exact ⟨given, by simpa [Binding.unobserved?] using all, rfl⟩
      | @started names task observed value there =>
          cases observed with
          | true =>
              cases settles
              exact ⟨given, by simpa [Binding.unobserved?] using all, rfl⟩
          | false =>
              simp only [Bool.false_eq_true, if_false] at settles
              split at settles
              · rename_i parts splits
                cases settles
                refine ⟨given ++ [value], List.rel_append all (.cons ⟨there, parts, splits⟩ .nil), ?_⟩
                exact (latest_append_singleton _ _ _).symm
              · cases settles

/-- What is made of a value that is there. -/
def Continuation.Makes (machine : Machine) (source : Arrival) : Continuation → Arrival → Prop
  | .pick names place, given =>
    pick? names place source.value = some given.value ∧ given.moment = source.moment
  | .call callee, given => ∃ depth, machine.scheduleUpTo depth callee source = .ok given
  | .invoke primitive, given | .join primitive, given =>
    (primitive.action source.value).outcome = .ok given.value ∧
      given.moment = source.moment + (primitive.action source.value).delay

theorem Continuation.Makes.le {source given : Arrival} {next : Continuation}
    (makes : next.Makes machine source given) : source.moment ≤ given.moment := by
  cases next with
  | pick names place => exact makes.2.ge
  | call callee =>
      obtain ⟨depth, called⟩ := makes
      exact Machine.scheduleUpTo_lasts depth callee source given called
  | invoke primitive | join primitive =>
      rw [makes.2]
      exact Nat.le_add_right _ _

section

variable (machine) (arrivals) (now)

mutual

/-- Now the work is due with that value at that moment. What has its value already is due now. -/
def Work.Due : Work → Arrival → Prop
  | .done outcome, given => outcome = .ok given.value ∧ given.moment = now
  | .broken _, _ | .race _ _, _ => False
  | .fresh work, given => work.Due given
  | .wait task, given => ∃ awaited, arrivals[task]? = some awaited ∧
    given = ⟨awaited.value, max now awaited.moment⟩
  | .sleep wake outcome, given => outcome = .ok given.value ∧ given.moment = max now wake
  | .after source next, given => ∃ part, source.Due part ∧ next.Makes machine part given
  | .gather shape members, given => ∃ parts, dueAll members parts ∧
    given = ⟨shape.collect (parts.map Arrival.value), latest now parts⟩
  | .body frame current _ entries, given => ∃ diary part depth,
    frame.Dates arrivals now diary ∧ current.Due part ∧
      machine.scheduleBody (machine.scheduleUpTo depth) diary part entries = .ok given
  | .settle bindings result, given => ∃ parts,
    List.Forall₂ (Arrival.Settles arrivals) bindings parts ∧ given = ⟨result, latest now parts⟩

def Work.dueAll : List Work → List Arrival → Prop
  | [], [] => True
  | work :: works, given :: rest => work.Due given ∧ dueAll works rest
  | _, _ => False

end

end

namespace Work

theorem dueAll_iff {works : List Work} {given : List Arrival} :
    dueAll machine arrivals now works given ↔
      List.Forall₂ (Work.Due machine arrivals now) works given := by
  induction works generalizing given with
  | nil =>
      cases given with
      | nil => exact iff_of_true trivial .nil
      | cons first given => exact iff_of_false id nofun
  | cons work works ih =>
      cases given with
      | nil => exact iff_of_false id nofun
      | cons first given => rw [dueAll, ih, List.forall₂_cons]

theorem dueAll_append {first second : List Work} {given : List Arrival} :
    dueAll machine arrivals now (first ++ second) given ↔
      ∃ one other, dueAll machine arrivals now first one ∧
        dueAll machine arrivals now second other ∧ given = one ++ other := by
  induction first generalizing given with
  | nil =>
      constructor
      · intro due
        exact ⟨[], given, trivial, due, rfl⟩
      · intro found
        obtain ⟨one, other, none, due, rfl⟩ := found
        cases one with
        | nil => exact due
        | cons first one => cases none
  | cons work first ih =>
      cases given with
      | nil =>
          refine iff_of_false id fun found => ?_
          obtain ⟨one, other, due, _, same⟩ := found
          cases one with
          | nil => cases due
          | cons first one => cases same
      | cons head given =>
          rw [List.cons_append, dueAll, ih]
          constructor
          · intro due
            obtain ⟨here, one, other, before, after, rfl⟩ := due
            exact ⟨head :: one, other, ⟨here, before⟩, after, rfl⟩
          · intro due
            obtain ⟨one, other, before, after, same⟩ := due
            cases one with
            | nil => cases before
            | cons first one =>
                cases same
                exact ⟨before.1, one, other, before.2, after, rfl⟩

theorem dueAll_singleton {work : Work} {given : List Arrival} :
    dueAll machine arrivals now [work] given ↔
      ∃ one, work.Due machine arrivals now one ∧ given = [one] := by
  rw [dueAll_iff, List.forall₂_cons_left_iff]
  constructor
  · intro due
    obtain ⟨one, rest, here, none, rfl⟩ := due
    cases none
    exact ⟨one, here, rfl⟩
  · intro due
    obtain ⟨one, here, rfl⟩ := due
    exact ⟨one, [], here, .nil, rfl⟩

theorem dueAll_length {works : List Work} {given : List Arrival}
    (due : dueAll machine arrivals now works given) : given.length = works.length :=
  (dueAll_iff.mp due).length_eq.symm

theorem dueAll_getElem? {works : List Work} {given : List Arrival}
    (due : dueAll machine arrivals now works given) {index : Nat} {work : Work} {one : Arrival}
    (there : works[index]? = some work) (arrives : given[index]? = some one) :
    work.Due machine arrivals now one := by
  induction works generalizing index given with
  | nil => cases there
  | cons first works ih =>
      cases given with
      | nil => exact due.elim
      | cons head given =>
          cases index with
          | zero =>
              obtain rfl := Option.some.inj there
              obtain rfl := Option.some.inj arrives
              exact due.1
          | succ index => exact ih due.2 there arrives

mutual

/-- What is due does not depend on tasks that are started later. -/
theorem due_append (more : List Arrival) {given : Arrival} : ∀ work : Work,
    work.Due machine arrivals now given → work.Due machine (arrivals ++ more) now given
  | .done _, due | .sleep _ _, due => due
  | .broken _, due | .race _ _, due => due.elim
  | .fresh work, due => due_append more work due
  | .wait task, due => by
      obtain ⟨awaited, there, same⟩ := due
      have below := (List.getElem?_eq_some_iff.mp there).1
      exact ⟨awaited, (List.getElem?_append_left below).trans there, same⟩
  | .after source next, due => by
      obtain ⟨part, first, makes⟩ := due
      exact ⟨part, due_append more source first, makes⟩
  | .gather shape members, due => by
      obtain ⟨parts, all, same⟩ := due
      exact ⟨parts, dueAll_more more members all, same⟩
  | .body frame current _ entries, due => by
      obtain ⟨diary, part, depth, dates, first, rest⟩ := due
      exact ⟨diary, part, depth, dates.later more (Nat.le_refl _), due_append more current first,
        rest⟩
  | .settle bindings result, due => by
      obtain ⟨parts, all, same⟩ := due
      refine ⟨parts, all.imp ?_, same⟩
      intro binding awaited settles
      have below := (List.getElem?_eq_some_iff.mp settles.1).1
      exact ⟨(List.getElem?_append_left below).trans settles.1, settles.2⟩

theorem dueAll_more (more : List Arrival) : ∀ (works : List Work) {given : List Arrival},
    dueAll machine arrivals now works given → dueAll machine (arrivals ++ more) now works given
  | [], [], _ => trivial
  | [], _ :: _, due => due.elim
  | _ :: _, [], due => due.elim
  | work :: works, _ :: _, due => ⟨due_append more work due.1, dueAll_more more works due.2⟩

end

theorem Due.append {work : Work} {given : Arrival} (due : work.Due machine arrivals now given)
    (more : List Arrival) : work.Due machine (arrivals ++ more) now given :=
  due_append more work due

end Work

namespace Machine

variable {call : Callee → Arrival → Except Stop Arrival}

theorem scheduleAll_singleton {diary after : Diary} {step : Step} {given : List Arrival} :
    machine.scheduleAll call now diary [step] = .ok (given, after) ↔
      ∃ one, machine.schedule call now diary step = .ok (one, after) ∧ given = [one] := by
  simp only [scheduleAll, Stop.bind_eq_ok, Stop.pure_eq_ok, Prod.mk.injEq]
  constructor
  · intro gives
    obtain ⟨⟨one, middle⟩, first, _, rfl, rfl, rfl⟩ := gives
    exact ⟨one, first, rfl⟩
  · intro gives
    obtain ⟨one, first, rfl⟩ := gives
    exact ⟨(one, after), first, ([], after), rfl, rfl, rfl⟩

theorem scheduleBody_nil {diary : Diary} {first given : Arrival} :
    machine.scheduleBody call diary first [] = .ok given ↔
      ∃ moment, diary.settle first.moment = .ok moment ∧ given = ⟨first.value, moment⟩ := by
  simp only [scheduleBody, scheduleEntries, Stop.bind_eq_ok, Stop.pure_eq_ok]
  constructor
  · intro gives
    obtain ⟨_, rfl, moment, settles, rfl⟩ := gives
    exact ⟨moment, settles, rfl⟩
  · intro gives
    obtain ⟨moment, settles, rfl⟩ := gives
    exact ⟨_, rfl, moment, settles, rfl⟩

theorem scheduleBody_cons {diary : Diary} {first given : Arrival} {entry : Entry}
    {entries : List Entry} :
    machine.scheduleBody call diary first (entry :: entries) = .ok given ↔
      ∃ second middle,
        machine.scheduleEntry call first.moment entries.isEmpty diary entry.step =
            .ok (second, middle) ∧
          machine.scheduleBody call middle second entries = .ok given := by
  simp only [scheduleBody, scheduleEntries, Stop.bind_eq_ok]
  constructor
  · intro gives
    obtain ⟨last, ⟨⟨second, middle⟩, one, others⟩, rest⟩ := gives
    exact ⟨second, middle, one, last, others, rest⟩
  · intro gives
    obtain ⟨second, middle, one, last, others, rest⟩ := gives
    exact ⟨last, ⟨(second, middle), one, others⟩, rest⟩

end Machine

/-- What is set up is due with what is given, and the diary is that of the frame after it. `more`
says with what the tasks end that are started, and when. -/
structure SetUp.Due (machine : Machine) (arrivals : List Arrival) (now : Nat)
    (works started : List Work) (after : Frame) (given : List Arrival) (diary : Diary)
    (more : List Arrival) : Prop where
  frame : after.Dates (arrivals ++ more) now diary
  works : Work.dueAll machine (arrivals ++ more) now works given
  started : Work.dueAll machine (arrivals ++ more) now started more

namespace SetUp.Due

variable {works started : List Work} {work : Work} {after : Frame} {one : Arrival}
  {given more : List Arrival} {diary : Diary}

theorem still (frame : after.Dates arrivals now diary)
    (due : Work.dueAll machine arrivals now works given) :
    SetUp.Due machine arrivals now works [] after given diary [] := by
  refine ⟨?_, ?_, trivial⟩
  · rwa [List.append_nil]
  · rwa [List.append_nil]

theorem head (due : SetUp.Due machine arrivals now [work] started after [one] diary more) :
    work.Due machine (arrivals ++ more) now one := due.works.1

theorem map {other : Work} {result : Arrival}
    (due : SetUp.Due machine arrivals now works started after given diary more)
    (whole : other.Due machine (arrivals ++ more) now result) :
    SetUp.Due machine arrivals now [other] started after [result] diary more :=
  ⟨due.frame, ⟨whole, trivial⟩, due.started⟩

theorem append {others rest : List Work} {last : Frame} {middle final : Diary}
    {second later : List Arrival}
    (due : SetUp.Due machine arrivals now works started after given middle more)
    (follows : SetUp.Due machine (arrivals ++ more) now others rest last second final later) :
    SetUp.Due machine arrivals now (works ++ others) (started ++ rest) last (given ++ second) final
      (more ++ later) := by
  obtain ⟨frame, dues, begun⟩ := follows
  refine ⟨?_, Work.dueAll_append.mpr ⟨given, second, ?_, ?_, rfl⟩,
    Work.dueAll_append.mpr ⟨more, later, ?_, ?_, rfl⟩⟩
  · rwa [← List.append_assoc]
  · rw [← List.append_assoc]
    exact Work.dueAll_more later works due.works
  · rwa [← List.append_assoc]
  · rw [← List.append_assoc]
    exact Work.dueAll_more later started due.started
  · rwa [← List.append_assoc]

/-- The task of what is set up is started. -/
theorem start (due : SetUp.Due machine arrivals now [work] started after [one] diary more) :
    SetUp.Due machine arrivals now [] (started ++ [.fresh work]) after [] diary (more ++ [one]) ∧
      (arrivals ++ (more ++ [one]))[arrivals.length + started.length]? = some one := by
  have length : more.length = started.length := Work.dueAll_length due.started
  have there : (arrivals ++ (more ++ [one]))[arrivals.length + started.length]? = some one := by
    rw [← length, ← List.length_append, ← List.append_assoc, List.getElem?_concat_length]
  refine ⟨⟨?_, trivial, ?_⟩, there⟩
  · rw [← List.append_assoc]
    exact due.frame.later [one] (Nat.le_refl now)
  · rw [← List.append_assoc]
    exact Work.dueAll_append.mpr ⟨more, [one], Work.dueAll_more [one] started due.started,
      ⟨due.head.append [one], trivial⟩, rfl⟩

/-- The task of what is set up becomes that of a binding. -/
theorem bind (due : SetUp.Due machine arrivals now [work] started after [one] diary more)
    (names : List Name) (observed : Bool) :
    SetUp.Due machine arrivals now [] (started ++ [.fresh work])
      (after.add (.started names (arrivals.length + started.length) observed)) []
      (⟨⟨names, one.value, observed⟩, one.moment⟩ :: diary) (more ++ [one]) := by
  obtain ⟨begun, there⟩ := due.start
  exact ⟨Frame.dates_add.mpr ⟨_, diary, .started there, begun.frame, rfl⟩, trivial, begun.started⟩

end SetUp.Due

/-- A task that is there later than now is waited for. -/
theorem Work.Due.wait {task : TaskId} {given : Arrival} (there : arrivals[task]? = some given)
    (le : now ≤ given.moment) : (Work.wait task).Due machine arrivals now given := by
  refine ⟨given, there, ?_⟩
  rw [Nat.max_eq_right le]

/-- The operands of an operator that waits for both are there when both are. -/
theorem Operator.await_due {operator : Operator} (both : operator ≠ .waitEither)
    {left right : TaskId} {one two : Arrival} (first : arrivals[left]? = some one)
    (second : arrivals[right]? = some two) (le : now ≤ one.moment) (later : now ≤ two.moment) :
    (operator.await left right).Due machine arrivals now
      ⟨.parallel [one.value, two.value], latest now [one, two]⟩ := by
  have gathered : (Work.gather .operands [.wait left, .wait right]).Due machine arrivals now
      ⟨.parallel [one.value, two.value], latest now [one, two]⟩ :=
    ⟨[one, two], ⟨.wait first le, .wait second later, trivial⟩, rfl⟩
  cases operator with
  | waitEither => exact absurd rfl both
  | waitBoth => exact gathered
  | combine => exact gathered

section

variable {footing : Footing machine} {depth : Nat}

/-- What steps are set up to is due as scheduled. -/
theorem SetsUp.due (calm : ¬footing.races) {frame after : Frame} {next : Nat} {steps : List Step}
    {works started : List Work}
    (sets : SetsUp machine.registry frame next steps works started after)
    (needs : ∀ need ∈ stepsNeeds steps, footing.allowed need) (length : arrivals.length = next)
    {diary last : Diary} (dates : frame.Dates arrivals now diary) {given : List Arrival}
    (gives : machine.scheduleAll (machine.scheduleUpTo depth) now diary steps =
      .ok (given, last)) :
    ∃ more, SetUp.Due machine arrivals now works started after given last more := by
  have lasts := @Machine.scheduleUpTo_lasts machine depth
  induction sets generalizing arrivals diary given last with
  | nil =>
      cases gives
      exact ⟨[], .still dates (trivial : Work.dueAll machine arrivals now [] [])⟩
  | cons _ _ first rest =>
      rw [stepsNeeds_cons, List.forall_mem_append] at needs
      simp only [Machine.scheduleAll, Stop.bind_eq_ok, Stop.pure_eq_ok, Prod.mk.injEq] at gives
      obtain ⟨⟨one, middle⟩, begins, ⟨others, final⟩, follows, rfl, rfl⟩ := gives
      obtain ⟨more, due⟩ := first needs.1 length dates
        (Machine.scheduleAll_singleton.mpr ⟨one, begins, rfl⟩)
      obtain ⟨later, dues⟩ := rest needs.2
        (by rw [List.length_append, length, Work.dueAll_length due.started]) due.frame follows
      exact ⟨more ++ later, due.append dues⟩
  | @constant _ _ literal value constant =>
      obtain ⟨one, single, rfl⟩ := Machine.scheduleAll_singleton.mp gives
      cases literal with
      | tablet fields => cases constant
      | _ =>
          cases constant
          cases single
          exact ⟨[], .still dates (Work.dueAll_singleton.mpr ⟨_, ⟨rfl, rfl⟩, rfl⟩)⟩
  | tablet _ ih =>
      rw [stepsNeeds_tablet] at needs
      obtain ⟨one, single, rfl⟩ := Machine.scheduleAll_singleton.mp gives
      simp only [Machine.schedule, Machine.scheduleLiteral, Machine.scheduleFields_eq,
        Stop.bind_eq_ok, Stop.pure_eq_ok, Prod.mk.injEq] at single
      obtain ⟨⟨members, final⟩, all, rfl, rfl⟩ := single
      obtain ⟨more, due⟩ := ih needs length dates all
      exact ⟨more, due.map ⟨members, due.works, rfl⟩⟩
  | @bind _ _ names _ _ _ _ _ ih =>
      obtain ⟨one, single, rfl⟩ := Machine.scheduleAll_singleton.mp gives
      simp only [Machine.schedule, Stop.bind_eq_ok, Stop.pure_eq_ok, Prod.mk.injEq] at single
      obtain ⟨⟨one, final⟩, part, rfl, rfl⟩ := single
      obtain ⟨more, due⟩ := ih needs length dates
        (Machine.scheduleAll_singleton.mpr ⟨one, part, rfl⟩)
      subst length
      exact ⟨more ++ [one], (due.bind names true).map
        (.wait due.start.2 (Machine.schedule_le lasts _ part))⟩
  | @call _ _ callee _ _ _ _ _ ih =>
      rw [stepsNeeds_call, List.forall_mem_cons] at needs
      obtain ⟨one, single, rfl⟩ := Machine.scheduleAll_singleton.mp gives
      simp only [Machine.schedule, Stop.bind_eq_ok, Stop.pure_eq_ok, Prod.mk.injEq] at single
      obtain ⟨⟨argument, final⟩, part, result, called, rfl, rfl⟩ := single
      obtain ⟨more, due⟩ := ih needs.2 length dates
        (Machine.scheduleAll_singleton.mpr ⟨argument, part, rfl⟩)
      exact ⟨more, due.map ⟨argument, due.head, depth, called⟩⟩
  | @invoke _ _ name _ primitive _ _ _ found _ ih =>
      rw [stepsNeeds_invoke, List.forall_mem_cons] at needs
      obtain ⟨one, single, rfl⟩ := Machine.scheduleAll_singleton.mp gives
      simp only [Machine.schedule, Stop.bind_eq_ok, Stop.pure_eq_ok, Prod.mk.injEq] at single
      obtain ⟨⟨argument, final⟩, part, result, answers, rfl, rfl⟩ := single
      obtain ⟨other, there, answers⟩ := Machine.answer_eq_ok.mp answers
      obtain rfl := Option.some.inj (found.symm.trans there)
      obtain ⟨more, due⟩ := ih needs.2 length dates
        (Machine.scheduleAll_singleton.mpr ⟨argument, part, rfl⟩)
      exact ⟨more, due.map ⟨argument, due.head, answers⟩⟩
  | @operands _ _ name left right primitive operator _ _ started others _ _ found performs _ _
      first second =>
      rw [stepsNeeds_operands, List.forall_mem_cons, List.forall_mem_append] at needs
      obtain ⟨allowed, ofLeft, ofRight⟩ := needs
      obtain ⟨one, single, rfl⟩ := Machine.scheduleAll_singleton.mp gives
      simp only [Machine.schedule, Machine.scheduleAll, Stop.bind_eq_ok, Stop.pure_eq_ok,
        Prod.mk.injEq] at single
      obtain ⟨⟨_, _⟩, ⟨⟨_, _⟩, ⟨⟨one, middle⟩, begins, ⟨_, _⟩, ⟨⟨two, final⟩, ends, _, rfl, rfl, rfl⟩,
        rfl, rfl⟩, rfl, rfl⟩, result, answers, rfl, rfl⟩ := single
      obtain ⟨other, there, answers⟩ := Machine.answer_eq_ok.mp answers
      obtain rfl := Option.some.inj (found.symm.trans there)
      obtain ⟨more, due⟩ := first ofLeft length dates
        (Machine.scheduleAll_singleton.mpr ⟨one, begins, rfl⟩)
      subst length
      obtain ⟨begun, here⟩ := due.start
      have count : (arrivals ++ (more ++ [one])).length = arrivals.length + started.length + 1 := by
        simp only [List.length_append, List.length_singleton, Work.dueAll_length due.started,
          Nat.add_assoc]
      obtain ⟨later, follows⟩ := second ofRight count begun.frame
        (Machine.scheduleAll_singleton.mpr ⟨two, ends, rfl⟩)
      obtain ⟨finished, there⟩ := follows.start
      rw [count] at there
      have whole := begun.append finished
      rw [List.append_assoc, List.singleton_append] at whole
      have below := (List.getElem?_eq_some_iff.mp here).1
      have both : operator ≠ .waitEither := by
        rintro rfl
        exact calm (footing.racing name primitive allowed found performs)
      have awaits := @Operator.await_due machine _ now operator both _ _ one two
        ((List.getElem?_append_left below).trans here) there (Machine.schedule_le lasts _ begins)
        (Machine.schedule_le lasts _ ends)
      rw [List.append_assoc] at awaits
      exact ⟨_, whole.map ⟨_, awaits, answers⟩⟩
  | tuple _ ih =>
      rw [stepsNeeds_tuple] at needs
      obtain ⟨one, single, rfl⟩ := Machine.scheduleAll_singleton.mp gives
      simp only [Machine.schedule, Stop.bind_eq_ok, Stop.pure_eq_ok, Prod.mk.injEq] at single
      obtain ⟨⟨members, final⟩, all, rfl, rfl⟩ := single
      obtain ⟨more, due⟩ := ih needs length dates all
      exact ⟨more, due.map ⟨members, due.works, rfl⟩⟩
  | @parameter frame _ name _ value place found =>
      obtain ⟨one, single, rfl⟩ := Machine.scheduleAll_singleton.mp gives
      obtain ⟨follow, dated, first, part, moment⟩ := Frame.Dates.read found dates single
      rw [Frame.observe_parameter found] at follow
      cases first with
      | parameter come =>
          rw [Nat.max_eq_left come] at moment
          have same := (pick?_one place value).symm.trans part
          exact ⟨[], .still follow (Work.dueAll_singleton.mpr
            ⟨one, ⟨congrArg Except.ok (Option.some.inj same), moment⟩, rfl⟩)⟩
  | read found =>
      obtain ⟨one, single, rfl⟩ := Machine.scheduleAll_singleton.mp gives
      obtain ⟨follow, dated, first, part, moment⟩ := Frame.Dates.read found dates single
      cases first with
      | started there =>
          exact ⟨[], .still follow (Work.dueAll_singleton.mpr
            ⟨one, ⟨_, ⟨_, there, rfl⟩, part, moment⟩, rfl⟩)⟩

theorem SetsUpEntry.due (calm : ¬footing.races) {frame after : Frame} {next : Nat} {isLast : Bool}
    {step : Step} {work : Work} {started : List Work}
    (sets : SetsUpEntry machine.registry frame next isLast step work started after)
    (needs : ∀ need ∈ stepsNeeds [step], footing.allowed need) (length : arrivals.length = next)
    {diary last : Diary} (dates : frame.Dates arrivals now diary) {given : Arrival}
    (gives : machine.scheduleEntry (machine.scheduleUpTo depth) now isLast diary step =
      .ok (given, last)) :
    ∃ more, SetUp.Due machine arrivals now [work] started after [given] last more := by
  cases sets with
  | @bind names step work started after sets =>
      simp only [Machine.scheduleEntry, Stop.bind_eq_ok] at gives
      obtain ⟨⟨one, middle⟩, part, rest⟩ := gives
      obtain ⟨more, due⟩ := sets.due calm needs length dates
        (Machine.scheduleAll_singleton.mpr ⟨one, part, rfl⟩)
      subst length
      cases isLast with
      | true =>
          cases rest
          exact ⟨more ++ [one], (due.bind names true).map
            (.wait due.start.2 (Machine.schedule_le (Machine.scheduleUpTo_lasts depth) _ part))⟩
      | false =>
          cases rest
          exact ⟨more ++ [one], (due.bind names false).map ⟨rfl, rfl⟩⟩
  | other different sets =>
      have one : machine.schedule (machine.scheduleUpTo depth) now diary step =
          .ok (given, last) := by
        cases step with
        | bind names inner => exact absurd rfl (different names inner)
        | _ => exact gives
      exact sets.due calm needs length dates (Machine.scheduleAll_singleton.mpr ⟨given, one, rfl⟩)

/-- A routine that is entered is due as scheduled. -/
theorem enter_due {routine : Routine} {argument given : Arrival}
    (gives : machine.scheduleRoutine (machine.scheduleUpTo depth) routine argument = .ok given) :
    (enter routine argument.value).work.Due machine arrivals argument.moment given := by
  rw [Machine.scheduleRoutine] at gives
  obtain ⟨store, bound, body⟩ := Stop.bind_eq_ok.mp gives
  rw [Host.bindParameters] at bound
  rw [enter]
  split
  · rename_i none
    rw [if_pos none] at bound
    cases bound
    exact ⟨_, ⟨.unit, argument.moment⟩, depth, .nil, ⟨rfl, rfl⟩, body⟩
  · rename_i some
    rw [if_neg some] at bound
    split
    · rename_i values same splits
      rw [splits] at bound
      cases bound
      exact ⟨_, ⟨.unit, argument.moment⟩, depth, Frame.dates_ofParameters _ _ _, ⟨rfl, rfl⟩, body⟩
    · rename_i failure splits
      rw [splits] at bound
      cases bound

end

/-- The task ends with the arrival: it is due with it, or has ended with it. -/
def Work.Meets (machine : Machine) (arrivals : List Arrival) (now : Nat) (work : Work)
    (given : Arrival) : Prop :=
  work.Due machine arrivals now given ∨ work = .done (.ok given.value) ∧ given.moment ≤ now

/-- Each task ends as the arrivals say. -/
structure World.Punctual (machine : Machine) (arrivals : List Arrival) (world : World) : Prop where
  length : arrivals.length = world.tasks.length
  meets : ∀ (task : Nat) (work : Work) (given : Arrival), world.tasks[task]? = some work →
    arrivals[task]? = some given → work.Meets machine arrivals world.clock given

variable {world : World}

/-- A task that has an outcome has the value by now. -/
theorem World.Punctual.done (punctual : world.Punctual machine arrivals) {task : TaskId}
    {outcome : Outcome} {given : Arrival} (there : world.tasks[task]? = some (.done outcome))
    (arrives : arrivals[task]? = some given) :
    outcome = .ok given.value ∧ given.moment ≤ world.clock := by
  rcases punctual.meets task _ given there arrives with due | ⟨same, come⟩
  · exact ⟨due.1, due.2.le⟩
  · cases same
    exact ⟨rfl, come⟩

theorem Work.dueAll_collected {members : List Work} {values : List Value} {parts : List Arrival}
    (collected : members.mapM Work.value? = some values)
    (due : dueAll machine arrivals now members parts) :
    parts.map Arrival.value = values ∧ latest now parts = now := by
  induction members generalizing values parts with
  | nil =>
      cases parts with
      | nil =>
          cases collected
          exact ⟨rfl, rfl⟩
      | cons part parts => exact due.elim
  | cons member members ih =>
      cases parts with
      | nil => exact due.elim
      | cons part parts =>
          rw [List.mapM_cons] at collected
          simp only [Option.bind_eq_bind, Option.bind_eq_some_iff] at collected
          obtain ⟨value, first, others, rest, same⟩ := collected
          cases same
          obtain ⟨here, later⟩ := due
          obtain ⟨rfl, all⟩ := ih rest later
          cases member with
          | done outcome =>
              obtain ⟨rfl, moment⟩ := here
              obtain rfl := Option.some.inj first
              refine ⟨rfl, ?_⟩
              rw [latest_cons, all, moment, Nat.max_self]
          | _ => cases first

/-- Members that are due do not fail. -/
theorem Work.dueAll_unspoiled {members : List Work} {failed : Work} {parts : List Arrival}
    (due : dueAll machine arrivals now members parts) : Work.spoiled? members ≠ some failed := by
  intro spoiled
  obtain ⟨member, inside, fails⟩ := Moves.spoiled_mem spoiled
  obtain ⟨before, after, rfl⟩ := List.append_of_mem inside
  obtain ⟨_, others, _, rest, rfl⟩ := dueAll_append.mp due
  cases others with
  | nil => exact rest
  | cons part others =>
      have here := rest.1
      cases member with
      | done outcome =>
          obtain ⟨rfl, _⟩ := here
          cases fails
      | broken defect => exact here
      | _ => cases fails

/-- The change of a work keeps what the work is due with. -/
def Change.Due (machine : Machine) (arrivals : List Arrival) (now : Nat) (change : Change)
    (given : Arrival) : Prop :=
  ∃ more, change.work.Due machine (arrivals ++ more) now given ∧
    Work.dueAll machine (arrivals ++ more) now change.started more

theorem Change.Due.quiet {change : Change} {given : Arrival} (started : change.started = [])
    (due : change.work.Due machine arrivals now given) :
    change.Due machine arrivals now given := by
  refine ⟨[], ?_, ?_⟩
  · rwa [List.append_nil]
  · rw [started]
    trivial

theorem Change.Due.within {change : Change} {part given : Arrival} {context : Work → Work}
    (due : change.Due machine arrivals now part)
    (whole : ∀ more, change.work.Due machine (arrivals ++ more) now part →
      (context change.work).Due machine (arrivals ++ more) now given) :
    (change.within context).Due machine arrivals now given := by
  obtain ⟨more, due, started⟩ := due
  exact ⟨more, whole more due, started⟩

theorem Machine.perform_due {clock : Nat} {primitive : Primitive} {events : List Event}
    {value : Value} {given : Arrival}
    (outcome : (primitive.action value).outcome = .ok given.value)
    (moment : given.moment = clock + (primitive.action value).delay) :
    (goOn.perform clock value primitive events).work.Due machine arrivals clock given := by
  simp only [goOn.perform]
  split
  · rename_i none
    rw [none, Nat.add_zero] at moment
    exact ⟨outcome, moment⟩
  · refine ⟨outcome, ?_⟩
    rw [Nat.max_eq_right (Nat.le_add_right _ _), moment]

theorem Machine.goOn_due {source given : Arrival} {next : Continuation}
    (makes : next.Makes machine source given) :
    (machine.goOn source.moment source.value next).Due machine arrivals source.moment given := by
  refine .quiet (Moves.goOn_started _ _ _) ?_
  cases next with
  | pick names place =>
      obtain ⟨part, moment⟩ := makes
      rw [pick?] at part
      rw [goOn]
      split
      · rename_i values same splits
        rw [splits] at part
        exact ⟨congrArg Except.ok (Option.some.inj part), moment⟩
      · rename_i failure splits
        rw [splits] at part
        cases part
  | call callee =>
      obtain ⟨depth, called⟩ := makes
      cases depth with
      | zero => cases called
      | succ depth =>
          rw [scheduleUpTo] at called
          rw [goOn]
          split at called
          · cases called
          · rename_i routine found
            rw [found]
            exact enter_due called
  | invoke primitive => exact perform_due makes.1 makes.2
  | join primitive => exact perform_due makes.1 makes.2

/-- Moves keep what works are due with. -/
theorem Moves.due {footing : Footing machine} {waits own : TaskId → Prop} (calm : ¬footing.races)
    {work : Work} {change : Change} (moves : Moves machine world work change)
    (sound : work.Sound footing waits own) (unbroken : world.Unbroken)
    (punctual : world.Punctual machine arrivals) {given : Arrival}
    (due : work.Due machine arrivals world.clock given) :
    change.Due machine arrivals world.clock given := by
  induction moves generalizing given with
  | fresh => exact .quiet rfl due
  | wait there ends =>
      obtain ⟨outcome, rfl⟩ := ended_done unbroken there ends
      obtain ⟨awaited, arrives, rfl⟩ := due
      obtain ⟨rfl, come⟩ := punctual.done there arrives
      exact .quiet rfl ⟨rfl, Nat.max_eq_left come⟩
  | race won => exact absurd sound.1 calm
  | wake come =>
      obtain ⟨rfl, moment⟩ := due
      rw [Nat.max_eq_left come] at moment
      exact .quiet rfl ⟨rfl, moment⟩
  | goOn =>
      obtain ⟨source, ⟨same, moment⟩, makes⟩ := due
      cases same
      rw [← moment]
      exact Machine.goOn_due makes
  | fail =>
      obtain ⟨_, ⟨fails, _⟩, _⟩ := due
      cases fails
  | breaks =>
      obtain ⟨_, broken, _⟩ := due
      exact broken.elim
  | source _ ih =>
      obtain ⟨part, first, makes⟩ := due
      exact (ih sound.1 first).within fun more first => ⟨part, first, makes⟩
  | spoil spoiled =>
      obtain ⟨parts, all, _⟩ := due
      exact absurd spoiled (Work.dueAll_unspoiled all)
  | collect collected =>
      obtain ⟨parts, all, rfl⟩ := due
      obtain ⟨rfl, moment⟩ := Work.dueAll_collected collected all
      exact .quiet rfl ⟨rfl, moment⟩
  | member _ ih =>
      obtain ⟨parts, all, rfl⟩ := due
      rw [Work.Sound, Work.soundAll_iff, List.forall_mem_append, List.forall_mem_cons] at sound
      obtain ⟨before, others, earlier, rest, rfl⟩ := Work.dueAll_append.mp all
      cases others with
      | nil => exact rest.elim
      | cons part after =>
          refine (ih sound.2.1 rest.1).within fun more first => ?_
          refine ⟨before ++ part :: after, Work.dueAll_append.mpr ⟨before, part :: after,
            Work.dueAll_more more _ earlier, ⟨first, Work.dueAll_more more _ rest.2⟩, rfl⟩, rfl⟩
  | last =>
      obtain ⟨diary, part, depth, dates, ⟨same, now⟩, body⟩ := due
      cases same
      obtain ⟨moment, settles, rfl⟩ := Machine.scheduleBody_nil.mp body
      rw [now] at settles
      obtain ⟨parts, all, rfl⟩ := dates.settle settles
      exact .quiet rfl ⟨parts, all, rfl⟩
  | @begin frame value index entry entries =>
      obtain ⟨diary, part, depth, dates, ⟨same, now⟩, body⟩ := due
      obtain ⟨work, tasks, after, events, begins, sets, _⟩ :=
        Machine.begin_eq sound.2.2 world.tasks.length index
      obtain ⟨second, middle, one, rest⟩ := Machine.scheduleBody_cons.mp body
      rw [now] at one
      obtain ⟨more, begun⟩ := sets.due calm (Supported.cons.mp sound.2.2).1.needs punctual.length
        dates one
      rw [begins]
      exact ⟨more, ⟨middle, second, depth, begun.frame, begun.head, rest⟩, begun.started⟩
  | bodyFails =>
      obtain ⟨_, _, _, _, ⟨fails, _⟩, _⟩ := due
      cases fails
  | bodyBreaks =>
      obtain ⟨_, _, _, _, broken, _⟩ := due
      exact broken.elim
  | current _ ih =>
      obtain ⟨diary, part, depth, dates, first, body⟩ := due
      exact (ih sound.2.1 first).within fun more first =>
        ⟨diary, part, depth, dates.later more (Nat.le_refl _), first, body⟩
  | settled =>
      obtain ⟨parts, all, rfl⟩ := due
      cases all
      exact .quiet rfl ⟨rfl, rfl⟩
  | @settle task count bindings result other change there settles =>
      obtain ⟨parts, all, rfl⟩ := due
      cases all with
      | @cons _ first _ rest settled others =>
          obtain ⟨arrives, values, splits⟩ := settled
          cases other with
          | done outcome =>
              obtain ⟨rfl, come⟩ := punctual.done there arrives
              simp only [Machine.settle, splits] at settles
              cases settles
              refine .quiet rfl ⟨rest, others, ?_⟩
              rw [latest_cons, Nat.max_eq_right (come.trans (le_latest _ _))]
          | broken defect => exact absurd there (unbroken task defect)
          | _ => cases settles

end Runbook
