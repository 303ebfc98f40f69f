import Runbook.Proofs.Evaluation.Evaluates

/-!
When a routine has its value.

The schedule of a routine is its evaluation from left to right with a moment beside each value. A
literal is there when it is set up. A read has to wait for the binding, several steps that are
performed together for the last of them, a primitive for its argument, and it takes its delay. What
is called begins when its argument is there. The next entry of a sequence is set up when the entry
before it has its value, and at once after a binding. A body ends when its last entry and all
bindings that no step has asked for have ended.

Schedules know nothing of tasks. Whatever the evaluation gives, the schedule gives too.
-/
namespace Runbook

/-- A value, and the moment from which on it is there. -/
structure Arrival where
  value : Value
  moment : Nat
  deriving DecidableEq, Repr

/-- The moment at which all of them are there, if they are awaited from `now` on. -/
def latest (now : Nat) (arrivals : List Arrival) : Nat :=
  arrivals.foldl (fun moment arrival => max moment arrival.moment) now

theorem latest_max (now moment : Nat) (arrivals : List Arrival) :
    latest (max now moment) arrivals = max now (latest moment arrivals) := by
  induction arrivals generalizing moment with
  | nil => rfl
  | cons first arrivals ih =>
      simp only [latest, List.foldl_cons] at ih ⊢
      rw [Nat.max_assoc, ih]

theorem latest_cons (now : Nat) (first : Arrival) (arrivals : List Arrival) :
    latest now (first :: arrivals) = max first.moment (latest now arrivals) := by
  rw [latest, List.foldl_cons, ← latest, Nat.max_comm, latest_max]

theorem latest_append_singleton (now : Nat) (arrivals : List Arrival) (last : Arrival) :
    latest now (arrivals ++ [last]) = max (latest now arrivals) last.moment := by
  rw [latest, List.foldl_append]
  rfl

theorem le_latest (now : Nat) (arrivals : List Arrival) : now ≤ latest now arrivals := by
  induction arrivals with
  | nil => exact Nat.le_refl _
  | cons first arrivals ih =>
      rw [latest_cons]
      exact ih.trans (Nat.le_max_right _ _)

theorem le_latest_of_mem {now : Nat} {arrivals : List Arrival} {arrival : Arrival}
    (member : arrival ∈ arrivals) : arrival.moment ≤ latest now arrivals := by
  induction arrivals with
  | nil => cases member
  | cons first arrivals ih =>
      rw [latest_cons]
      rcases List.mem_cons.mp member with rfl | member
      · exact Nat.le_max_left _ _
      · exact (ih member).trans (Nat.le_max_right _ _)

/-- A stored value, and the moment from which on it is there. A value that is taken as a whole
counts as asked for: what takes it is there no sooner. -/
structure Dated extends Stored where
  moment : Nat
  deriving DecidableEq, Repr

/-- Dated values, the last one first. -/
abbrev Diary := List Dated

/-- The diary of values that are there from that moment on. -/
def Store.since (moment : Nat) (store : Store) : Diary := store.map fun stored => ⟨stored, moment⟩

theorem Store.since_stored (moment : Nat) (store : Store) :
    (store.since moment).map Dated.toStored = store := by
  rw [since, List.map_map]
  exact List.map_id store

namespace Diary

/-- Reads a name: what was stored last under it is asked for, and waited for. -/
def read (now : Nat) (name : Name) : Diary → Except Stop (Arrival × Diary)
  | [] => .error (.broken (.unboundName name))
  | dated :: diary =>
    match placeOf? name dated.names with
    | some place => do
      let value ← dated.part place
      pure (⟨value, max now dated.moment⟩, { dated with taken := true } :: diary)
    | none => do
      let (given, diary) ← read now name diary
      pure (given, dated :: diary)

/-- Splits the values that have not been asked for. The moment at which all of them are there, if
they are awaited from `now` on. -/
def settle (now : Nat) : Diary → Except Stop Nat
  | [] => pure now
  | dated :: diary => do
    let moment ← settle now diary
    if dated.taken then pure moment
    else
      match dated.value.split dated.names.length with
      | .ok _ => pure (max moment dated.moment)
      | .error failure => throw (.failed failure)

end Diary

namespace Machine

variable (machine : Machine)

/-- What the primitive of that name gives, after its delay. -/
def answer (name : Identifier) (argument : Arrival) : Except Stop Arrival :=
  match machine.registry.lookup name with
  | none => .error (.broken (.unknownPrimitive name))
  | some primitive =>
    let response := primitive.action argument.value
    match response.outcome with
    | .ok value => .ok ⟨value, argument.moment + response.delay⟩
    | .error failure => .error (.failed failure)

section

variable (call : Callee → Arrival → Except Stop Arrival) (now : Nat)

mutual

/-- What a step gives that is set up at the moment `now`, and the diary after it. -/
def schedule (diary : Diary) : Step → Except Stop (Arrival × Diary)
  | .literal literal => scheduleLiteral diary literal
  | .bind names step => do
    let (given, diary) ← schedule diary step
    pure (given, ⟨⟨names, given.value, true⟩, given.moment⟩ :: diary)
  | .call callee argument => do
    let (given, diary) ← schedule diary argument
    let result ← call callee given
    pure (result, diary)
  | .invoke name argument => do
    let (given, diary) ← schedule diary argument
    let result ← machine.answer name given
    pure (result, diary)
  | .tuple steps => do
    let (members, diary) ← scheduleAll diary steps
    pure (⟨.ofResults (members.map Arrival.value), latest now members⟩, diary)
  | .read name => diary.read now name

def scheduleLiteral (diary : Diary) : Literal → Except Stop (Arrival × Diary)
  | .unit => pure (⟨.unit, now⟩, diary)
  | .text text => pure (⟨.text text, now⟩, diary)
  | .quantity quantity => pure (⟨.quantity quantity, now⟩, diary)
  | .tablet fields => do
    let (members, diary) ← scheduleFields diary fields
    let values := members.map Arrival.value
    pure (⟨.tablet ((fields.map Prod.fst).zip values), latest now members⟩, diary)

def scheduleAll (diary : Diary) : List Step → Except Stop (List Arrival × Diary)
  | [] => pure ([], diary)
  | step :: steps => do
    let (member, diary) ← schedule diary step
    let (members, diary) ← scheduleAll diary steps
    pure (member :: members, diary)

def scheduleFields (diary : Diary) : List (Label × Step) → Except Stop (List Arrival × Diary)
  | [] => pure ([], diary)
  | (_, step) :: fields => do
    let (member, diary) ← schedule diary step
    let (members, diary) ← scheduleFields diary fields
    pure (member :: members, diary)

end

/-- What an entry gives that is set up at the moment `now`. A binding that is not the last entry is
waited for only by those who ask for it. -/
def scheduleEntry (isLast : Bool) (diary : Diary) : Step → Except Stop (Arrival × Diary)
  | .bind names step => do
    let (given, diary) ← machine.schedule call now diary step
    if isLast then pure (given, ⟨⟨names, given.value, true⟩, given.moment⟩ :: diary)
    else pure (⟨.unit, now⟩, ⟨⟨names, given.value, false⟩, given.moment⟩ :: diary)
  | step => machine.schedule call now diary step

end

section

variable (call : Callee → Arrival → Except Stop Arrival)

/-- What the last entry gives, or what is given if there is none. Each entry is set up when that
before it is there. -/
def scheduleEntries (diary : Diary) (given : Arrival) :
    List Entry → Except Stop (Arrival × Diary)
  | [] => pure (given, diary)
  | entry :: entries => do
    let (given, diary) ← machine.scheduleEntry call given.moment entries.isEmpty diary entry.step
    scheduleEntries diary given entries

/-- What a body gives after its diary has been begun. -/
def scheduleBody (diary : Diary) (given : Arrival) (entries : List Entry) :
    Except Stop Arrival := do
  let (given, diary) ← machine.scheduleEntries call diary given entries
  let moment ← diary.settle given.moment
  pure ⟨given.value, moment⟩

/-- What a routine gives that begins when its argument is there. -/
def scheduleRoutine (routine : Routine) (argument : Arrival) : Except Stop Arrival := do
  let store ← Host.bindParameters routine.parameters argument.value
  machine.scheduleBody call (store.since argument.moment) ⟨.unit, argument.moment⟩ routine.sequence

end

/-- Calls a routine of the library, in which calls are nested at most so deep. -/
def scheduleUpTo : Nat → Callee → Arrival → Except Stop Arrival
  | 0, _, _ => .error .exhausted
  | depth + 1, callee, argument =>
    match machine.library.get? callee with
    | none => .error (.broken (.missingRoutine callee))
    | some routine => machine.scheduleRoutine (scheduleUpTo depth) routine argument

/-- What a run of the routine gives, in which calls are nested at most so deep, and when. -/
def timetable (depth : Nat) (routine : Routine) (argument : Value) : Except Stop Arrival :=
  machine.scheduleRoutine (machine.scheduleUpTo depth) routine ⟨argument, 0⟩

end Machine

theorem Diary.read_le {now : Nat} {name : Name} {diary after : Diary} {given : Arrival}
    (reads : diary.read now name = .ok (given, after)) : now ≤ given.moment := by
  induction diary generalizing after with
  | nil => cases reads
  | cons dated diary ih =>
      rw [read] at reads
      split at reads
      · simp only [Stop.bind_eq_ok, Stop.pure_eq_ok, Prod.mk.injEq] at reads
        obtain ⟨value, _, rfl, _⟩ := reads
        exact Nat.le_max_left _ _
      · simp only [Stop.bind_eq_ok, Stop.pure_eq_ok, Prod.mk.injEq] at reads
        obtain ⟨⟨other, rest⟩, earlier, rfl, _⟩ := reads
        exact ih earlier

theorem Diary.settle_le {now last : Nat} {diary : Diary} (settles : diary.settle now = .ok last) :
    now ≤ last := by
  induction diary generalizing last with
  | nil =>
      cases settles
      exact Nat.le_refl _
  | cons dated diary ih =>
      rw [settle] at settles
      obtain ⟨moment, earlier, rest⟩ := Stop.bind_eq_ok.mp settles
      split at rest
      · cases rest
        exact ih earlier
      · split at rest
        · cases rest
          exact (ih earlier).trans (Nat.le_max_left _ _)
        · cases rest

namespace Machine

variable {machine : Machine}

theorem scheduleFields_eq (call : Callee → Arrival → Except Stop Arrival) (now : Nat)
    (diary : Diary) (fields : List (Label × Step)) :
    machine.scheduleFields call now diary fields =
      machine.scheduleAll call now diary (fields.map Prod.snd) := by
  induction fields generalizing diary with
  | nil => rfl
  | cons field fields ih => simp only [scheduleFields, List.map_cons, scheduleAll, ih]

theorem answer_eq_ok {name : Identifier} {argument given : Arrival} :
    machine.answer name argument = .ok given ↔
      ∃ primitive, machine.registry.lookup name = some primitive ∧
        (primitive.action argument.value).outcome = .ok given.value ∧
        given.moment = argument.moment + (primitive.action argument.value).delay := by
  rw [answer]
  cases machine.registry.lookup name with
  | none => exact iff_of_false nofun (by simp)
  | some primitive =>
      simp only [Option.some.injEq, exists_eq_left']
      cases (primitive.action argument.value).outcome with
      | error failure => exact iff_of_false nofun nofun
      | ok value =>
          obtain ⟨result, moment⟩ := given
          simp only [Except.ok.injEq, Arrival.mk.injEq]
          exact and_congr_right fun _ => eq_comm

/-! Nothing is there before it is set up. -/

/-- What is called gives nothing before its argument is there. -/
def Lasts (call : Callee → Arrival → Except Stop Arrival) : Prop :=
  ∀ callee argument given, call callee argument = .ok given → argument.moment ≤ given.moment

variable {call : Callee → Arrival → Except Stop Arrival} {now : Nat}

theorem scheduleLiteral_le {diary after : Diary} {given : Arrival} {literal : Literal}
    (gives : machine.scheduleLiteral call now diary literal = .ok (given, after)) :
    now ≤ given.moment := by
  cases literal with
  | tablet fields =>
      simp only [scheduleLiteral, Stop.bind_eq_ok, Stop.pure_eq_ok, Prod.mk.injEq] at gives
      obtain ⟨⟨members, rest⟩, _, rfl, _⟩ := gives
      exact le_latest now members
  | _ =>
      cases gives
      exact Nat.le_refl _

theorem schedule_le (lasts : Lasts call) {diary after : Diary} {given : Arrival} :
    ∀ step : Step, machine.schedule call now diary step = .ok (given, after) →
      now ≤ given.moment
  | .literal literal, gives => scheduleLiteral_le gives
  | .bind names step, gives => by
      simp only [schedule, Stop.bind_eq_ok, Stop.pure_eq_ok, Prod.mk.injEq] at gives
      obtain ⟨⟨first, rest⟩, part, rfl, _⟩ := gives
      exact schedule_le lasts step part
  | .call callee argument, gives => by
      simp only [schedule, Stop.bind_eq_ok, Stop.pure_eq_ok, Prod.mk.injEq] at gives
      obtain ⟨⟨first, rest⟩, part, _, called, rfl, _⟩ := gives
      exact (schedule_le lasts argument part).trans (lasts callee first _ called)
  | .invoke name argument, gives => by
      simp only [schedule, Stop.bind_eq_ok, Stop.pure_eq_ok, Prod.mk.injEq] at gives
      obtain ⟨⟨first, rest⟩, part, _, answers, rfl, _⟩ := gives
      obtain ⟨primitive, _, _, later⟩ := answer_eq_ok.mp answers
      rw [later]
      exact (schedule_le lasts argument part).trans (Nat.le_add_right _ _)
  | .tuple steps, gives => by
      simp only [schedule, Stop.bind_eq_ok, Stop.pure_eq_ok, Prod.mk.injEq] at gives
      obtain ⟨⟨members, rest⟩, _, rfl, _⟩ := gives
      exact le_latest now members
  | .read name, gives => Diary.read_le gives

theorem scheduleEntry_le (lasts : Lasts call) {isLast : Bool} {diary after : Diary}
    {given : Arrival} {step : Step}
    (gives : machine.scheduleEntry call now isLast diary step = .ok (given, after)) :
    now ≤ given.moment := by
  cases step with
  | bind names step =>
      simp only [scheduleEntry, Stop.bind_eq_ok] at gives
      obtain ⟨⟨first, rest⟩, part, last⟩ := gives
      split at last
      · cases last
        exact schedule_le lasts step part
      · cases last
        exact Nat.le_refl _
  | _ => exact schedule_le lasts _ gives

theorem scheduleEntries_le (lasts : Lasts call) {entries : List Entry} {diary after : Diary}
    {first given : Arrival}
    (gives : machine.scheduleEntries call diary first entries = .ok (given, after)) :
    first.moment ≤ given.moment := by
  induction entries generalizing diary first with
  | nil =>
      cases gives
      exact Nat.le_refl _
  | cons entry entries ih =>
      simp only [scheduleEntries, Stop.bind_eq_ok] at gives
      obtain ⟨⟨second, middle⟩, one, rest⟩ := gives
      exact (scheduleEntry_le lasts one).trans (ih rest)

theorem scheduleBody_le (lasts : Lasts call) {entries : List Entry} {diary : Diary}
    {first given : Arrival}
    (gives : machine.scheduleBody call diary first entries = .ok given) :
    first.moment ≤ given.moment := by
  simp only [scheduleBody, Stop.bind_eq_ok, Stop.pure_eq_ok] at gives
  obtain ⟨⟨last, after⟩, all, moment, settles, rfl⟩ := gives
  exact (scheduleEntries_le lasts all).trans (Diary.settle_le settles)

theorem scheduleRoutine_le (lasts : Lasts call) {routine : Routine} {argument given : Arrival}
    (gives : machine.scheduleRoutine call routine argument = .ok given) :
    argument.moment ≤ given.moment := by
  rw [scheduleRoutine] at gives
  obtain ⟨store, _, body⟩ := Stop.bind_eq_ok.mp gives
  exact @scheduleBody_le _ _ lasts _ _ ⟨.unit, argument.moment⟩ _ body

theorem scheduleUpTo_lasts (depth : Nat) : Lasts (machine.scheduleUpTo depth) := by
  induction depth with
  | zero => exact fun _ _ _ called => nomatch called
  | succ depth ih =>
      intro callee argument given called
      rw [scheduleUpTo] at called
      split at called
      · cases called
      · exact scheduleRoutine_le ih called

/-! Forgetting the moments leaves the evaluation. -/

theorem read_scheduled (now : Nat) {name : Name} {diary : Diary} {value : Value} {store : Store}
    (reads : Store.read name (diary.map Dated.toStored) = .ok (value, store)) :
    ∃ moment after, diary.read now name = .ok (⟨value, moment⟩, after) ∧
      after.map Dated.toStored = store := by
  induction diary generalizing store with
  | nil => cases reads
  | cons dated diary ih =>
      rw [List.map_cons, Store.read] at reads
      rw [Diary.read]
      split at reads
      · rename_i place found
        simp only [Stop.bind_eq_ok, Stop.pure_eq_ok, Prod.mk.injEq] at reads
        obtain ⟨_, part, rfl, rfl⟩ := reads
        simp only [found, part]
        exact ⟨_, _, rfl, rfl⟩
      · rename_i missing
        simp only [Stop.bind_eq_ok, Stop.pure_eq_ok, Prod.mk.injEq] at reads
        obtain ⟨⟨_, rest⟩, earlier, rfl, rfl⟩ := reads
        obtain ⟨moment, after, again, rfl⟩ := ih earlier
        simp only [missing, again]
        exact ⟨_, _, rfl, rfl⟩

theorem settle_scheduled (now : Nat) {diary : Diary}
    (settles : Store.settle (diary.map Dated.toStored) = .ok ()) :
    ∃ moment, diary.settle now = .ok moment := by
  induction diary with
  | nil => exact ⟨now, rfl⟩
  | cons dated diary ih =>
      rw [List.map_cons, Store.settle] at settles
      obtain ⟨_, earlier, rest⟩ := Stop.bind_eq_ok.mp settles
      obtain ⟨moment, again⟩ := ih earlier
      rw [Diary.settle, again]
      by_cases taken : dated.taken = true
      · exact ⟨moment, if_pos taken⟩
      · rw [if_neg taken] at rest
        split at rest
        · rename_i values splits
          refine ⟨max moment dated.moment, ?_⟩
          simp only [bind, Except.bind, if_neg taken, splits]
          rfl
        · cases rest

theorem perform_scheduled (moment : Nat) {name : Identifier} {argument value : Value}
    (performs : machine.host.perform name argument = .ok value) :
    ∃ last, machine.answer name ⟨argument, moment⟩ = .ok ⟨value, last⟩ := by
  cases found : machine.registry.lookup name with
  | none =>
      simp only [Host.perform, host, Registry.outcomes, found, Option.map_none] at performs
      cases performs
  | some primitive =>
      exact ⟨_, answer_eq_ok.mpr ⟨primitive, found, (host_perform found).mp performs, rfl⟩⟩

/-- The second call gives what the first one does, each value at some moment. -/
def Times (call : Callee → Value → Except Stop Value)
    (timed : Callee → Arrival → Except Stop Arrival) : Prop :=
  ∀ callee argument value, call callee argument.value = .ok value →
    ∃ moment, timed callee argument = .ok ⟨value, moment⟩

section

variable {untimed : Callee → Value → Except Stop Value}

mutual

theorem evaluate_scheduled (times : Times untimed call) {diary : Diary} {value : Value}
    {store : Store} : ∀ step : Step,
      machine.host.evaluate untimed (diary.map Dated.toStored) step = .ok (value, store) →
        ∃ moment after, machine.schedule call now diary step = .ok (⟨value, moment⟩, after) ∧
          after.map Dated.toStored = store
  | .literal literal, gives => evaluateLiteral_scheduled times literal gives
  | .bind names step, gives => by
      simp only [Host.evaluate, Stop.bind_eq_ok, Stop.pure_eq_ok, Prod.mk.injEq] at gives
      obtain ⟨⟨_, rest⟩, part, rfl, rfl⟩ := gives
      obtain ⟨moment, after, again, rfl⟩ := evaluate_scheduled times step part
      refine ⟨moment, ⟨⟨names, _, true⟩, moment⟩ :: after, ?_, rfl⟩
      rw [schedule, again]
      rfl
  | .call callee argument, gives => by
      simp only [Host.evaluate, Stop.bind_eq_ok, Stop.pure_eq_ok, Prod.mk.injEq] at gives
      obtain ⟨⟨first, rest⟩, part, _, called, rfl, rfl⟩ := gives
      obtain ⟨moment, after, again, rfl⟩ := evaluate_scheduled times argument part
      obtain ⟨last, calls⟩ := times callee ⟨first, moment⟩ _ called
      refine ⟨last, after, ?_, rfl⟩
      simp only [schedule, again, bind, Except.bind, calls]
      rfl
  | .invoke name argument, gives => by
      simp only [Host.evaluate, Stop.bind_eq_ok, Stop.pure_eq_ok, Prod.mk.injEq] at gives
      obtain ⟨⟨first, rest⟩, part, result, performs, rfl, rfl⟩ := gives
      obtain ⟨moment, after, again, rfl⟩ := evaluate_scheduled times argument part
      obtain ⟨last, answers⟩ := perform_scheduled moment performs
      refine ⟨last, after, ?_, rfl⟩
      simp only [schedule, again, bind, Except.bind, answers]
      rfl
  | .tuple steps, gives => by
      simp only [Host.evaluate, Stop.bind_eq_ok, Stop.pure_eq_ok, Prod.mk.injEq] at gives
      obtain ⟨⟨values, rest⟩, part, rfl, rfl⟩ := gives
      obtain ⟨members, after, again, rfl, rfl⟩ := evaluateAll_scheduled times steps part
      refine ⟨latest now members, after, ?_, rfl⟩
      rw [schedule, again]
      rfl
  | .read name, gives => read_scheduled now gives

theorem evaluateLiteral_scheduled (times : Times untimed call) {diary : Diary} {value : Value}
    {store : Store} : ∀ literal : Literal,
      machine.host.evaluateLiteral untimed (diary.map Dated.toStored) literal =
          .ok (value, store) →
        ∃ moment after,
          machine.scheduleLiteral call now diary literal = .ok (⟨value, moment⟩, after) ∧
            after.map Dated.toStored = store
  | .unit, gives | .text _, gives | .quantity _, gives => by
      cases gives
      exact ⟨now, diary, rfl, rfl⟩
  | .tablet fields, gives => by
      simp only [Host.evaluateLiteral, Stop.bind_eq_ok, Stop.pure_eq_ok, Prod.mk.injEq] at gives
      obtain ⟨⟨values, rest⟩, part, rfl, rfl⟩ := gives
      obtain ⟨members, after, again, rfl, rfl⟩ := evaluateFields_scheduled times fields part
      refine ⟨latest now members, after, ?_, rfl⟩
      rw [scheduleLiteral, again]
      rfl

theorem evaluateAll_scheduled (times : Times untimed call) {diary : Diary} {values : List Value}
    {store : Store} : ∀ steps : List Step,
      machine.host.evaluateAll untimed (diary.map Dated.toStored) steps = .ok (values, store) →
        ∃ members after, machine.scheduleAll call now diary steps = .ok (members, after) ∧
          members.map Arrival.value = values ∧ after.map Dated.toStored = store
  | [], gives => by
      cases gives
      exact ⟨[], diary, rfl, rfl, rfl⟩
  | step :: steps, gives => by
      simp only [Host.evaluateAll, Stop.bind_eq_ok, Stop.pure_eq_ok, Prod.mk.injEq] at gives
      obtain ⟨⟨first, _⟩, one, ⟨others, _⟩, rest, rfl, rfl⟩ := gives
      obtain ⟨moment, middle, again, rfl⟩ := evaluate_scheduled times step one
      obtain ⟨members, after, follow, rfl, rfl⟩ := evaluateAll_scheduled times steps rest
      refine ⟨⟨first, moment⟩ :: members, after, ?_, rfl, rfl⟩
      simp only [scheduleAll, again, bind, Except.bind, follow]
      rfl

theorem evaluateFields_scheduled (times : Times untimed call) {diary : Diary}
    {values : List Value} {store : Store} : ∀ fields : List (Label × Step),
      machine.host.evaluateFields untimed (diary.map Dated.toStored) fields =
          .ok (values, store) →
        ∃ members after, machine.scheduleFields call now diary fields = .ok (members, after) ∧
          members.map Arrival.value = values ∧ after.map Dated.toStored = store
  | [], gives => by
      cases gives
      exact ⟨[], diary, rfl, rfl, rfl⟩
  | (_, step) :: fields, gives => by
      simp only [Host.evaluateFields, Stop.bind_eq_ok, Stop.pure_eq_ok, Prod.mk.injEq] at gives
      obtain ⟨⟨first, _⟩, one, ⟨others, _⟩, rest, rfl, rfl⟩ := gives
      obtain ⟨moment, middle, again, rfl⟩ := evaluate_scheduled times step one
      obtain ⟨members, after, follow, rfl, rfl⟩ := evaluateFields_scheduled times fields rest
      refine ⟨⟨first, moment⟩ :: members, after, ?_, rfl, rfl⟩
      simp only [scheduleFields, again, bind, Except.bind, follow]
      rfl

end

theorem evaluateEntry_scheduled (times : Times untimed call) {isLast : Bool} {diary : Diary}
    {value : Value} {store : Store} {step : Step}
    (gives : machine.host.evaluateEntry untimed isLast (diary.map Dated.toStored) step =
      .ok (value, store)) :
    ∃ moment after,
      machine.scheduleEntry call now isLast diary step = .ok (⟨value, moment⟩, after) ∧
        after.map Dated.toStored = store := by
  cases step with
  | bind names step =>
      simp only [Host.evaluateEntry, Stop.bind_eq_ok] at gives
      obtain ⟨⟨first, _⟩, part, rest⟩ := gives
      obtain ⟨moment, after, again, rfl⟩ :=
        @evaluate_scheduled machine call now untimed times _ _ _ step part
      rw [scheduleEntry, again]
      cases isLast with
      | true =>
          cases rest
          exact ⟨moment, _, rfl, rfl⟩
      | false =>
          cases rest
          exact ⟨now, _, rfl, rfl⟩
  | _ => exact evaluate_scheduled times _ gives

theorem evaluateEntries_scheduled (times : Times untimed call) {entries : List Entry}
    {diary : Diary} {given : Arrival} {value : Value} {store : Store}
    (gives : machine.host.evaluateEntries untimed (diary.map Dated.toStored) given.value entries =
      .ok (value, store)) :
    ∃ moment after,
      machine.scheduleEntries call diary given entries = .ok (⟨value, moment⟩, after) ∧
        after.map Dated.toStored = store := by
  induction entries generalizing diary given with
  | nil =>
      cases gives
      exact ⟨given.moment, diary, rfl, rfl⟩
  | cons entry entries ih =>
      simp only [Host.evaluateEntries, Stop.bind_eq_ok] at gives
      obtain ⟨⟨first, _⟩, one, rest⟩ := gives
      obtain ⟨moment, middle, again, rfl⟩ :=
        @evaluateEntry_scheduled machine call given.moment untimed times _ _ _ _ _ one
      rw [scheduleEntries, again]
      exact @ih middle ⟨first, moment⟩ rest

/-- A routine that is evaluated has a schedule. -/
theorem evaluateRoutine_scheduled (times : Times untimed call) {routine : Routine}
    {argument : Arrival} {value : Value}
    (gives : machine.host.evaluateRoutine untimed routine argument.value = .ok value) :
    ∃ moment, machine.scheduleRoutine call routine argument = .ok ⟨value, moment⟩ := by
  simp only [Host.evaluateRoutine, Host.evaluateBody, Stop.bind_eq_ok, Stop.pure_eq_ok] at gives
  obtain ⟨store, bound, ⟨_, last⟩, all, _, settles, rfl⟩ := gives
  rw [← store.since_stored argument.moment] at all
  obtain ⟨moment, after, again, rfl⟩ := @evaluateEntries_scheduled machine call untimed times _
    (store.since argument.moment) ⟨.unit, argument.moment⟩ _ _ all
  obtain ⟨last, rest⟩ := settle_scheduled moment settles
  refine ⟨last, ?_⟩
  simp only [scheduleRoutine, scheduleBody, bound, bind, Except.bind, again, rest]
  rfl

end

theorem callUpTo_scheduled (depth : Nat) :
    Times (machine.host.callUpTo depth) (machine.scheduleUpTo depth) := by
  induction depth with
  | zero => exact fun _ _ _ called => nomatch called
  | succ depth ih =>
      intro callee argument value called
      rw [Host.callUpTo] at called
      rw [scheduleUpTo]
      split at called
      · cases called
      · rename_i routine found
        rw [show machine.library.get? callee = some routine from found]
        exact evaluateRoutine_scheduled ih called

/-- What the evaluation of a routine gives, its timetable does at some moment. -/
theorem run_scheduled {depth : Nat} {routine : Routine} {argument value : Value}
    (gives : machine.host.run depth routine argument = .ok value) :
    ∃ moment, machine.timetable depth routine argument = .ok ⟨value, moment⟩ :=
  @evaluateRoutine_scheduled machine _ _ (callUpTo_scheduled depth) routine ⟨argument, 0⟩ value gives

end Machine

end Runbook
