import Runbook.Proofs.Evaluation.Calls

/-!
What is set up to be called.

An entry is set up to works that call an operation or a procedure only for its steps, each at its
own seat; a name that is read is set up to a work that calls nothing. Moves never add to what a work
has still to call.
-/
namespace Runbook

/-- The work calls only what is known, and has begun. -/
def Work.CallsAs (known : Continuation → Prop) : Work → Prop
  | .fresh _ => False
  | .after _ use => use.calls → known use
  | _ => True

/-- All that the work has still to call is known by its place. -/
def Work.CallsOnly (known : List Nat → Continuation → Prop) (work : Work) : Prop :=
  ∀ path inner, work.seat? path = some inner → inner.CallsAs (known path)

section
variable {machine : Machine} {world : World} {work outer inner : Work} {change : Change}
  {known other : List Nat → Continuation → Prop} {index : Nat}

namespace Work

theorem callsAs_of_uncomposed {known : Continuation → Prop} (plain : work.composed = false) :
    work.CallsAs known := by
  cases work with
  | fresh => cases plain
  | after => cases plain
  | _ => trivial

theorem CallsOnly.of_operands (here : work.CallsAs (known []))
    (inside : ∀ index inner, work.operand? index = some inner →
      inner.CallsOnly fun path => known (index :: path)) : work.CallsOnly known := by
  intro path part there
  cases path with
  | nil =>
      cases there
      exact here
  | cons index path =>
      obtain ⟨inner, operand, there⟩ := Option.bind_eq_some_iff.mp there
      exact inside index inner operand path part there

theorem CallsOnly.operand (only : work.CallsOnly known) (there : work.operand? index = some inner) :
    inner.CallsOnly fun path => known (index :: path) :=
  fun path part found => only (index :: path) part (Option.bind_eq_some_iff.mpr
    ⟨inner, there, found⟩)

theorem CallsOnly.of_uncomposed (plain : work.composed = false) : work.CallsOnly known := by
  refine .of_operands (callsAs_of_uncomposed plain) fun index inner there => ?_
  rw [composed_of_operand there] at plain
  cases plain

theorem CallsOnly.mono (only : work.CallsOnly known)
    (weaker : ∀ path use, known path use → other path use) : work.CallsOnly other := by
  intro path inner there
  have here := only path inner there
  cases inner with
  | fresh => exact here
  | after source use => exact fun calls => weaker path use (here calls)
  | _ => trivial

end Work

namespace Moves

/-- What a work waits for after a move, it has waited for before, if it had begun; and that has
stayed or moved. -/
theorem operand_back (moves : Moves machine world work change)
    (there : change.work.operand? index = some outer) :
    work = .fresh change.work ∨ ∃ inner, work.operand? index = some inner ∧ (outer = inner ∨
      ∃ part, Moves machine world inner part ∧ outer = part.work) := by
  have composed := Work.composed_of_operand there
  have later (plain : change.work.composed = false) :
      work = .fresh change.work ∨ ∃ inner, work.operand? index = some inner ∧ (outer = inner ∨
        ∃ part, Moves machine world inner part ∧ outer = part.work) := by
    rw [plain] at composed
    cases composed
  cases before : work.composed with
  | false => exact later (moves.uncomposed before)
  | true =>
      cases moves with
      | fresh => exact .inl rfl
      | goOn => exact later (machine.goOn_uncomposed _ _ _)
      | @source source next part moves =>
          cases index with
          | zero =>
              cases there
              exact .inr ⟨source, rfl, .inr ⟨part, moves, rfl⟩⟩
          | succ index => cases there
      | spoil spoiled =>
          obtain ⟨_, _, fails⟩ := spoiled_mem spoiled
          exact later (Work.uncomposed_of_ended (Work.ended?_of_failed? fails))
      | @member shape earlier member others part moves =>
          refine .inr ?_
          rcases getElem?_replaced there with ⟨rfl, rfl⟩ | same
          · exact ⟨member, getElem?_middle earlier member others, .inr ⟨part, moves, rfl⟩⟩
          · exact ⟨outer, same member, .inl rfl⟩
      | fail => exact later rfl
      | breaks => exact later rfl
      | collect => exact later rfl
      | _ => cases before

/-- A move leaves nothing to be called that was not to be called before. -/
theorem callsOnly (moves : Moves machine world work change) (only : work.CallsOnly known) :
    change.work.CallsOnly known := by
  intro path
  induction path generalizing work change known with
  | nil =>
      intro part there
      cases there
      cases before : work.composed with
      | false => exact Work.callsAs_of_uncomposed (moves.uncomposed before)
      | true =>
          cases moves with
          | fresh => exact (only [] _ rfl).elim
          | @source source next change _ => exact only [] (.after source next) rfl
          | member _ => trivial
          | goOn => exact Work.callsAs_of_uncomposed (machine.goOn_uncomposed _ _ _)
          | spoil spoiled =>
              obtain ⟨_, _, fails⟩ := spoiled_mem spoiled
              exact Work.callsAs_of_uncomposed
                (Work.uncomposed_of_ended (Work.ended?_of_failed? fails))
          | fail => trivial
          | breaks => trivial
          | collect => trivial
          | _ => cases before
  | cons index path ih =>
      intro part there
      obtain ⟨outer, operand, there⟩ := Option.bind_eq_some_iff.mp there
      rcases moves.operand_back operand with same | ⟨inner, before, rfl | ⟨step, moves, rfl⟩⟩
      · exact (only [] _ (congrArg some same)).elim
      · exact only.operand before path part there
      · exact ih moves (only.operand before) part there

end Moves

end

/-- The step calls so at the seat, or a step inside of it does. -/
def Step.Seats (registry : Registry) (whole : Step) (seat : Seat) (use : Continuation) : Prop :=
  ∃ context step, Step.Context.fill step context = whole ∧ step.Uses registry use ∧
    context.seat registry step = seat

/-- One of the steps calls so, when their works are gathered. -/
def stepsSeats (registry : Registry) (steps : List Step) (seat : Seat) (use : Continuation) :
    Prop :=
  ∃ before inner after place, steps = before ++ inner :: after ∧
    inner.Seats registry place use ∧
    (place.under before.length).behind (stepsStarts registry before) = seat

section
variable {registry : Registry} {use : Continuation} {seat : Seat}

namespace Step.Seats

theorem here {step : Step} (uses : step.Uses registry use) : step.Seats registry ⟨none, []⟩ use :=
  ⟨.here, step, rfl, uses, rfl⟩

theorem bind {inner : Step} {names : List Name} (seats : inner.Seats registry seat use) :
    (Step.bind names inner).Seats registry (seat.startedAs (inner.starts registry)) use := by
  obtain ⟨context, step, rfl, uses, rfl⟩ := seats
  exact ⟨.bind names context, step, rfl, uses, rfl⟩

theorem call {argument : Step} {callee : Callee} (seats : argument.Seats registry seat use) :
    (Step.call callee argument).Seats registry (seat.under 0) use := by
  obtain ⟨context, step, rfl, uses, rfl⟩ := seats
  exact ⟨.call callee context, step, rfl, uses, rfl⟩

theorem invoke {argument : Step} {name : Identifier}
    (whole : registry.operates name = true → ∀ left right, argument ≠ .tuple [left, right])
    (seats : argument.Seats registry seat use) :
    (Step.invoke name argument).Seats registry (seat.under 0) use := by
  obtain ⟨context, step, rfl, uses, rfl⟩ := seats
  refine ⟨.invoke name context, step, rfl, uses, ?_⟩
  rw [Step.Context.seat, Step.Context.seatIn, Step.Context.seatIn_eq whole]

theorem operand {inner left right : Step} {name : Identifier} {first rest : List Step}
    (operates : registry.operates name = true) (same : first ++ inner :: rest = [left, right])
    (seats : inner.Seats registry seat use) :
    (Step.invoke name (.tuple [left, right])).Seats registry
      ((seat.startedAs (inner.starts registry)).behind (stepsStarts registry first + first.length))
      use := by
  obtain ⟨context, step, rfl, uses, rfl⟩ := seats
  refine ⟨.invoke name (.tuple first context rest), step, ?_, uses,
    Step.Context.seat_operand operates same⟩
  rw [Step.Context.fill, Step.Context.fill, same]

theorem tuple {steps : List Step} (seats : stepsSeats registry steps seat use) :
    (Step.tuple steps).Seats registry seat use := by
  obtain ⟨before, inner, after, place, rfl, ⟨context, step, rfl, uses, rfl⟩, rfl⟩ := seats
  refine ⟨.tuple before context after, step, rfl, uses, ?_⟩
  rw [Step.Context.seat, Step.Context.seatIn, Bool.false_and, if_neg Bool.false_ne_true]
  rfl

theorem tablet {fields : List (Label × Step)}
    (seats : stepsSeats registry (fields.map Prod.snd) seat use) :
    (Step.literal (.tablet fields)).Seats registry seat use := by
  obtain ⟨before, inner, after, place, same, ⟨context, step, rfl, uses, rfl⟩, rfl⟩ := seats
  obtain ⟨first, rest, rfl, rfl, tail⟩ := List.map_eq_append_iff.mp same
  obtain ⟨⟨label, _⟩, last, rfl, rfl, rfl⟩ := List.map_eq_cons_iff.mp tail
  refine ⟨.tablet first label context last, step, rfl, uses, ?_⟩
  rw [Step.Context.seat, Step.Context.seatIn, fieldsStarts_eq, List.length_map]
  rfl

end Step.Seats

namespace SetUp

/-- Tasks that are started have still to begin, and call only what is known by its seat. -/
def Plants (known : Seat → Continuation → Prop) (started : List Work) : Prop :=
  ∀ (number : Nat) (task : Work), started[number]? = some task →
    ∃ inner, task = .fresh inner ∧ inner.CallsOnly fun path => known ⟨some number, path⟩

/-- What is set up calls only what is known by its seat. -/
structure Sows (known : Seat → Continuation → Prop) (work : Work) (started : List Work) :
    Prop where
  own : work.CallsOnly fun path => known ⟨none, path⟩
  tasks : Plants known started

variable {known later : Seat → Continuation → Prop} {work source : Work} {started more : List Work}

namespace Plants

theorem nil : Plants known [] := by
  intro number task there
  cases there

theorem mono (plants : Plants known started)
    (weaker : ∀ number path use, known ⟨some number, path⟩ use → later ⟨some number, path⟩ use) :
    Plants later started := by
  intro number task there
  obtain ⟨inner, rfl, only⟩ := plants number task there
  exact ⟨inner, rfl, only.mono (weaker number)⟩

theorem append (first : Plants known started) (rest : Plants later more)
    (shift : ∀ number path use, later ⟨some number, path⟩ use →
      known ⟨some (started.length + number), path⟩ use) : Plants known (started ++ more) := by
  intro number task there
  rcases Nat.lt_or_ge number started.length with below | beyond
  · rw [List.getElem?_append_left below] at there
    exact first number task there
  · rw [List.getElem?_append_right beyond] at there
    obtain ⟨inner, rfl, only⟩ := rest _ task there
    refine ⟨inner, rfl, only.mono fun path use holds => ?_⟩
    have here := shift _ path use holds
    rwa [Nat.add_sub_cancel' beyond] at here

theorem singleton (only : work.CallsOnly fun path => known ⟨some 0, path⟩) :
    Plants known [.fresh work] := by
  intro number task there
  cases number with
  | zero =>
      cases there
      exact ⟨work, rfl, only⟩
  | succ number => cases there

end Plants

namespace Sows

theorem mono (sows : Sows known work started)
    (weaker : ∀ seat use, known seat use → later seat use) : Sows later work started where
  own := sows.own.mono fun path => weaker ⟨none, path⟩
  tasks := sows.tasks.mono fun number path => weaker ⟨some number, path⟩

theorem idle (plain : work.composed = false) : Sows known work [] where
  own := .of_uncomposed plain
  tasks := .nil

theorem after (sows : Sows known source started)
    (inside : ∀ seat use, known seat use → later (seat.under 0) use)
    (here : use.calls → later ⟨none, []⟩ use) : Sows later (.after source use) started where
  own := by
    refine .of_operands here fun index inner there => ?_
    cases index with
    | zero =>
        cases there
        exact sows.own.mono fun path use => inside ⟨none, path⟩ use
    | succ index => cases there
  tasks := sows.tasks.mono fun number path use => inside ⟨some number, path⟩ use

/-- What is set up and then started as a task. -/
theorem start (sows : Sows known work started)
    (inside : ∀ seat use, known seat use → later (seat.startedAs started.length) use) :
    Plants later (started ++ [.fresh work]) := by
  have first : Plants later started :=
    sows.tasks.mono fun number path use => inside ⟨some number, path⟩ use
  have last : Plants (fun seat use => later (seat.behind started.length) use) [.fresh work] :=
    .singleton (sows.own.mono fun path use => inside ⟨none, path⟩ use)
  exact first.append last fun number path use => id

theorem nothing (shape : Shape) : Sows (stepsSeats registry []) (.gather shape []) [] where
  own := by
    refine .of_operands trivial fun index inner there => ?_
    cases there
  tasks := .nil

/-- The works that are gathered are set up one after the other. -/
theorem cons {step : Step} {steps : List Step} {shape : Shape} {works : List Work}
    (here : Sows (step.Seats registry) work started)
    (length : started.length = step.starts registry)
    (rest : Sows (stepsSeats registry steps) (.gather shape works) more) :
    Sows (stepsSeats registry (step :: steps)) (.gather shape (work :: works)) (started ++ more)
    where
  own := by
    refine .of_operands trivial fun index inner there => ?_
    cases index with
    | zero =>
        cases there
        exact here.own.mono fun path use seats => ⟨[], step, steps, _, rfl, seats, rfl⟩
    | succ index =>
        refine (rest.own.operand there).mono fun path use seats => ?_
        obtain ⟨before, inner, after, ⟨task, place⟩, rfl, seats, same⟩ := seats
        cases task with
        | none =>
            cases same
            exact ⟨step :: before, inner, after, _, rfl, seats, rfl⟩
        | some number => cases same
  tasks := by
    have first : Plants (stepsSeats registry (step :: steps)) started :=
      here.tasks.mono fun number path use seats =>
        ⟨[], step, steps, _, rfl, seats, Seat.behind_zero _⟩
    refine first.append rest.tasks fun number path use seats => ?_
    obtain ⟨before, inner, after, ⟨task, place⟩, rfl, seats, same⟩ := seats
    cases task with
    | none => cases same
    | some task =>
        cases same
        refine ⟨step :: before, inner, after, _, rfl, seats, ?_⟩
        rw [length, ← Nat.add_assoc]
        rfl

end Sows

variable {setting : Setting} {before middle ended : State}

/-- The operands of an operator are started as tasks, one after the other. -/
theorem sows_operands {left right : Step} {name : Identifier} {primitive : Primitive}
    {operator : Operator} {first second : Work} (found : registry.lookup name = some primitive)
    (operates : primitive.operator = some operator)
    (one : Sows (left.Seats registry) first started)
    (length : started.length = left.starts registry)
    (other : Sows (right.Seats registry) second more)
    (length' : more.length = right.starts registry) (task task' : TaskId) :
    Sows ((Step.invoke name (.tuple [left, right])).Seats registry)
      (.after (operator.await task task') (.join primitive))
      ((started ++ [.fresh first]) ++ (more ++ [.fresh second])) where
  own := by
    refine .of_operands (fun _ => .here (.operands found operates)) fun index inner there => ?_
    cases index with
    | zero =>
        cases there
        refine .of_operands (by cases operator <;> trivial) fun index inner there => ?_
        have waits : inner = .wait task ∨ inner = .wait task' := by
          cases operator with
          | waitEither => cases there
          | _ => exact List.mem_pair.mp (List.mem_of_getElem? there)
        rcases waits with rfl | rfl
        · exact .of_uncomposed rfl
        · exact .of_uncomposed rfl
    | succ index => cases there
  tasks := by
    have does : registry.operates name = true := by
      rw [Registry.operates_eq found, operates]
      rfl
    have first : Plants ((Step.invoke name (.tuple [left, right])).Seats registry)
        (started ++ [.fresh first]) := by
      refine one.start fun seat use seats => ?_
      have here := Step.Seats.operand does (List.nil_append [left, right]) seats
      rw [stepsStarts, List.length_nil, Seat.behind_zero, ← length] at here
      exact here
    have last : Plants (fun seat use => (Step.invoke name (.tuple [left, right])).Seats registry
        (seat.behind (started.length + 1)) use) (more ++ [.fresh second]) := by
      refine other.start fun seat use seats => ?_
      have same : [left] ++ right :: [] = [left, right] := rfl
      have here := Step.Seats.operand does same seats
      rw [stepsStarts, stepsStarts, List.length_singleton, Nat.add_zero, ← length,
        ← length'] at here
      exact here
    refine first.append last fun number path use seats => ?_
    rw [List.length_append, List.length_singleton]
    exact seats

mutual

/-- A step is set up to works that call only for it or for a step inside of it. -/
theorem setUp_sows : ∀ (step : Step) {before ended : State} {work : Work} {started : List Work},
    (setUp registry setting step).Gives before work ended → Adds before ended started →
      Sows (step.Seats registry) work started
  | .literal literal, _, _, _, _, gives, adds => by
      rw [setUp] at gives
      exact setUpLiteral_sows literal gives adds
  | .bind names step, _, _, _, _, gives, adds => by
      rw [setUp] at gives
      obtain ⟨_, _, reports, rest⟩ := gives_bind_iff.mp gives
      obtain ⟨work, ended, within, last⟩ := gives_bind_iff.mp rest
      obtain ⟨task, _, binds, waits⟩ := gives_bind_iff.mp last
      have adds := adds.reported reports
      cases reports
      cases waits
      obtain ⟨started, inside, length⟩ := adds_setUp within
      obtain rfl := adds.unique (inside.trans (adds_bind binds))
      refine ⟨.of_uncomposed rfl, (setUp_sows step within inside).start fun seat use seats => ?_⟩
      rw [length]
      exact seats.bind
  | .call callee argument, _, _, _, _, gives, adds => by
      rw [setUp] at gives
      obtain ⟨source, _, within, gives⟩ := gives_bind_iff.mp gives
      cases gives
      exact (setUp_sows argument within adds).after (fun _ _ seats => seats.call)
        fun _ => .here .call
  | .invoke name argument, _, _, _, _, gives, adds => by
      cases found : registry.lookup name with
      | none =>
          rw [setUp, found] at gives
          cases gives
      | some primitive =>
          by_cases pair : ∃ operator left right, primitive.operator = some operator ∧
              argument = .tuple [left, right]
          · obtain ⟨operator, left, right, operates, rfl⟩ := pair
            rw [setUp_operands found operates] at gives
            obtain ⟨first, _, gives₁, gives⟩ := gives_bind_iff.mp gives
            obtain ⟨task, _, starts₁, gives⟩ := gives_bind_iff.mp gives
            obtain ⟨second, _, gives₂, gives⟩ := gives_bind_iff.mp gives
            obtain ⟨task', _, starts₂, gives⟩ := gives_bind_iff.mp gives
            cases gives
            obtain ⟨started₁, adds₁, length₁⟩ := adds_setUp gives₁
            obtain ⟨started₂, adds₂, length₂⟩ := adds_setUp gives₂
            obtain rfl := adds.unique
              ((adds₁.trans (adds_start starts₁)).trans (adds₂.trans (adds_start starts₂)))
            exact sows_operands found operates (setUp_sows left gives₁ adds₁) length₁
              (setUp_sows right gives₂ adds₂) length₂ task task'
          · have whole : ∀ operator left right, primitive.operator = some operator →
                argument ≠ .tuple [left, right] :=
              fun operator left right operates same => pair ⟨operator, left, right, operates, same⟩
            rw [setUp_invoke found whole] at gives
            obtain ⟨source, _, within, gives⟩ := gives_bind_iff.mp gives
            cases gives
            refine (setUp_sows argument within adds).after (fun _ _ seats => seats.invoke ?_)
              fun _ => .here (.invoke found whole)
            intro operates left right
            rw [Registry.operates_eq found, Option.isSome_iff_exists] at operates
            obtain ⟨operator, operates⟩ := operates
            exact whole operator left right operates
  | .tuple steps, _, _, _, _, gives, adds => by
      rw [setUp] at gives
      obtain ⟨works, _, within, gives⟩ := gives_bind_iff.mp gives
      cases gives
      exact (setUpAll_sows steps within adds .results).mono fun _ _ => Step.Seats.tuple
  | .read name, _, _, _, _, gives, adds => by
      rw [setUp] at gives
      obtain rfl := adds.unique (adds_read gives)
      rcases read_cases gives with ⟨_, _, _, _, rfl, _⟩ | ⟨_, task, _, _, _, rfl, _⟩
      · exact .idle rfl
      · have waits : Sows (fun _ _ => False) (.wait task) [] := .idle rfl
        exact waits.after (fun _ _ none => none.elim) fun calls => by cases calls

theorem setUpLiteral_sows : ∀ (literal : Literal) {before ended : State} {work : Work}
    {started : List Work}, (setUpLiteral registry setting literal).Gives before work ended →
      Adds before ended started → Sows ((Step.literal literal).Seats registry) work started
  | .unit, _, _, _, _, gives, adds => by
      cases gives
      obtain rfl := adds.unique (.refl _)
      exact .idle rfl
  | .text _, _, _, _, _, gives, adds => by
      cases gives
      obtain rfl := adds.unique (.refl _)
      exact .idle rfl
  | .quantity _, _, _, _, _, gives, adds => by
      cases gives
      obtain rfl := adds.unique (.refl _)
      exact .idle rfl
  | .tablet fields, _, _, _, _, gives, adds => by
      rw [setUpLiteral] at gives
      obtain ⟨works, _, within, gives⟩ := gives_bind_iff.mp gives
      cases gives
      exact (setUpFields_sows fields within adds _).mono fun _ _ => Step.Seats.tablet

theorem setUpAll_sows : ∀ (steps : List Step) {before ended : State} {works : List Work}
    {started : List Work}, (setUpAll registry setting steps).Gives before works ended →
      Adds before ended started → ∀ shape, Sows (stepsSeats registry steps) (.gather shape works)
        started
  | [], _, _, _, _, gives, adds, shape => by
      rw [setUpAll] at gives
      cases gives
      obtain rfl := adds.unique (.refl _)
      exact .nothing shape
  | step :: steps, _, _, _, _, gives, adds, shape => by
      rw [setUpAll] at gives
      obtain ⟨work, _, here, gives⟩ := gives_bind_iff.mp gives
      obtain ⟨works, _, rest, gives⟩ := gives_bind_iff.mp gives
      cases gives
      obtain ⟨started, adds₁, length⟩ := adds_setUp here
      obtain ⟨others, adds₂, _⟩ := adds_setUpAll rest
      obtain rfl := adds.unique (adds₁.trans adds₂)
      exact .cons (setUp_sows step here adds₁) length (setUpAll_sows steps rest adds₂ shape)

theorem setUpFields_sows : ∀ (fields : List (Label × Step)) {before ended : State}
    {works : List Work} {started : List Work},
    (setUpFields registry setting fields).Gives before works ended → Adds before ended started →
      ∀ shape, Sows (stepsSeats registry (fields.map Prod.snd)) (.gather shape works) started
  | [], _, _, _, _, gives, adds, shape => by
      rw [setUpFields] at gives
      cases gives
      obtain rfl := adds.unique (.refl _)
      exact .nothing shape
  | (_, step) :: fields, _, _, _, _, gives, adds, shape => by
      rw [setUpFields] at gives
      obtain ⟨work, _, here, gives⟩ := gives_bind_iff.mp gives
      obtain ⟨works, _, rest, gives⟩ := gives_bind_iff.mp gives
      cases gives
      obtain ⟨started, adds₁, length⟩ := adds_setUp here
      obtain ⟨others, adds₂, _⟩ := adds_setUpAll (setUpFields_eq .. ▸ rest)
      obtain rfl := adds.unique (adds₁.trans adds₂)
      exact .cons (setUp_sows step here adds₁) length (setUpFields_sows fields rest adds₂ shape)

end

theorem adds_report {event : Event} {result : Unit}
    (gives : (report event).Gives before result ended) :
    Adds before ended [] := by
  cases gives
  exact ⟨(List.append_nil _).symm, rfl, .refl _⟩

theorem adds_setUpEntry {index : Nat} {isLast : Bool} {entry : Entry}
    (gives : (setUpEntry registry index isLast entry).Gives before work ended) :
    ∃ started, Adds before ended started := by
  obtain ⟨setting, step⟩ := entry
  by_cases binds : ∃ names inner, step = .bind names inner
  · obtain ⟨names, inner, rfl⟩ := binds
    obtain ⟨_, _, begins, rest⟩ := gives_bind_iff.mp gives
    obtain ⟨_, _, reports, rest⟩ := gives_bind_iff.mp rest
    obtain ⟨_, _, within, rest⟩ := gives_bind_iff.mp rest
    obtain ⟨_, _, binds, ends⟩ := gives_bind_iff.mp rest
    obtain ⟨started, inside, _⟩ := adds_setUp within
    have adds := (adds_report begins).trans ((adds_report reports).trans
      (inside.trans (adds_bind binds)))
    cases isLast <;> cases ends <;> exact ⟨_, adds⟩
  · rw [setUpEntry_other fun names inner same => binds ⟨names, inner, same⟩] at gives
    obtain ⟨_, _, reports, gives⟩ := gives_bind_iff.mp gives
    obtain ⟨started, inside, _⟩ := adds_setUp gives
    exact ⟨_, (adds_report reports).trans inside⟩

/-- An entry is set up to works that call only for its step or for a step inside of it. -/
theorem setUpEntry_sows {index : Nat} {isLast : Bool} {entry : Entry}
    (gives : (setUpEntry registry index isLast entry).Gives before work ended)
    (adds : Adds before ended started) : Sows (entry.step.Seats registry) work started := by
  obtain ⟨setting, step⟩ := entry
  by_cases binds : ∃ names inner, step = .bind names inner
  · obtain ⟨names, inner, rfl⟩ := binds
    obtain ⟨_, _, begins, rest⟩ := gives_bind_iff.mp gives
    obtain ⟨_, _, reports, rest⟩ := gives_bind_iff.mp rest
    obtain ⟨source, middle, within, rest⟩ := gives_bind_iff.mp rest
    obtain ⟨task, last, binds, ends⟩ := gives_bind_iff.mp rest
    have adds := (adds.reported begins).reported reports
    cases begins
    cases reports
    obtain ⟨plain, rfl⟩ : work.composed = false ∧ last = ended := by
      cases isLast <;> cases ends <;> exact ⟨rfl, rfl⟩
    obtain ⟨started, inside, length⟩ := adds_setUp within
    obtain rfl := adds.unique (inside.trans (adds_bind binds))
    refine ⟨.of_uncomposed plain, (setUp_sows inner within inside).start fun seat use seats => ?_⟩
    rw [length]
    exact seats.bind
  · rw [setUpEntry_other fun names inner same => binds ⟨names, inner, same⟩] at gives
    obtain ⟨_, _, reports, gives⟩ := gives_bind_iff.mp gives
    have adds := adds.reported reports
    cases reports
    exact setUp_sows step gives adds

end SetUp

end

end Runbook
