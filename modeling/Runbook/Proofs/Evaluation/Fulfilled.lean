import Runbook.Proofs.Evaluation.Callers

/-!
What an invocation has done when it has returned a value.

It has begun all its entries. Where it does not come to wait for the first of two tasks, all tasks
that it has started have their values. So the work of none of its steps stands at its seat any more:
each has gone on with the value that it has waited for.
-/
namespace Runbook

/-- What the invocation has still to begin is what follows in the sequence. -/
def Work.Ahead (sequence : Sequence) : Work → Prop :=
  Entered fun _ index entries => sequence.drop index = entries

section
variable {machine : Machine} {world next last : World} {task : TaskId} {place path : List Nat}
  {now later final : Standing} {count index : Nat} {work : Work} {value : Value}
  {allowed : Need → Prop} {use : Continuation}

/-- What holds of an invocation at first and not in the end stops to hold in some step. -/
theorem Standing.exit {holds : Standing → Prop}
    (found : now.after? machine task place count = some final) (here : holds now)
    (gone : ¬holds final) :
    ∃ first middle later rest, now.after? machine task place first = some middle ∧
      GoesOn machine task place middle later ∧
      later.after? machine task place rest = some final ∧ count = first + 1 + rest ∧
      holds middle ∧ ¬holds later := by
  induction count generalizing now with
  | zero =>
      cases found
      exact absurd here gone
  | succ count ih =>
      obtain ⟨next, goesOn, found⟩ := after?_succ.mp found
      by_cases still : holds next
      · obtain ⟨first, middle, later, rest, reached, goes, ends, same, stops⟩ := ih found still
        exact ⟨first + 1, middle, later, rest, after?_succ.mpr ⟨next, goesOn, reached⟩, goes, ends,
          by omega, stops⟩
      · exact ⟨0, now, next, count, rfl, goesOn, found, by omega, here, still⟩

namespace Lasting

theorem doomed (machine : Machine) : Lasting machine fun _ work => work.Doomed where
  moves := fun moves doomed => moves.doomed doomed
  meet := fun doomed => doomed.meet
  goes := fun _ doomed => doomed

/-- A work that needs only what is allowed goes on to do so, or will fail. -/
theorem within (raceless : machine.Raceless allowed) :
    Lasting machine fun _ work => work.Doomed ∨ work.Within allowed where
  moves := by
    intro world work change moves fits
    by_cases doomed : change.work.Doomed
    · exact .inl doomed
    · rcases fits with fails | within
      · exact absurd (moves.doomed fails) doomed
      · exact .inr (moves.within raceless within doomed).1
  meet := fun fits => fits.imp (fun doomed => doomed.meet) fun within => within.meet
  goes := fun _ fits => fits

/-- An invocation begins its entries in their order. -/
theorem ahead (machine : Machine) (sequence : Sequence) :
    Lasting machine fun _ work => work.Ahead sequence :=
  entered fun _ ahead => by rw [← List.tail_drop, ahead, List.tail_cons]

end Lasting

theorem Work.eq_of_sound {after : Work} (met : after = work ∨ after = work.meet)
    (sound : ¬after.Doomed) : after = work := by
  rcases met with same | same
  · exact same
  · cases work with
    | broken defect =>
        rw [same] at sound
        exact absurd .breaks sound
    | _ => exact same

/-- A step that calls is set up to a work that waits for the value of its argument. -/
theorem Step.waits {registry : Registry} {setting : Setting} {step : Step}
    {before after : SetUp.State} (calls : step.calls = true)
    (gives : (setUp registry setting step).Gives before work after) :
    ∃ use source, step.Uses registry use ∧ work = .after source use := by
  cases step with
  | call callee argument =>
      rw [setUp] at gives
      obtain ⟨source, _, _, gives⟩ := SetUp.gives_bind_iff.mp gives
      cases gives
      exact ⟨_, source, .call, rfl⟩
  | invoke name argument =>
      cases found : registry.lookup name with
      | none =>
          rw [setUp, found] at gives
          cases gives
      | some primitive =>
          by_cases pair : ∃ operator left right, primitive.operator = some operator ∧
              argument = .tuple [left, right]
          · obtain ⟨operator, left, right, operates, rfl⟩ := pair
            rw [SetUp.setUp_operands found operates] at gives
            obtain ⟨_, _, _, gives⟩ := SetUp.gives_bind_iff.mp gives
            obtain ⟨_, _, _, gives⟩ := SetUp.gives_bind_iff.mp gives
            obtain ⟨_, _, _, gives⟩ := SetUp.gives_bind_iff.mp gives
            obtain ⟨_, _, _, gives⟩ := SetUp.gives_bind_iff.mp gives
            cases gives
            exact ⟨_, _, .operands found operates, rfl⟩
          · have whole : ∀ operator left right, primitive.operator = some operator →
                argument ≠ .tuple [left, right] :=
              fun operator left right operates same => pair ⟨operator, left, right, operates, same⟩
            rw [SetUp.setUp_invoke found whole] at gives
            obtain ⟨source, _, _, gives⟩ := SetUp.gives_bind_iff.mp gives
            cases gives
            exact ⟨_, source, .invoke found whole, rfl⟩
  | _ => cases calls

theorem Step.calls_single {step : Step} (calls : step.calls = true) :
    (∀ steps, step ≠ .tuple steps) ∧ ∀ names inner, step ≠ .bind names inner := by
  constructor
  · rintro steps rfl
    cases calls
  · rintro names inner rfl
    cases calls

/-- The work of a step in a task that has a value in the end goes on with a value. -/
theorem Standing.settles {other : TaskId} {inner source : Work}
    (found : now.after? machine task place count = some final)
    (settled : final.world.Settled other)
    (there : now.world.tasks[other]? = some (.fresh inner))
    (seat : inner.seat? path = some (.after source use)) :
    ∃ first rest middle later before after given, count = first + 1 + rest ∧
      now.after? machine task place first = some middle ∧
      GoesOn machine task place middle later ∧
      middle.world.tasks[other]? = some before ∧
      before.seat? path = some (.after (.done (.ok given)) use) ∧
      later.world.tasks[other]? = some after ∧
      after.seat? path = some (machine.goOn middle.world.clock given use).work := by
  let holds (now : Standing) : Prop := ∃ work, now.world.tasks[other]? = some work ∧
    (work = .fresh inner ∨ ∃ source, work.seat? path = some (.after source use))
  have gone : ¬holds final := by
    rintro ⟨work, there, stands⟩
    obtain ⟨value, settled⟩ := settled
    obtain rfl := Option.some.inj (there.symm.trans settled)
    rcases stands with same | ⟨source, seat⟩
    · cases same
    · cases path <;> cases seat
  obtain ⟨first, middle, later, rest, reached, goesOn, ends, same, ⟨before, there, stands⟩,
    stops⟩ := @Standing.exit _ _ _ _ _ _ holds found ⟨_, there, .inl rfl⟩ gone
  obtain ⟨after, origin, now, met, moved⟩ := (World.step?_goes goesOn.1).stands there
  have sound : ¬after.Doomed := by
    have reaches := Proceeds.reaches (.of_after? ends)
    exact settled.free.sound reaches now
  obtain rfl := Work.eq_of_sound met sound
  rcases moved with rfl | ⟨change, moves, rfl⟩
  · exact absurd ⟨_, now, stands⟩ stops
  · rcases stands with rfl | ⟨source, here⟩
    · cases moves with
      | fresh => exact absurd ⟨_, now, .inr ⟨_, seat⟩⟩ stops
    · rcases moves.seat here with ⟨later, still⟩ | ⟨given, rfl, _, gone⟩ | doomed
      · exact absurd ⟨_, now, .inr ⟨_, still⟩⟩ stops
      · exact ⟨first, rest, middle, later, before, _, given, same, reached, goesOn, there, here,
          now, gone⟩
      · exact absurd doomed sound

/-- One step back, all is settled that the part which moves owes, and all that it starts. -/
theorem World.settles_part {change : Change} (raceless : machine.Raceless allowed)
    (stepped : world.step? machine = some next) (reaches : next.Reaches machine last)
    (moves : Moves machine world work change) (within : work.Within allowed)
    (sound : ¬change.work.Doomed)
    (starts : ∀ (index : Nat) (work : Work), change.started[index]? = some work →
      ∃ found, next.tasks[world.tasks.length + index]? = some found ∧
        (found = work ∨ found = work.meet))
    (owed : ∀ other, change.work.Owes other → last.Settled other) :
    (∀ other, work.Owes other → last.Settled other) ∧
      SettledFrom last.Settled world.tasks.length change.started.length := by
  refine moves.settles raceless within sound ?_ ?_ owed
  · intro other value there
    exact Settled.later ⟨value, (step?_goes stepped).done there⟩ reaches
  · intro index found begun settled other owes
    obtain ⟨later, now, met⟩ := starts index found begun
    have needs := (moves.within raceless within sound).2 found (List.mem_of_getElem? begun)
    have redeemed := Reaches.redeemed raceless reaches
    rcases met with rfl | rfl
    · exact redeemed _ _ now needs settled.free other owes
    · exact redeemed _ _ now needs.meet settled.free other owes.meet

/-- The invocation has returned the value at the standing. -/
def Standing.Returns (now : Standing) (task : TaskId) (place : List Nat) (value : Value) : Prop :=
  now.world.part? task place = some (.done (.ok value))

namespace Standing.Returns

variable (returns : final.Returns task place value)
include returns

/-- An invocation that returns a value has not been about to fail. -/
theorem sound (proceeds : Proceeds machine task place now final)
    (there : now.world.part? task place = some work) : ¬work.Doomed := by
  intro doomed
  have fails := (Lasting.doomed machine).proceeds proceeds (fun other found =>
    Option.some.inj (there.symm.trans found) ▸ doomed) _ returns
  cases fails

/-- In a step of an invocation that returns a value, a part of it moves, or it stays. -/
theorem step (goesOn : GoesOn machine task place now later)
    (proceeds : Proceeds machine task place later final) :
    ∃ before after, now.world.part? task place = some before ∧
      later.world.part? task place = some after ∧ ¬after.Doomed ∧
      (after = before ∨ ∃ change, Moves machine now.world before change ∧ after = change.work ∧
        ∀ (index : Nat) (work : Work), change.started[index]? = some work →
          ∃ found, later.world.tasks[now.world.tasks.length + index]? = some found ∧
            (found = work ∨ found = work.meet)) := by
  obtain ⟨stepped, before, after, there, going, stands, _⟩ := goesOn
  have sound := returns.sound proceeds stands
  refine ⟨before, after, there, stands, sound, ?_⟩
  rcases (World.step?_goes stepped).part_starts there going stands with
    same | ⟨change, moves, met, starts⟩
  · exact .inl same
  · exact .inr ⟨change, moves, Work.eq_of_sound met sound, starts⟩

/-- The work of a step of an entry that an invocation performs goes on with a value, if the
invocation returns one. -/
theorem own {current source : Work}
    (found : now.after? machine task place count = some final)
    (entry : (now.world.part? task place).bind (Work.performing? index) = some current)
    (seat : current.seat? path = some (.after source use)) :
    ∃ first rest middle later before after given, count = first + 1 + rest ∧
      now.after? machine task place first = some middle ∧
      GoesOn machine task place middle later ∧
      (middle.world.part? task place).bind (Work.performing? index) = some before ∧
      before.seat? path = some (.after (.done (.ok given)) use) ∧
      (later.world.part? task place).bind (Work.performing? index) = some after ∧
      after.seat? path = some (machine.goOn middle.world.clock given use).work := by
  let holds (now : Standing) : Prop := ∃ current source,
    (now.world.part? task place).bind (Work.performing? index) = some current ∧
      current.seat? path = some (.after source use)
  have gone : ¬holds final := by
    rintro ⟨current, source, entry, _⟩
    rw [returns, Option.bind_some] at entry
    cases entry
  obtain ⟨first, middle, later, rest, reached, goesOn, ends, same, ⟨before, source, entry, seat⟩,
    stops⟩ := @Standing.exit _ _ _ _ _ _ holds found ⟨current, source, entry, seat⟩ gone
  obtain ⟨work, after, there, stands, sound, moved⟩ := returns.step goesOn (.of_after? ends)
  rw [there, Option.bind_some] at entry
  obtain ⟨frame, entries, rfl⟩ := Work.performing?_eq_some.mp entry
  have waiting : ∀ outcome, before ≠ .done outcome := by
    rintro outcome rfl
    cases path <;> cases seat
  rcases moved with rfl | ⟨change, moves, rfl, _⟩
  · exact absurd ⟨before, source, World.performing stands, seat⟩ stops
  · cases moves with
    | current moves =>
        rcases moves.seat seat with ⟨later, still⟩ | ⟨given, rfl, _, gone⟩ | doomed
        · exact absurd ⟨_, later, World.performing stands, still⟩ stops
        · exact ⟨first, rest, middle, later, before, _, given, same, reached, goesOn,
            World.performing there, seat, World.performing stands, gone⟩
        · exact absurd (.current doomed) sound
    | begin => exact absurd rfl (waiting _)
    | last => exact absurd rfl (waiting _)
    | bodyFails => exact absurd rfl (waiting _)
    | bodyBreaks => cases path <;> cases seat

/-- Where nothing races, all that an invocation owes has its value when it returns one. -/
theorem owed (raceless : machine.Raceless allowed)
    (found : now.after? machine task place count = some final)
    (there : now.world.part? task place = some work) (within : work.Within allowed) :
    ∀ other, work.Owes other → final.world.Settled other := by
  induction count generalizing now work with
  | zero =>
      cases found
      obtain rfl := Option.some.inj (there.symm.trans returns)
      intro other owes
      cases owes
  | succ count ih =>
      obtain ⟨later, goesOn, rest⟩ := Standing.after?_succ.mp found
      have proceeds := Proceeds.of_after? rest
      obtain ⟨before, after, stood, stands, sound, moved⟩ := returns.step goesOn proceeds
      obtain rfl := Option.some.inj (stood.symm.trans there)
      rcases moved with rfl | ⟨change, moves, rfl, starts⟩
      · exact ih rest stands within
      · exact (World.settles_part raceless goesOn.1 proceeds.reaches moves within sound starts
          (ih rest stands (moves.within raceless within sound).1)).1

/-- Where nothing races, the tasks that are started with an entry have their values when the
invocation returns one. -/
theorem settled {begun : Standing} {state : SetUp.State} {frame : Frame} {entry : Entry}
    {entries : List Entry} {given : Value} (raceless : machine.Raceless allowed)
    (begins : Standing.Begins machine task place index now begun)
    (found : begun.after? machine task place count = some final)
    (within : (Work.body frame (.done (.ok given)) index (entry :: entries)).Within allowed)
    (gives : (setUpEntry machine.registry index entries.isEmpty entry).Gives
      ⟨frame, now.world.tasks.length, [], []⟩ work state)
    (stands : begun.world.part? task place = some (.body state.frame work (index + 1) entries))
    (starts : ∀ (number : Nat) (work : Work), state.started[number]? = some work →
      ∃ found, begun.world.tasks[now.world.tasks.length + number]? = some found ∧
        (found = work ∨ found = work.meet)) :
    SettledFrom final.world.Settled now.world.tasks.length state.started.length := by
  have proceeds := Proceeds.of_after? found
  have sound := returns.sound proceeds stands
  have moves :
      Moves machine now.world (.body frame (.done (.ok given)) index (entry :: entries)) _ :=
    .begin
  rw [Machine.begin_gives gives] at moves
  have inner := (moves.within raceless within sound).1
  exact (World.settles_part raceless begins.1.1 proceeds.reaches moves within sound starts
    (returns.owed raceless found stands inner)).2

end Standing.Returns

section
variable {main routine : Routine} {argument : Value} {start : World}

/-- An invocation has begun nothing yet when it opens. -/
theorem Opens.enters (opens : Opens machine main argument routine task place start) :
    ∃ value, start.part? task place = some (enter routine value).work := by
  cases opens with
  | run same first whole =>
      subst same first whole
      exact ⟨argument, rfl⟩
  | call _ _ _ _ entered => exact ⟨_, entered⟩

theorem Opens.ahead (opens : Opens machine main argument routine task place start)
    (there : start.part? task place = some work) : work.Ahead routine.sequence := by
  obtain ⟨value, entered⟩ := opens.enters
  obtain rfl := Option.some.inj (entered.symm.trans there)
  rcases Moves.enter_cases routine value with ⟨frame, same⟩ | ⟨outcome, same⟩
  · rw [same]
    rfl
  · rw [same]
    trivial

/-- When an invocation that will return a value opens, it has begun no entry, though there is one. -/
theorem Standing.Returns.early (returns : final.Returns task place value)
    (opens : Opens machine main argument routine task place start)
    (found : (⟨start, []⟩ : Standing).after? machine task place count = some final)
    (below : index < routine.sequence.length) :
    ∃ work, start.part? task place = some work ∧ ¬work.Past index := by
  obtain ⟨value, entered⟩ := opens.enters
  rcases Moves.enter_cases routine value with ⟨frame, same⟩ | ⟨outcome, same⟩
  · rw [same] at entered
    exact ⟨_, entered, Nat.not_lt_zero index⟩
  -- what has ended as it was entered performs no sequence that has an entry
  · rw [same] at entered
    cases count with
    | succ count =>
        obtain ⟨_, ⟨_, before, _, there, going, _⟩, _⟩ := Standing.after?_succ.mp found
        obtain rfl := Option.some.inj (there.symm.trans entered)
        cases going
    | zero =>
        cases found
        have stands := Invokes.stands ⟨start, opens, .refl⟩ _ returns
        cases stands with
        | settles did _ _ =>
            rw [← did.length] at below
            cases below

/-- When an invocation comes to be past an entry, it begins this one, unless it is about to fail. -/
theorem Moves.passes {change : Change} {sequence : Sequence}
    (moves : Moves machine world work change) (sound : ¬change.work.Doomed)
    (ahead : work.Ahead sequence) (below : index < sequence.length) (early : ¬work.Past index)
    (past : change.work.Past index) :
    ∃ frame value entry entries after current,
      work = .body frame (.done (.ok value)) index (entry :: entries) ∧
        change.work = .body after current (index + 1) entries := by
  cases moves with
  | @begin frame value number entry entries =>
      rcases machine.begin_cases world.tasks.length frame number entry entries with
        ⟨current, state, _, begin⟩ | ⟨_, _, _, broken⟩
      · rw [begin] at past ⊢
        obtain rfl : number = index :=
          Nat.le_antisymm (Nat.le_of_not_lt early) (Nat.le_of_lt_succ past)
        exact ⟨frame, value, entry, entries, _, current, rfl, rfl⟩
      · rw [broken] at sound
        exact absurd .breaks sound
  | last =>
      have short := List.drop_eq_nil_iff.mp ahead
      exact absurd (Nat.lt_of_lt_of_le below short) early
  | current _ => exact absurd past early
  | bodyFails => exact absurd .fails sound
  | bodyBreaks => exact absurd .breaks sound
  | settled => exact absurd trivial early
  | settle _ _ => exact absurd trivial early
  | _ => cases ahead

/-- An invocation that returns a value has begun each of its entries. -/
theorem Standing.Returns.begins (returns : final.Returns task place value)
    (opens : Opens machine main argument routine task place start)
    (found : (⟨start, []⟩ : Standing).after? machine task place count = some final)
    (below : index < routine.sequence.length) :
    ∃ first now begun rest,
      (⟨start, []⟩ : Standing).after? machine task place first = some now ∧
      Standing.Begins machine task place index now begun ∧
      begun.after? machine task place rest = some final ∧ count = first + 1 + rest := by
  let holds (now : Standing) : Prop :=
    ∃ work, now.world.part? task place = some work ∧ ¬work.Past index
  have gone : ¬holds final := by
    rintro ⟨work, there, early⟩
    obtain rfl := Option.some.inj (there.symm.trans returns)
    exact early trivial
  obtain ⟨first, now, begun, rest, reached, goesOn, ends, same, ⟨work, there, early⟩, stops⟩ :=
    @Standing.exit _ _ _ _ _ _ holds found (returns.early opens found below) gone
  obtain ⟨before, after, stood, stands, sound, moved⟩ := returns.step goesOn (.of_after? ends)
  obtain rfl := Option.some.inj (stood.symm.trans there)
  have ahead : before.Ahead routine.sequence :=
    (Lasting.ahead machine routine.sequence).proceeds (.of_after? reached)
      (fun _ there => opens.ahead there) before there
  rcases moved with rfl | ⟨change, moves, rfl, _⟩
  · exact absurd ⟨_, stands, early⟩ stops
  · have past : change.work.Past index := by
      by_contra early
      exact stops ⟨_, stands, early⟩
    obtain ⟨frame, value, entry, entries, more, current, rfl, after⟩ :=
      moves.passes sound ahead below early past
    rw [after] at stands
    exact ⟨first, now, begun, rest, reached,
      ⟨goesOn, ⟨frame, value, _, there⟩, current, World.performing stands⟩, ends, same⟩

/-- When an invocation begins the entry of a step, the step is set up, and its work has its seat. -/
theorem Standing.Begins.seats {begun : Standing} {site : Site} {step : Step}
    (begins : Standing.Begins machine task place site.before.length now begun)
    (opens : Opens machine main argument routine task place start)
    (reached : (⟨start, []⟩ : Standing).after? machine task place count = some now)
    (inside : routine.sequence = site.sequence step) (single : ∀ steps, step ≠ .tuple steps)
    (other : ∀ names inner, step ≠ .bind names inner) :
    ∃ frame given work state began inner ended,
      now.world.part? task place = some (.body frame (.done (.ok given)) site.before.length
        (⟨site.setting, site.context.fill step⟩ :: site.after)) ∧
      (setUpEntry machine.registry site.before.length site.after.isEmpty
        ⟨site.setting, site.context.fill step⟩).Gives ⟨frame, now.world.tasks.length, [], []⟩ work
          state ∧
      begun.world.part? task place =
        some (.body state.frame work (site.before.length + 1) site.after) ∧
      (∀ (number : Nat) (work : Work), state.started[number]? = some work →
        ∃ found, begun.world.tasks[now.world.tasks.length + number]? = some found ∧
          (found = work ∨ found = work.meet)) ∧
      SetUp.Arrives machine.registry site.setting step site.context
        ⟨frame, now.world.tasks.length, [], [.starting site.before.length site.setting]⟩ began ∧
      (setUp machine.registry site.setting step).Gives began inner ended ∧
      SetUp.Seated (site.context.seat machine.registry step) (site.context.starts machine.registry)
        began inner ended ⟨frame, now.world.tasks.length, [], []⟩ work state state.started := by
  obtain ⟨frame, given, entry, entries, work, state, there, gives, stands, starts⟩ := begins.setsUp
  have ahead : routine.sequence.drop site.before.length = entry :: entries :=
    (Lasting.ahead machine routine.sequence).proceeds (.of_after? reached)
      (fun _ there => opens.ahead there) _ there
  rw [inside, Site.sequence, List.drop_left] at ahead
  obtain ⟨rfl, rfl⟩ := List.cons.inj ahead
  obtain ⟨started, adds⟩ := SetUp.adds_setUpEntry gives
  obtain rfl : state.started = started := adds.tasks
  obtain ⟨began, inner, ended, arrives, sets, seated⟩ :=
    SetUp.seated_entry single other site.context gives adds
  exact ⟨frame, given, work, state, began, inner, ended, there, gives, stands, starts, arrives,
    sets, seated⟩

/-- An invocation that returns a value needs only what is allowed on its way. -/
theorem Standing.Returns.within (returns : final.Returns task place value)
    (raceless : machine.Raceless allowed) (needs : ∀ need ∈ routine.needs, allowed need)
    (opens : Opens machine main argument routine task place start)
    (before : Proceeds machine task place ⟨start, []⟩ now)
    (after : Proceeds machine task place now final)
    (there : now.world.part? task place = some work) : work.Within allowed := by
  have fits := (Lasting.within raceless).proceeds before (fun work there => ?_) work there
  · exact fits.resolve_left (returns.sound after there)
  · obtain ⟨value, entered⟩ := opens.enters
    obtain rfl := Option.some.inj (entered.symm.trans there)
    exact .inr (Moves.enter_within needs)

/-- An invocation that returns a value and does not come to race has made the call of each of its
steps. -/
theorem Standing.Returns.calls {site : Site} {step : Step}
    (returns : final.Returns task place value)
    (raceless : machine.Raceless allowed) (needs : ∀ need ∈ routine.needs, allowed need)
    (opens : Opens machine main argument routine task place start)
    (found : (⟨start, []⟩ : Standing).after? machine task place count = some final)
    (inside : routine.sequence = site.sequence step) (calls : step.calls = true) :
    ∃ call other spot, call < count ∧ site.Calls machine task place start step call other spot := by
  have below : site.before.length < routine.sequence.length := by
    rw [inside, Site.sequence, List.length_append, List.length_cons]
    exact Nat.lt_add_of_pos_right (Nat.succ_pos _)
  obtain ⟨first, now, begun, rest, reached, begins, ends, rfl⟩ := returns.begins opens found below
  obtain ⟨frame, given, work, state, _, inner, _, there, gives, stands, starts, _, sets, seated⟩ :=
    begins.seats opens reached inside (Step.calls_single calls).1 (Step.calls_single calls).2
  have holds := seated.holds
  obtain ⟨use, source, uses, rfl⟩ := Step.waits calls sets
  cases position : site.context.seat machine.registry step with
  | mk number path =>
      rw [position] at holds
      cases number with
      | none =>
          obtain ⟨more, last, middle, later, before, after, operand, rfl, comes, goesOn, entry,
            waits, entry', gone⟩ := returns.own ends (World.performing stands) holds
          exact ⟨first + 1 + more, _, _, by omega, middle.world, later.world, use, operand, uses,
            .of_seat position (.own reached begins comes entry) waits,
            .of_seat position (.own reached begins (Standing.after?_snoc comes goesOn) entry') gone⟩
      | some number =>
          obtain ⟨other, task, seat⟩ := holds
          have within := returns.within raceless needs opens (Proceeds.of_after? reached)
            (.head begins.1 (Proceeds.of_after? ends)) there
          have settled := returns.settled raceless begins ends within gives stands starts number
            (List.getElem?_eq_some_iff.mp task).1
          have fresh :
              begun.world.tasks[now.world.tasks.length + number]? = some (.fresh other) := by
            obtain ⟨_, there, rfl | rfl⟩ := starts number _ task
            · exact there
            · exact there
          obtain ⟨more, last, middle, later, before, after, operand, rfl, comes, goesOn, there,
            waits, there', gone⟩ := Standing.settles ends settled fresh seat
          have steps := Standing.steps_of_after? comes
          have onward := steps.append (.head goesOn.1 .refl)
          exact ⟨first + 1 + more, _, _, by omega, middle.world, later.world, use, operand, uses,
            .of_seat position (.started reached begins steps there) waits,
            .of_seat position (.started reached begins onward there') gone⟩

end

end

end Runbook
