import Runbook.Proofs.Evaluation.Invocation

/-!
Where the bodies of a run come from.

What is set up for a step has no bodies in it. So a body that stands somewhere after a step of a run
has stood there before, perhaps before its next entry, or a call has entered it.
-/
namespace Runbook

/-- Nothing in a work that is still to begin is a body. -/
def Work.Clean (work : Work) : Prop :=
  ∀ place inner, work.part? place = some (.fresh inner) → inner.bodies = []

namespace Work

variable {work part : Work} {index : Nat} {place : List Nat}

theorem bodies_inner (inside : work.inner? index = some part) : part.bodies ⊆ work.bodies := by
  cases work with
  | gather shape members =>
      rw [bodies]
      exact fun body mem => mem_bodiesOfAll.mpr ⟨part, List.mem_of_getElem? inside, mem⟩
  | after source next =>
      cases index with
      | zero =>
          cases inside
          exact List.Subset.refl _
      | succ index => cases inside
  | body frame current number entries =>
      cases index with
      | zero =>
          cases inside
          exact List.subset_cons_self _ _
      | succ index => cases inside
  | _ => cases index <;> cases inside

theorem bodies_part (there : work.part? place = some part) : part.bodies ⊆ work.bodies := by
  induction place generalizing work with
  | nil =>
      obtain rfl := Option.some.inj there
      exact List.Subset.refl _
  | cons index place ih =>
      obtain ⟨inner, inside, there⟩ := Option.bind_eq_some_iff.mp there
      exact List.Subset.trans (ih there) (bodies_inner inside)

theorem bodies_part_nil (none : work.bodies = []) (there : work.part? place = some part) :
    part.bodies = [] :=
  List.subset_nil.mp (none ▸ bodies_part there)

theorem Clean.of_bodies (none : work.bodies = []) : work.Clean := by
  intro place inner there
  have same : (Work.fresh inner).bodies = [] := bodies_part_nil none there
  exact same

theorem Clean.inner (clean : work.Clean) (inside : work.inner? index = some part) : part.Clean := by
  intro place inner there
  refine clean (index :: place) inner ?_
  rw [part?, inside]
  exact there

theorem Clean.within (clean : work.Clean) (there : work.part? place = some part) : part.Clean := by
  induction place generalizing work with
  | nil =>
      obtain rfl := Option.some.inj there
      exact clean
  | cons index place ih =>
      obtain ⟨inner, inside, there⟩ := Option.bind_eq_some_iff.mp there
      exact ih (clean.inner inside) there

theorem Clean.meet (clean : work.Clean) : work.meet.Clean := by
  intro place inner there
  obtain ⟨found, before, either⟩ := part?_meet there
  rcases either with same | same
  · exact clean place inner (same ▸ before)
  · cases found with
    | fresh other =>
        cases same
        exact clean place _ before
    | _ => cases same

end Work

namespace Moves

variable {machine : Machine} {world : World} {work after : Work} {change : Change} {index : Nat}
  {place : List Nat} {own : TaskId → Prop}

/-- A routine is entered with its whole sequence ahead, or fails for its argument. -/
theorem enter_cases (routine : Routine) (argument : Value) :
    (∃ frame, (enter routine argument).work =
      .body frame (.done (.ok .unit)) 0 routine.sequence) ∨
      ∃ outcome, (enter routine argument).work = .done outcome := by
  rw [enter]
  split
  · exact .inl ⟨_, rfl⟩
  · dsimp only
    split
    · exact .inl ⟨_, rfl⟩
    · exact .inr ⟨_, rfl⟩

/-- With a value at hand, a work ends, or waits for a moment, or enters a routine. -/
theorem goOn_cases (clock : Nat) (value : Value) (next : Continuation) :
    (∃ ended, (machine.goOn clock value next).work = ended ∧ ended.ended? = some ended) ∨
      (∃ wake outcome, (machine.goOn clock value next).work = .sleep wake outcome) ∨
      ∃ callee routine, next = .call callee ∧ machine.library.get? callee = some routine ∧
        machine.goOn clock value next = enter routine value := by
  have perform (primitive : Primitive) (events : List Event) :
      (∃ ended, (Machine.goOn.perform clock value primitive events).work = ended ∧
        ended.ended? = some ended) ∨
        ∃ wake outcome, (Machine.goOn.perform clock value primitive events).work =
          .sleep wake outcome := by
    simp only [Machine.goOn.perform]
    split
    · exact .inl ⟨_, rfl, rfl⟩
    · exact .inr ⟨_, _, rfl⟩
  cases next with
  | pick names place =>
      rw [Machine.goOn]
      split
      · exact .inl ⟨_, rfl, rfl⟩
      · exact .inl ⟨_, rfl, rfl⟩
  | call callee =>
      rw [Machine.goOn]
      cases found : machine.library.get? callee with
      | some routine => exact .inr (.inr ⟨callee, routine, rfl, found, rfl⟩)
      | none => exact .inl ⟨_, rfl, rfl⟩
  | invoke primitive => exact (perform primitive _).imp_right .inl
  | join primitive => exact (perform primitive _).imp_right .inl

/-- An entry that is begun has no bodies in its work, if it can be set up. -/
theorem begin_cases {frame : Frame} {value : Value} {number : Nat} {entry : Entry}
    {entries : List Entry}
    (framed : (Work.body frame (.done (.ok value)) number (entry :: entries)).Framed own)
    (below : ∀ task : Nat, own task → task < world.tasks.length) :
    (∃ after current, (machine.begin world.tasks.length frame number entry entries).work =
      .body after current (number + 1) entries ∧ current.bodies = []) ∨
      ∃ defect, (machine.begin world.tasks.length frame number entry entries).work =
        .broken defect := by
  obtain ⟨filled, sorted, _⟩ := framed _ List.mem_cons_self
  obtain ⟨result, state, run, _, fits⟩ :=
    @SetUp.ranks_setUpEntry machine.registry _ _ number entries.isEmpty entry
      (fun task mem => below task (filled task mem)) sorted
  rw [Machine.begin, run]
  cases result with
  | error defect => exact .inr ⟨defect, rfl⟩
  | ok work => exact .inl ⟨_, work, rfl, (fits work rfl).bodies⟩

/-- What is inside of a work after a move has no bodies, or has been there, or moves from there. -/
theorem inner_origin (moves : Moves machine world work change) (clean : work.Clean)
    (framed : work.Framed own) (below : ∀ task : Nat, own task → task < world.tasks.length)
    (inside : change.work.inner? index = some after) :
    after.bodies = [] ∨ ∃ before, work.inner? index = some before ∧
      (after = before ∨ ∃ inner, Moves machine world before inner ∧ after = inner.work) := by
  have ended {ended : Work} (ends : ended.ended? = some ended)
      (inside : ended.inner? index = some after) : after.bodies = [] := by
    rw [Work.inner?_ended ends] at inside
    cases inside
  have body {frame : Frame} {current : Work} {number : Nat} {entries : List Entry}
      (none : current.bodies = [])
      (inside : (Work.body frame current number entries).inner? index = some after) :
      after.bodies = [] := by
    cases index with
    | zero =>
        cases inside
        exact none
    | succ index => cases inside
  cases moves with
  | @fresh inner => exact .inl (List.subset_nil.mp (clean [] inner rfl ▸ Work.bodies_inner inside))
  | wait _ ends => exact .inl (ended ends inside)
  | race won => exact .inl (ended (Machine.race_ended won) inside)
  | @goOn value next =>
      rcases @goOn_cases machine world.clock value next with
        ⟨last, same, ends⟩ | ⟨_, _, same⟩ | ⟨_, routine, _, _, same⟩
      · exact .inl (ended ends (same ▸ inside))
      · rw [same] at inside
        cases inside
      · rw [same] at inside
        rcases enter_cases routine value with ⟨frame, entered⟩ | ⟨outcome, failed⟩
        · exact .inl (body rfl (entered ▸ inside))
        · exact .inl (@ended (.done outcome) rfl (failed ▸ inside))
  | source moves =>
      cases index with
      | zero =>
          cases inside
          exact .inr ⟨_, rfl, .inr ⟨_, moves, rfl⟩⟩
      | succ index => cases inside
  | spoil spoiled =>
      obtain ⟨_, _, fails⟩ := spoiled_mem spoiled
      exact .inl (ended (Work.ended?_of_failed? fails) inside)
  | @member shape earlier member others change moves =>
      change (earlier ++ change.work :: others)[index]? = some after at inside
      change _ ∨ ∃ before, (earlier ++ member :: others)[index]? = some before ∧ _
      rcases Nat.lt_trichotomy index earlier.length with below | rfl | above
      · rw [List.getElem?_append_left below] at inside ⊢
        exact .inr ⟨after, inside, .inl rfl⟩
      · rw [List.getElem?_append_right (Nat.le_refl _), Nat.sub_self] at inside ⊢
        cases inside
        exact .inr ⟨_, rfl, .inr ⟨_, moves, rfl⟩⟩
      · rw [List.getElem?_append_right (Nat.le_of_lt above)] at inside ⊢
        obtain ⟨distance, same⟩ := Nat.exists_eq_succ_of_ne_zero (Nat.sub_ne_zero_of_lt above)
        rw [same] at inside ⊢
        exact .inr ⟨after, inside, .inl rfl⟩
  | begin =>
      rcases begin_cases framed below with ⟨_, _, same, none⟩ | ⟨_, same⟩
      · exact .inl (body none (same ▸ inside))
      · rw [same] at inside
        cases inside
  | current moves =>
      cases index with
      | zero =>
          cases inside
          exact .inr ⟨_, rfl, .inr ⟨_, moves, rfl⟩⟩
      | succ index => cases inside
  | settle _ settles =>
      rcases settle_cases settles with rfl | ⟨_, _, ends, rfl⟩
      · cases inside
      · exact .inl (ended ends inside)
  -- what has ended has nothing inside
  | _ => cases inside

/-- A part of a work after a move has no bodies, or has been there, or moves from there. -/
theorem origin (moves : Moves machine world work change) (clean : work.Clean)
    (framed : work.Framed own) (below : ∀ task : Nat, own task → task < world.tasks.length)
    (there : change.work.part? place = some after) :
    after.bodies = [] ∨ ∃ before, work.part? place = some before ∧ before.Framed own ∧
      (after = before ∨ ∃ inner, Moves machine world before inner ∧ after = inner.work) := by
  induction place generalizing work change with
  | nil =>
      obtain rfl := Option.some.inj there
      exact .inr ⟨work, rfl, framed, .inr ⟨change, moves, rfl⟩⟩
  | cons index place ih =>
      obtain ⟨outer, inside, there⟩ := Option.bind_eq_some_iff.mp there
      rcases moves.inner_origin clean framed below inside with none | ⟨before, stood, origin⟩
      · exact .inl (Work.bodies_part_nil none there)
      · have within (part : Work) (found : before.part? place = some part) :
            work.part? (index :: place) = some part := by
          rw [Work.part?, stood]
          exact found
        have inner : before.Framed own := fun body mem => framed body (Work.bodies_inner stood mem)
        rcases origin with rfl | ⟨moved, moves, rfl⟩
        · refine .inr ⟨after, within after there, ?_, .inl rfl⟩
          exact fun body mem => inner body (Work.bodies_part there mem)
        · refine (ih moves (clean.inner stood) inner there).imp_right fun found => ?_
          exact found.imp fun part known => ⟨within part known.1, known.2⟩

/-- Only a work that is still to begin becomes one. -/
theorem fresh_origin {inner : Work} (moves : Moves machine world work change)
    (framed : work.Framed own) (below : ∀ task : Nat, own task → task < world.tasks.length)
    (same : change.work = .fresh inner) : work = .fresh (.fresh inner) := by
  have never {ended : Work} (ends : ended.ended? = some ended) : ended ≠ .fresh inner := by
    rintro rfl
    cases ends
  cases moves with
  | fresh => exact congrArg Work.fresh same
  | wait _ ends => exact absurd same (never ends)
  | race won => exact absurd same (never (Machine.race_ended won))
  | @goOn value next =>
      rcases @goOn_cases machine world.clock value next with
        ⟨last, ended, ends⟩ | ⟨_, _, sleeps⟩ | ⟨_, routine, _, _, enters⟩
      · exact absurd (ended.symm.trans same) (never ends)
      · cases sleeps.symm.trans same
      · rw [enters] at same
        rcases enter_cases routine value with ⟨frame, entered⟩ | ⟨outcome, failed⟩
        · cases entered.symm.trans same
        · cases failed.symm.trans same
  | spoil spoiled =>
      obtain ⟨_, _, fails⟩ := spoiled_mem spoiled
      exact absurd same (never (Work.ended?_of_failed? fails))
  | begin =>
      rcases begin_cases framed below with ⟨_, _, begun, _⟩ | ⟨_, breaks⟩
      · cases begun.symm.trans same
      · cases breaks.symm.trans same
  | settle _ settles =>
      rcases settle_cases settles with rfl | ⟨_, _, ends, rfl⟩
      · cases same
      · exact absurd same (never ends)
  | _ => cases same

/-- A work becomes a body when it has been one, perhaps before its next entry, or by a call. -/
theorem body_origin {frame : Frame} {current : Work} {number : Nat} {entries : List Entry}
    (moves : Moves machine world work change) (clean : work.Clean) (framed : work.Framed own)
    (below : ∀ task : Nat, own task → task < world.tasks.length)
    (same : change.work = .body frame current number entries) :
    (∃ earlier inner before ahead, work = .body earlier inner before ahead ∧
      (before = number ∧ ahead = entries ∨
        before + 1 = number ∧ ∃ entry, ahead = entry :: entries)) ∨
    ∃ value callee routine, work = .after (.done (.ok value)) (.call callee) ∧
      machine.library.get? callee = some routine ∧
      (enter routine value).work = .body frame current number entries := by
  have never {ended : Work} (ends : ended.ended? = some ended) :
      ended ≠ .body frame current number entries := by
    rintro rfl
    cases ends
  cases moves with
  | @fresh inner =>
      obtain rfl : inner = .body frame current number entries := same
      cases clean [] _ rfl
  | wait _ ends => exact absurd same (never ends)
  | race won => exact absurd same (never (Machine.race_ended won))
  | @goOn value next =>
      rcases @goOn_cases machine world.clock value next with
        ⟨last, ended, ends⟩ | ⟨_, _, sleeps⟩ | ⟨callee, routine, rfl, found, enters⟩
      · exact absurd (ended.symm.trans same) (never ends)
      · cases sleeps.symm.trans same
      · exact .inr ⟨value, callee, routine, rfl, found, enters ▸ same⟩
  | spoil spoiled =>
      obtain ⟨_, _, fails⟩ := spoiled_mem spoiled
      exact absurd same (never (Work.ended?_of_failed? fails))
  | begin =>
      rcases begin_cases framed below with ⟨_, _, begun, _⟩ | ⟨_, breaks⟩
      · cases begun.symm.trans same
        exact .inl ⟨_, _, _, _, rfl, .inr ⟨rfl, _, rfl⟩⟩
      · cases breaks.symm.trans same
  | current moves =>
      cases same
      exact .inl ⟨_, _, _, _, rfl, .inl ⟨rfl, rfl⟩⟩
  | settle _ settles =>
      rcases settle_cases settles with rfl | ⟨_, _, ends, rfl⟩
      · cases same
      · exact absurd same (never ends)
  | _ => cases same

end Moves

/-- Inside of a routine that is entered, there is only what has ended. -/
theorem Moves.enter_part {routine : Routine} {argument : Value} {index : Nat} {place : List Nat}
    {part : Work} (there : (enter routine argument).work.part? (index :: place) = some part) :
    part.ended?.isSome := by
  obtain ⟨inner, inside, there⟩ := Option.bind_eq_some_iff.mp there
  rcases Moves.enter_cases routine argument with ⟨frame, same⟩ | ⟨outcome, same⟩
  · rw [same] at inside
    cases index with
    | zero =>
        cases inside
        rw [Work.ended?_part rfl there]
        rfl
    | succ index => cases inside
  · rw [same] at inside
    cases inside

theorem Work.Clean.enter (routine : Routine) (argument : Value) :
    (Runbook.enter routine argument).work.Clean := by
  intro place inner there
  cases place with
  | nil =>
      have same := Option.some.inj there
      rcases Moves.enter_cases routine argument with ⟨frame, entered⟩ | ⟨outcome, failed⟩
      · cases entered.symm.trans same
      · cases failed.symm.trans same
  | cons index place => cases Moves.enter_part there

namespace World

variable {machine : Machine} {world next : World}

/-- Nothing in a work of a run that is still to begin is a body. -/
theorem reaches_clean {routine : Routine} {argument : Value}
    (reaches : (World.start routine argument).Reaches machine world) :
    ∀ (task : TaskId) (work : Work), world.tasks[task]? = some work → work.Clean := by
  refine reaches.works (.enter routine argument) (fun _ clean => clean.meet)
    fun {world parent moved before change} follows clean stands moves => ?_
  obtain ⟨awaits, framed, asks⟩ := follows.heeds _ _ stands
  have kept := moves.keeps asks awaits framed (fun _ => Or.inl) (fun _ owned => owned.1)
  have below (task : Nat) (owned : world.Owns parent moved task) : task < world.tasks.length :=
    owned.1
  refine ⟨fun place inner found => ?_, fun work started => ?_⟩
  · rcases moves.origin (clean _ _ stands) framed below found with
      none | ⟨part, stood, within, rfl | ⟨inside, moves, became⟩⟩
    · exact none
    · exact clean _ _ stands place inner stood
    · rw [moves.fresh_origin within below became.symm] at stood
      exact clean _ _ stands place (.fresh inner) stood
  · obtain ⟨index, begun⟩ := List.mem_iff_getElem?.mp started
    exact .of_bodies (kept.started index work begun).2

/-- Where a body stands in a run, one has stood before, perhaps before its next entry, or a call
with a value for the routine that it performs. -/
theorem Reaches.body_origin {routine : Routine} {argument : Value} {task : TaskId}
    {place : List Nat} {frame : Frame} {current : Work} {number : Nat} {entries : List Entry}
    (reaches : (World.start routine argument).Reaches machine world)
    (stepped : world.step? machine = some next)
    (there : next.part? task place = some (.body frame current number entries)) :
    (∃ earlier inner before ahead,
      world.part? task place = some (.body earlier inner before ahead) ∧
      (before = number ∧ ahead = entries ∨
        before + 1 = number ∧ ∃ entry, ahead = entry :: entries)) ∨
    ∃ value callee routine,
      world.part? task place = some (.after (.done (.ok value)) (.call callee)) ∧
      machine.library.get? callee = some routine ∧
      (enter routine value).work = .body frame current number entries := by
  obtain ⟨parent, follows⟩ := reaches_follows reaches
  obtain ⟨work, now, there⟩ := Option.bind_eq_some_iff.mp there
  cases step?_goes stepped with
  | tick _ _ same =>
      rw [same] at now
      refine .inl ⟨frame, current, number, entries, ?_, .inl ⟨rfl, rfl⟩⟩
      rw [part?, now]
      exact there
  | @move moved before change stands moves _ same =>
      obtain ⟨awaits, framed, asks⟩ := follows.heeds _ _ stands
      have kept := moves.keeps asks awaits framed (fun _ => Or.inl) (fun _ owned => owned.1)
      rw [same] at now
      obtain ⟨found, either, origin⟩ := getElem?_tasksAfter now
      have there : found.part? place = some (.body frame current number entries) := by
        rcases either with rfl | rfl
        · exact there
        · obtain ⟨part, stands, rfl | met⟩ := Work.part?_meet there
          · exact stands
          · cases part with
            | body => exact met ▸ stands
            | _ => cases met
      rcases origin with ⟨rfl, rfl⟩ | ⟨_, stays⟩ | ⟨index, _, started⟩
      · have within (part : Work) (stood : before.part? place = some part) :
            world.part? task place = some part := by
          rw [part?, stands]
          exact stood
        rcases moves.origin (reaches_clean reaches _ _ stands) framed (fun _ owned => owned.1) there
          with none | ⟨part, stood, inner, rfl | ⟨inside, moves, became⟩⟩
        · cases none
        · exact .inl ⟨frame, current, number, entries, within _ stood, .inl ⟨rfl, rfl⟩⟩
        · have clean := Work.Clean.within (reaches_clean reaches _ _ stands) stood
          rcases moves.body_origin clean inner (fun _ owned => owned.1) became.symm with
            ⟨earlier, source, last, ahead, rfl, rest⟩ | ⟨value, callee, routine, rfl, rest⟩
          · exact .inl ⟨earlier, source, last, ahead, within _ stood, rest⟩
          · exact .inr ⟨value, callee, routine, within _ stood, rest⟩
      · refine .inl ⟨frame, current, number, entries, ?_, .inl ⟨rfl, rfl⟩⟩
        rw [part?, stays]
        exact there
      · cases Work.bodies_part_nil (kept.started index found started).2 there

end World

end Runbook
