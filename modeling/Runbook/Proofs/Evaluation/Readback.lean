import Runbook.Proofs.Evaluation.Grouped

/-!
Groups of values, and what reads a group of names.

Results that become one value, or none, can be told apart again by how many names they are for. So
the names of a group give back each what its step has come to, whether they are read together or one
alone.
-/
namespace Runbook

namespace Value

variable {count : Nat}

/-- Results are split as they were. -/
theorem split_ofResults {values : List Value} (size : values.length = count) :
    (ofResults values).split count = .ok ⟨values, size⟩ := by
  subst size
  match values with
  | [] => rfl
  | [value] => rfl
  | first :: second :: values =>
      change (parallel (first :: second :: values)).split _ = _
      rw [split, dif_neg (by simp)]
      exact dif_pos rfl

/-- What a value is split into makes it again; no results are `()`, which need not be how they were
written. -/
theorem ofResults_split {value : Value} {values : { values : List Value // values.length = count }}
    (parts : value.split count = .ok values) :
    ofResults values.val = value ∨ value = .parallel [] ∧ count = 0 := by
  by_cases single : count = 1
  · subst single
    cases parts
    exact .inl rfl
  · cases value with
    | parallel whole =>
        obtain ⟨size, parts⟩ : ∃ size : whole.length = count, values = ⟨whole, size⟩ := by
          rw [split, dif_neg single] at parts
          split at parts
          · cases parts
            exact ⟨_, rfl⟩
          · cases parts
        subst parts
        match whole with
        | [] => exact .inr ⟨rfl, size.symm⟩
        | [_] => exact absurd size.symm single
        | _ :: _ :: _ => exact .inl rfl
    | unit =>
        rw [split, dif_neg single] at parts
        split at parts
        · cases parts
          exact .inl rfl
        · cases parts
    | _ => simp [split, single] at parts

end Value

theorem Value.length_parts {count : Nat} (parts : { values : List Value // values.length = count }) :
    count = parts.val.length := parts.property.symm

/-- The part of an outcome that is for one of so many names. -/
def Outcome.part {count : Nat} (place : Fin count) (outcome : Outcome) : Outcome :=
  outcome.bind fun value =>
    (value.split count).map fun parts => parts.val.get (place.cast (Value.length_parts parts))

theorem Outcome.part_ofResults {count : Nat} (place : Fin count) {values : List Value}
    (size : values.length = count) :
    Outcome.part place (.ok (.ofResults values)) = .ok (values.get (place.cast size.symm)) := by
  rw [part, Except.bind, Value.split_ofResults size]
  rfl

/-- A name of a group of different names has its own place. -/
theorem placeOf?_get {names : List Name} (distinct : names.Nodup) (place : Fin names.length) :
    placeOf? (names.get place) names = some place := by
  induction names with
  | nil => exact place.elim0
  | cons name names ih =>
      obtain ⟨apart, distinct⟩ := List.nodup_cons.mp distinct
      cases place using Fin.cases with
      | zero =>
          have unplaced : placeOf? name names = none := by
            rw [← Option.not_isSome_iff_eq_none, Frame.placeOf?_isSome_iff]
            exact apart
          simp [placeOf?, unplaced]
      | succ place =>
          have later : placeOf? ((name :: names).get place.succ) names = some place :=
            ih distinct place
          rw [placeOf?, later]

/-- What reads a name of a group whose values a task gives. -/
def Work.reading (task : TaskId) (names : List Name) (name : Name) : Work :=
  match placeOf? name names with
  | some place => .after (.wait task) (.pick names.length place)
  | none => .broken (.unboundName name)

theorem Machine.goOn_pick (machine : Machine) (clock : Nat) (value : Value) {count : Nat}
    (place : Fin count) : machine.goOn clock value (.pick count place) =
      .become (.done (Outcome.part place (.ok value))) := by
  rw [goOn, Outcome.part, Except.bind]
  cases value.split count <;> rfl

namespace Work

variable {machine : Machine} {given : World → Prop} {task : TaskId} {verdict : Option Outcome}
  {count size : Nat} {shape : Shape} {work : Work} {world : World}

/-- What waits for a task that has ended has its end. -/
theorem step?_wait (machine : Machine) (ended : world.CameTo task verdict) :
    ∃ work, work.Concludes verdict ∧
      machine.step? world (.wait task) = some ((Change.become work).meeting task) := by
  obtain ⟨work, there, concludes⟩ := ended
  refine ⟨work, concludes, ?_⟩
  rw [Machine.step?, there, Option.bind_some, concludes.ended]
  rfl

/-- What takes the part of a value that is there has it. -/
theorem Concludes.pick (place : Fin count) (concludes : work.Concludes verdict) :
    (Work.after work (.pick count place)).Fated machine given
      (Concludes (verdict.map (Outcome.part place))) 1 := by
  refine .step fun world _ => ?_
  cases verdict with
  | none =>
      obtain ⟨defect, rfl⟩ := concludes
      exact ⟨_, rfl, rfl, defect, rfl⟩
  | some outcome =>
      obtain rfl : work = .done outcome := concludes
      cases outcome with
      | error failure => exact ⟨_, rfl, rfl, rfl⟩
      | ok value =>
          refine ⟨.become (.done (Outcome.part place (.ok value))), ?_, rfl, rfl⟩
          rw [Machine.step?, Machine.goOn_pick]

/-- What waits for a task and takes a part of its value has that part once the task has ended. -/
theorem fated_pick (machine : Machine) (task : TaskId) (verdict : Option Outcome)
    (place : Fin count) :
    (Work.after (.wait task) (.pick count place)).Fated machine (World.CameTo task verdict)
      (Concludes (verdict.map (Outcome.part place))) 2 := by
  refine .step fun world ended => ?_
  obtain ⟨work, concludes, moved⟩ := step?_wait machine ended
  refine ⟨((Change.become work).meeting task).within (.after · (.pick count place)), ?_, rfl,
    concludes.pick place⟩
  rw [Machine.step?_after _ rfl, moved]
  rfl

theorem value?_of_failed? (fails : work.failed? = some work) : work.value? = none := by
  cases work with
  | done outcome =>
      cases outcome with
      | ok value => cases fails
      | error failure => rfl
  | _ => rfl

theorem broken?_of_failed? (fine : work.failed? = none) : work.broken? = none := by
  cases work with
  | broken defect => cases fine
  | _ => rfl

theorem spoiled?_eq_none {members : List Work} (fine : ∀ member ∈ members, member.failed? = none) :
    spoiled? members = none := by
  rw [spoiled?]
  split
  · exact List.findSome?_eq_none_iff.mpr fine
  · have unbroken : members.findSome? broken? = none :=
      List.findSome?_eq_none_iff.mpr fun member inside => broken?_of_failed? (fine member inside)
    rw [unbroken, Option.bind_eq_none_iff]
    exact fun member first => fine member ((List.dropWhile_sublist _).subset (List.mem_of_head? first))

/-- If no other fails, a failure of the first member is what spoils the gathering. -/
theorem spoiled?_cons {members : List Work} (fails : work.failed? = some work)
    (fine : ∀ member ∈ members, member.failed? = none) : spoiled? (work :: members) = some work := by
  rw [spoiled?]
  split
  · rw [List.findSome?_cons, fails]
  · have unbroken : members.findSome? broken? = none :=
      List.findSome?_eq_none_iff.mpr fun member inside => broken?_of_failed? (fine member inside)
    rw [List.findSome?_cons, unbroken]
    cases work with
    | broken defect => rfl
    | done outcome =>
        rw [List.dropWhile_cons, value?_of_failed? fails]
        exact fails
    | _ => cases fails

theorem mapM_value?_map (values : List Value) :
    (values.map fun value => Work.done (.ok value)).mapM value? = some values := by
  induction values with
  | nil => rfl
  | cons value values ih =>
      rw [List.map_cons, List.mapM_cons, ih]
      rfl

/-- Values are not all there as long as one is not. -/
theorem mapM_value?_eq_none {members : List Work} {member : Work} (inside : member ∈ members)
    (going : member.value? = none) : members.mapM value? = none := by
  cases collected : members.mapM value? with
  | none => rfl
  | some values =>
      obtain ⟨value, rfl⟩ := done_of_collected collected inside
      cases going

/-- If the members before it cannot move, and none has failed, a member moves within the whole. -/
theorem step?_gather (before : List Work) {rest : List Work} {change : Change}
    (moved : machine.step? world work = some change)
    (still : ∀ member ∈ before, machine.step? world member = none)
    (fine : ∀ member ∈ before ++ rest, member.failed? = none) :
    machine.step? world (.gather shape (before ++ work :: rest)) =
      some (change.within fun work => .gather shape (before ++ work :: rest)) := by
  have going := ended?_of_step? moved
  have unfailed : work.failed? = none := by
    cases work with
    | done outcome => cases going
    | broken defect => cases going
    | _ => rfl
  have unvalued : work.value? = none := by
    cases work with
    | done outcome => cases going
    | _ => rfl
  have whole : ∀ member ∈ before ++ work :: rest, member.failed? = none := by
    intro member inside
    rcases List.mem_append.mp inside with first | last
    · exact fine member (List.mem_append_left _ first)
    · rcases List.mem_cons.mp last with rfl | last
      · exact unfailed
      · exact fine member (List.mem_append_right _ last)
  have skips {before : List Work} {context : List Work → Work}
      (still : ∀ member ∈ before, machine.step? world member = none) :
      machine.stepFirst? world context (before ++ work :: rest) =
        some (change.within fun work => context (before ++ work :: rest)) := by
    induction before generalizing context with
    | nil => rw [List.nil_append, Machine.stepFirst?, moved]; rfl
    | cons member before ih =>
        rw [List.forall_mem_cons] at still
        rw [List.cons_append, Machine.stepFirst?, still.1]
        exact ih still.2
  rw [Machine.step?, spoiled?_eq_none whole, mapM_value?_eq_none
    (List.mem_append_right _ List.mem_cons_self) unvalued]
  exact skips still

/-- A work that is fated to have a value has not failed. -/
theorem Fated.failed? {value : Value}
    (fated : work.Fated machine given (Concludes (some (.ok value))) count) (holds : given world) :
    work.failed? = none := by
  by_cases done : work.Concludes (some (.ok value))
  · obtain rfl : work = .done (.ok value) := done
    rfl
  · obtain ⟨change, _, _, moved, _⟩ := fated.moves _ holds done
    have going := ended?_of_step? moved
    cases work with
    | done outcome => cases going
    | broken defect => cases going
    | _ => rfl

theorem fated_fine {members : List Work} {values : List Value}
    (all : List.Forall₂ (fun member value =>
      member.Fated machine given (Concludes (some (.ok value))) count) members values)
    (holds : given world) : ∀ member ∈ members, member.failed? = none := by
  induction all with
  | nil => exact List.forall_mem_nil _
  | cons first _ ih => exact List.forall_mem_cons.mpr ⟨first.failed? holds, ih⟩

/-- Members that are fated to have values are gathered to what these make. -/
theorem fated_values (shape : Shape) {members : List Work} {values : List Value}
    (all : List.Forall₂ (fun member value =>
      member.Fated machine given (Concludes (some (.ok value))) count) members values)
    (before : List Value) :
    (Work.gather shape (before.map (fun value => .done (.ok value)) ++ members)).Fated machine given
      (Concludes (some (.ok (shape.collect (before ++ values))))) (members.length * count + 1) := by
  induction all generalizing before with
  | nil =>
      rw [List.append_nil, List.append_nil]
      refine .step fun world _ => ⟨.become (.done (.ok (shape.collect before))), ?_, rfl, .here rfl⟩
      have fine : ∀ member ∈ before.map fun value => Work.done (.ok value),
          member.failed? = none := by
        intro member inside
        obtain ⟨value, _, rfl⟩ := List.mem_map.mp inside
        rfl
      rw [Machine.step?, spoiled?_eq_none fine, mapM_value?_map]
  | @cons member value members values first rest ih =>
      have more := ih (before ++ [value])
      rw [List.map_append, List.append_assoc, List.append_assoc] at more
      rw [List.length_cons, Nat.succ_mul, Nat.add_comm (members.length * count), Nat.add_assoc]
      refine first.context (fun work => .gather shape
        (before.map (fun value => .done (.ok value)) ++ work :: members)) ?_ ?_
      · intro world work change holds moved
        refine step?_gather _ moved (fun member inside => ?_) fun member inside => ?_
        · obtain ⟨value, _, rfl⟩ := List.mem_map.mp inside
          rfl
        · rcases List.mem_append.mp inside with inside | inside
          · obtain ⟨value, _, rfl⟩ := List.mem_map.mp inside
            rfl
          · exact fated_fine rest holds member inside
      · rintro _ rfl
        exact more

/-- If the first member is fated to fail, and no other fails before, so is the whole. -/
theorem fated_failure {members : List Work}
    (first : work.Fated machine given (Concludes verdict) count)
    (fails : ∀ value, verdict ≠ some (.ok value))
    (fine : ∀ member ∈ members, member.failed? = none) :
    (Work.gather shape (work :: members)).Fated machine given (Concludes verdict) (count + 1) := by
  refine first.context (fun work => .gather shape (work :: members)) ?_ ?_
  · intro world work change _ moved
    exact step?_gather [] moved (List.forall_mem_nil _) fine
  · intro work concludes
    refine .step fun world _ => ⟨.become work, ?_, rfl, concludes⟩
    have failed : work.failed? = some work := by
      cases verdict with
      | none =>
          obtain ⟨defect, rfl⟩ := concludes
          rfl
      | some outcome =>
          obtain rfl : work = .done outcome := concludes
          cases outcome with
          | ok value => exact absurd rfl (fails value)
          | error failure => rfl
    rw [Machine.step?, spoiled?_cons failed fine]

/-- The last entry of a body ends as its work is fated to. -/
theorem Fated.body {frame : Frame} {index : Nat} (fated : work.Fated machine given
      (Concludes verdict) count) (asked : frame.unobserved = []) :
    (Work.body frame work index []).Fated machine given (Concludes verdict) (count + 2) := by
  refine fated.context (Work.body frame · index []) (fun _ moved => ?_) fun work ends =>
    ends.body asked
  rw [Machine.step?_body frame index [] (ended?_of_step? moved), moved]
  rfl

theorem reading_of_mem (task : TaskId) {names : List Name} {name : Name} (inside : name ∈ names) :
    ∃ place, placeOf? name names = some place ∧
      reading task names name = .after (.wait task) (.pick names.length place) := by
  obtain ⟨place, found⟩ := Option.isSome_iff_exists.mp (Frame.placeOf?_isSome inside)
  exact ⟨place, found, by rw [reading, found]⟩

/-- What reads the names waits for the task that gives their values. -/
theorem reading_still {names : List Name} {name : Name} (inside : name ∈ names)
    (going : world.tasks[task]?.bind ended? = none) :
    machine.step? world (reading task names name) = none := by
  obtain ⟨place, _, same⟩ := reading_of_mem task inside
  rw [same, Machine.step?_after _ rfl, Machine.step?, going]
  rfl

theorem wakes_reading (task : TaskId) (names : List Name) (name : Name) :
    (reading task names name).wakes = [] := by
  rw [reading]
  split <;> rfl

theorem failed?_reading {names : List Name} {name : Name} (inside : name ∈ names) :
    (reading task names name).failed? = none := by
  obtain ⟨place, _, same⟩ := reading_of_mem task inside
  rw [same]
  rfl

/-- Each of the different names of a group gets the value of its place. -/
theorem fated_readings (machine : Machine) (task : TaskId) {names : List Name}
    (distinct : names.Nodup) {values : List Value}
    (size : values.length = names.length) :
    List.Forall₂ (fun member value => member.Fated machine
        (World.CameTo task (some (.ok (.ofResults values)))) (Concludes (some (.ok value))) 2)
      (names.map (reading task names)) values := by
  rw [List.forall₂_iff_get]
  refine ⟨by rw [List.length_map, size], fun index below below' => ?_⟩
  have place : index < names.length := size ▸ below'
  have found : placeOf? names[index] names = some ⟨index, place⟩ :=
    placeOf?_get distinct ⟨index, place⟩
  have picked := fated_pick machine task (some (.ok (.ofResults values)))
    (⟨index, place⟩ : Fin names.length)
  rw [Option.map_some, Outcome.part_ofResults _ size] at picked
  have same : (names.map (reading task names)).get ⟨index, below⟩ =
      .after (.wait task) (.pick names.length ⟨index, place⟩) := by
    rw [List.get_eq_getElem, List.getElem_map, reading, found]
  rw [same]
  exact picked

/-- What makes no value makes none for any of the names. -/
theorem part_of_failure {place : Fin count} (fails : ∀ value, verdict ≠ some (.ok value)) :
    verdict.map (Outcome.part place) = verdict := by
  match verdict with
  | none => rfl
  | some (.error failure) => rfl
  | some (.ok value) => exact absurd rfl (fails value)

end Work

namespace Group

variable (machine : Machine) {task : TaskId} (bound : 0 < task) {frame : Frame}
  (asked : frame.unobserved = []) {names : List Name}

/-- A group without names: the run waits for its task before it ends. -/
def empty : Group where
  machine
  task
  size := 0
  reader := .settle [(task, 0)] .unit
  readout := id
  bound
  waits world going := by
    rw [Machine.step?, Option.map_eq_none_iff, Option.bind_eq_none_iff]
    intro work there
    rw [there] at going
    cases work with
    | done outcome => cases going
    | broken defect => cases going
    | _ => rfl
  idle := rfl
  going := rfl
  reads verdict collected := by
    rw [Option.map_id, id]
    refine ⟨2, .step fun world ended => ?_⟩
    obtain ⟨work, there, concludes⟩ := ended
    rw [Machine.step?, there, Option.bind_some]
    match verdict with
    | none =>
        obtain ⟨defect, rfl⟩ := concludes
        exact ⟨_, rfl, rfl, .here ⟨defect, rfl⟩⟩
    | some (.error failure) =>
        obtain rfl : work = .done (.error failure) := concludes
        exact ⟨_, rfl, rfl, .here rfl⟩
    | some (.ok value) =>
        obtain rfl : work = .done (.ok value) := concludes
        obtain ⟨values, size, rfl⟩ := collected value rfl
        obtain rfl := List.eq_nil_of_length_eq_zero size
        exact ⟨(Change.become (.settle [] .unit)).meeting task, rfl, rfl,
          .step fun _ _ => ⟨.finish (.ok .unit), rfl, rfl, rfl⟩⟩

/-- All names of a group are read together. -/
def together (distinct : names.Nodup) (more : names ≠ []) : Group where
  machine
  task
  size := names.length
  reader := .body frame (.gather .results (names.map (Work.reading task names))) 2 []
  readout := id
  bound
  waits world going := by
    have still : ∀ member ∈ names.map (Work.reading task names),
        machine.step? world member = none ∧ member.failed? = none := by
      intro member inside
      obtain ⟨name, among, rfl⟩ := List.mem_map.mp inside
      exact ⟨Work.reading_still among going, Work.failed?_reading among⟩
    have unvalued : (names.map (Work.reading task names)).mapM Work.value? = none := by
      obtain ⟨name, inside⟩ := List.exists_mem_of_ne_nil _ more
      refine Work.mapM_value?_eq_none (List.mem_map_of_mem inside) ?_
      obtain ⟨place, _, same⟩ := Work.reading_of_mem task inside
      rw [same]
      rfl
    rw [Machine.step?_body frame 2 [] rfl, Machine.step?,
      Work.spoiled?_eq_none fun member inside => (still member inside).2, unvalued]
    dsimp only
    rw [Machine.stepFirst?_still fun member inside => (still member inside).1]
    rfl
  idle := by
    rw [Work.wakes, Work.wakes, List.eq_nil_iff_forall_not_mem]
    intro moment inside
    obtain ⟨member, among, inside⟩ := Work.mem_wakesOfAll.mp inside
    obtain ⟨name, _, rfl⟩ := List.mem_map.mp among
    rw [Work.wakes_reading] at inside
    cases inside
  going := rfl
  reads verdict collected := by
    rw [Option.map_id, id]
    by_cases fails : ∀ value, verdict ≠ some (.ok value)
    · cases names with
      | nil => exact absurd rfl more
      | cons name names =>
          obtain ⟨place, _, same⟩ :=
            Work.reading_of_mem task (@List.mem_cons_self _ name names)
          have picked := Work.fated_pick machine task verdict place
          rw [Work.part_of_failure fails, ← same] at picked
          refine ⟨_, (Work.fated_failure picked fails fun member inside => ?_).body asked⟩
          obtain ⟨other, among, rfl⟩ := List.mem_map.mp inside
          exact Work.failed?_reading (List.mem_cons_of_mem _ among)
    · obtain ⟨value, same⟩ := not_forall_not.mp fails
      obtain ⟨values, size, rfl⟩ := collected value same
      subst same
      have read := Work.fated_values .results (Work.fated_readings machine task distinct size) []
      exact ⟨_, read.body asked⟩

/-- One name of a group is read. -/
def single {name : Name} {place : Fin names.length} (found : placeOf? name names = some place) :
    Group where
  machine
  task
  size := names.length
  reader := .body frame (Work.reading task names name) 2 []
  readout := Outcome.part place
  bound
  waits world going := by
    have inside := Frame.placeOf?_isSome_iff.mp (Option.isSome_of_eq_some found)
    have waits : (Work.reading task names name).ended? = none := by
      rw [Work.reading, found]
      rfl
    rw [Machine.step?_body frame 2 [] waits, Work.reading_still inside going]
    rfl
  idle := by
    rw [Work.wakes, Work.wakes_reading]
  going := rfl
  reads verdict _ := by
    have reads : (Work.reading task names name).Fated machine (World.CameTo task verdict)
        (Work.Concludes (verdict.map (Outcome.part place))) 2 := by
      rw [Work.reading, found]
      exact Work.fated_pick machine task verdict place
    exact ⟨4, reads.body asked⟩

end Group

end Runbook
