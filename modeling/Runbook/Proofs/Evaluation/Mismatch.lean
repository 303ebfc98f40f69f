import Runbook.Proofs.Evaluation.Agreement
import Runbook.Proofs.Evaluation.Invocation
import Mathlib.Tactic.SplitIfs

/-!
Values that are not as many as the names of their binding.

A binding is checked if a step reads one of its names, or if it is an entry that others follow in
its sequence. Where the value of a checked binding is not as many as the binding has names, the run
has no value. The binding at the end of a sequence and the ones inside of other steps are not checked
unless they are read: what is waited for there is the whole value.
-/
namespace Runbook

/-- The stored value is as many as the names that stand for it. -/
def Stored.Splits (stored : Stored) : Prop :=
  ∃ values, stored.value.split stored.names.length = .ok values

theorem Stored.splits_of_part {stored : Stored} {place : Fin stored.names.length} {value : Value}
    (gives : stored.part place = .ok value) : stored.Splits := by
  rw [part] at gives
  split at gives
  · exact ⟨_, ‹_›⟩
  · cases gives

namespace Store

variable {stored : Stored}

theorem read_keeps {store after : Store} {name : Name} {value : Value}
    (gives : store.read name = .ok (value, after)) (mem : stored ∈ store) :
    stored ∈ after ∨ stored.Splits := by
  induction store generalizing after value with
  | nil => cases mem
  | cons first store ih =>
      rw [read] at gives
      split at gives
      · obtain ⟨part, splits, same⟩ := Stop.bind_eq_ok.mp gives
        cases same
        rcases List.mem_cons.mp mem with rfl | mem
        · exact .inr (Stored.splits_of_part splits)
        · exact .inl (List.mem_cons_of_mem _ mem)
      · obtain ⟨rest, found, same⟩ := Stop.bind_eq_ok.mp gives
        cases same
        rcases List.mem_cons.mp mem with rfl | mem
        · exact .inl List.mem_cons_self
        · exact (ih found mem).imp_left (List.mem_cons_of_mem _)

theorem settle_splits {store : Store} (settles : store.settle = .ok ()) (mem : stored ∈ store)
    (left : stored.taken = false) : stored.Splits := by
  induction store with
  | nil => cases mem
  | cons first store ih =>
      rw [settle] at settles
      obtain ⟨_, others, settles⟩ := Stop.bind_eq_ok.mp settles
      rcases List.mem_cons.mp mem with rfl | mem
      · rw [left, if_neg Bool.false_ne_true] at settles
        split at settles
        · exact ⟨_, ‹_›⟩
        · cases settles
      · exact ih others mem

end Store

namespace Host

variable {host : Host} {call : Callee → Value → Except Stop Value} {stored : Stored}

mutual

/-- What is stored stays so while a step is evaluated, unless it is read. -/
theorem evaluate_keeps {store after : Store} {value : Value} (mem : stored ∈ store) :
    ∀ step : Step, host.evaluate call store step = .ok (value, after) →
      stored ∈ after ∨ stored.Splits
  | .literal literal, gives => evaluateLiteral_keeps mem literal gives
  | .bind names step, gives => by
      simp only [evaluate] at gives
      obtain ⟨⟨given, middle⟩, found, same⟩ := Stop.bind_eq_ok.mp gives
      cases same
      exact (evaluate_keeps mem step found).imp_left (List.mem_cons_of_mem _)
  | .call callee argument, gives => by
      simp only [evaluate] at gives
      obtain ⟨⟨given, middle⟩, found, rest⟩ := Stop.bind_eq_ok.mp gives
      obtain ⟨result, _, same⟩ := Stop.bind_eq_ok.mp rest
      cases same
      exact evaluate_keeps mem argument found
  | .invoke name argument, gives => by
      simp only [evaluate] at gives
      obtain ⟨⟨given, middle⟩, found, rest⟩ := Stop.bind_eq_ok.mp gives
      obtain ⟨result, _, same⟩ := Stop.bind_eq_ok.mp rest
      cases same
      exact evaluate_keeps mem argument found
  | .tuple steps, gives => by
      simp only [evaluate] at gives
      obtain ⟨⟨given, middle⟩, found, same⟩ := Stop.bind_eq_ok.mp gives
      cases same
      exact evaluateAll_keeps mem steps found
  | .read name, gives => by
      rw [evaluate] at gives
      exact Store.read_keeps gives mem

theorem evaluateLiteral_keeps {store after : Store} {value : Value} (mem : stored ∈ store) :
    ∀ literal : Literal, host.evaluateLiteral call store literal = .ok (value, after) →
      stored ∈ after ∨ stored.Splits
  | .unit, gives | .text _, gives | .quantity _, gives => by
      rw [evaluateLiteral] at gives
      cases gives
      exact .inl mem
  | .tablet fields, gives => by
      simp only [evaluateLiteral] at gives
      obtain ⟨⟨given, middle⟩, found, same⟩ := Stop.bind_eq_ok.mp gives
      cases same
      exact evaluateFields_keeps mem fields found

theorem evaluateAll_keeps {store after : Store} {values : List Value} (mem : stored ∈ store) :
    ∀ steps : List Step, host.evaluateAll call store steps = .ok (values, after) →
      stored ∈ after ∨ stored.Splits
  | [], gives => by
      rw [evaluateAll] at gives
      cases gives
      exact .inl mem
  | step :: steps, gives => by
      simp only [evaluateAll] at gives
      obtain ⟨⟨given, middle⟩, found, rest⟩ := Stop.bind_eq_ok.mp gives
      obtain ⟨⟨others, last⟩, follows, same⟩ := Stop.bind_eq_ok.mp rest
      cases same
      exact (evaluate_keeps mem step found).elim (evaluateAll_keeps · steps follows) .inr

theorem evaluateFields_keeps {store after : Store} {values : List Value} (mem : stored ∈ store) :
    ∀ fields : List (Label × Step), host.evaluateFields call store fields = .ok (values, after) →
      stored ∈ after ∨ stored.Splits
  | [], gives => by
      rw [evaluateFields] at gives
      cases gives
      exact .inl mem
  | (_, step) :: fields, gives => by
      simp only [evaluateFields] at gives
      obtain ⟨⟨given, middle⟩, found, rest⟩ := Stop.bind_eq_ok.mp gives
      obtain ⟨⟨others, last⟩, follows, same⟩ := Stop.bind_eq_ok.mp rest
      cases same
      exact (evaluate_keeps mem step found).elim (evaluateFields_keeps · fields follows) .inr

end

theorem evaluateEntry_keeps {isLast : Bool} {store after : Store} {value : Value} {step : Step}
    (gives : host.evaluateEntry call isLast store step = .ok (value, after))
    (mem : stored ∈ store) : stored ∈ after ∨ stored.Splits := by
  cases step with
  | bind names step =>
      simp only [evaluateEntry] at gives
      obtain ⟨⟨given, middle⟩, found, same⟩ := Stop.bind_eq_ok.mp gives
      have kept := evaluate_keeps mem step found
      split at same
      · cases same
        exact kept.imp_left (List.mem_cons_of_mem _)
      · cases same
        exact kept.imp_left (List.mem_cons_of_mem _)
  | _ => exact evaluate_keeps mem _ gives

/-- What has not been asked for is split, by a step that reads it or at the end of the body. -/
theorem evaluateBody_splits {store : Store} {value result : Value} {entries : List Entry}
    (gives : host.evaluateBody call store value entries = .ok result) (mem : stored ∈ store)
    (left : stored.taken = false) : stored.Splits := by
  induction entries generalizing store value with
  | nil => exact Store.settle_splits (evaluateBody_nil.mp gives).1 mem left
  | cons entry entries ih =>
      obtain ⟨first, middle, found, rest⟩ := evaluateBody_cons.mp gives
      exact (evaluateEntry_keeps found mem).elim (ih rest) id

end Host

section
variable {machine : Machine} {depths : Depths machine.host} {env : TaskId → Option Value}
  {level : depths.Level}

/-- What stands inside of a work that comes to a value comes to one too. -/
theorem Work.meaning_part {work part : Work} {place : List Nat}
    (there : work.part? place = some part) (means : work.meaning depths env level ≠ none) :
    ∃ inner, part.meaning depths env inner ≠ none := by
  induction place generalizing work level with
  | nil =>
      obtain rfl := Option.some.inj there
      exact ⟨level, means⟩
  | cons index place ih =>
      obtain ⟨outer, inside, within⟩ := Option.bind_eq_some_iff.mp there
      cases work with
      | gather shape members =>
          exact @ih level outer within fun none => means
            (meaning_gather_none (List.mem_of_getElem? inside) none)
      | after source next =>
          cases index with
          | zero =>
              cases inside
              exact ih within fun none => means (meaning_after_none none)
          | succ index => cases inside
      | body frame current count entries =>
          cases index with
          | zero =>
              cases inside
              obtain ⟨value, means⟩ := Option.ne_none_iff_exists'.mp means
              obtain ⟨inner, _, result, _, _, given, _⟩ := meaning_body.mp means
              exact ih within (Option.ne_none_iff_exists'.mpr ⟨result, given⟩)
          | succ index => cases inside
      | _ => cases inside

theorem Frame.mem_store? {frame : Frame} {store : Store} {binding : Binding}
    (stores : frame.store? env = some store) (mem : binding ∈ frame.bindings) :
    ∃ stored ∈ store, binding.stored? env = some stored := by
  obtain ⟨bindings⟩ := frame
  induction bindings using List.reverseRecOn generalizing store with
  | nil => cases mem
  | append_singleton bindings last ih =>
      change (add ⟨bindings⟩ last).store? env = _ at stores
      obtain ⟨stored, rest, first, others, rfl⟩ := store?_add_eq_some.mp stores
      rcases List.mem_append.mp mem with mem | mem
      · obtain ⟨found, inside, same⟩ := ih others mem
        exact ⟨found, List.mem_cons_of_mem _ inside, same⟩
      · obtain rfl := List.mem_singleton.mp mem
        exact ⟨stored, List.mem_cons_self, first⟩

/-- The value of a binding that its frame has as not asked for is split. -/
theorem Work.meaning_unobserved {frame : Frame} {current : Work} {index : Nat}
    {entries : List Entry} {own : TaskId} {count : Nat}
    (means : (Work.body frame current index entries).meaning depths env level ≠ none)
    (left : (own, count) ∈ frame.unobserved) :
    ∃ value values, env own = some value ∧ value.split count = .ok values := by
  obtain ⟨value, means⟩ := Option.ne_none_iff_exists'.mp means
  obtain ⟨inner, store, result, _, stores, _, body⟩ := meaning_body.mp means
  obtain ⟨binding, mem, same⟩ := List.mem_filterMap.mp left
  obtain ⟨stored, inside, stands⟩ := Frame.mem_store? stores mem
  cases binding with
  | parameter name value => cases same
  | started names task observed =>
      cases observed with
      | true => cases same
      | false =>
          cases same
          obtain ⟨given, whole, rfl⟩ := Option.map_eq_some_iff.mp stands
          obtain ⟨values, split⟩ := Host.evaluateBody_splits body inside rfl
          exact ⟨given, values, whole, split⟩

/-- The value is split of which a work takes a part. -/
theorem Work.meaning_pick {own : TaskId} {count : Nat} {place : Fin count}
    (means : (Work.after (.wait own) (.pick count place)).meaning depths env level ≠ none) :
    ∃ value values, env own = some value ∧ value.split count = .ok values := by
  obtain ⟨result, means⟩ := Option.ne_none_iff_exists'.mp means
  obtain ⟨value, given, taken⟩ := Option.bind_eq_some_iff.mp means
  obtain ⟨values, split, _⟩ := Option.map_eq_some_iff.mp taken
  exact ⟨value, values, given, toOption_eq_some.mp split⟩

end

/-- Nothing has asked yet for what an entry binds that is begun, if others follow it. -/
theorem Stands.made {machine : Machine} {routine : Routine} {world : World}
    {tasks : List (Option TaskId)} {work : Work} {change : Change} {index : Nat}
    {setting : Setting} {names : List Name} {step : Step} {own : TaskId}
    (stands : Stands routine world tasks work) (moves : Moves machine world work change)
    (entry : routine.sequence[index]? = some ⟨setting, .bind names step⟩)
    (followed : index + 1 < routine.sequence.length) (fresh : tasks.length ≤ index)
    (bound : (work.binds change.work)[index - tasks.length]? = some (some own)) :
    ∃ frame current count entries, change.work = .body frame current count entries ∧
      (own, names.length) ∈ frame.unobserved := by
  cases stands with
  | settles did _ settles =>
      rw [Stands.binds_eq_nil settles] at bound
      cases bound
  | fails => cases moves
  | breaks => cases moves
  | @goes begun entries deeds parameters values frame current split did same _ =>
      cases moves with
      | last => cases bound
      | bodyFails => cases entries <;> cases bound
      | bodyBreaks => cases entries <;> cases bound
      | @current _ _ _ _ inner moves =>
          cases entries with
          | nil => cases bound
          | cons entry entries =>
              change (if begun.length = begun.length + 1 then _ else [])[_]? = _ at bound
              rw [if_neg (Nat.succ_ne_self _).symm] at bound
              cases bound
      | @begin _ value _ first entries =>
          rw [Machine.begin] at bound ⊢
          split at bound
          · rename_i work state run
            change (if begun.length + 1 = begun.length + 1 then [first.bound? state.frame]
              else [])[_]? = _ at bound
            rw [if_pos rfl, did.length, List.getElem?_singleton] at bound
            split_ifs at bound with here
            have last : index = begun.length := by
              rw [did.length] at fresh
              omega
            rw [split, last, List.getElem?_append_right (Nat.le_refl _), Nat.sub_self] at entry
            obtain rfl : first = ⟨setting, .bind names step⟩ := Option.some.inj entry
            have more : entries.isEmpty = false := by
              rw [split, last, List.length_append, List.length_cons] at followed
              cases entries with
              | nil => exact absurd followed (Nat.lt_irrefl _)
              | cons entry entries => rfl
            obtain ⟨deeds, does, after⟩ := (SetUp.setUpEntry_makes run).does
            obtain ⟨nested, bind, rfl, _, _, task, named, rfl⟩ := does
            rw [more, Frame.performAll_append] at after
            obtain rfl := Option.some.inj (named.symm.trans (Option.some.inj bound))
            refine ⟨_, _, _, _, rfl, ?_⟩
            rw [after]
            exact List.mem_filterMap.mpr ⟨_, List.mem_append_right _ List.mem_cons_self, rfl⟩
          · cases bound

/-- The names of an entry that others follow have been bound to a task: at some time nothing had
asked for it yet. -/
theorem Invokes.unobserved {machine : Machine} {main routine : Routine} {argument : Value}
    {task : TaskId} {place : List Nat} {now : Standing}
    (invokes : Invokes machine main argument routine task place now) {index : Nat}
    {setting : Setting} {names : List Name} {step : Step} {own : TaskId}
    (entry : routine.sequence[index]? = some ⟨setting, .bind names step⟩)
    (followed : index + 1 < routine.sequence.length) (bound : now.bound[index]? = some (some own)) :
    ∃ world : World, (World.start main argument).Reaches machine world ∧
      world.Reaches machine now.world ∧ ∃ frame current count entries,
        world.part? task place = some (.body frame current count entries) ∧
          (own, names.length) ∈ frame.unobserved := by
  obtain ⟨start, opens, proceeds⟩ := invokes
  have opened : (World.start main argument).Reaches machine start := by
    cases opens with
    | run => exact .refl
    | call reaches stepped _ _ _ => exact reaches.tail stepped
  induction proceeds with
  | refl => cases bound
  | @tail earlier now proceeds goesOn ih =>
      have stands := Invokes.stands ⟨start, opens, proceeds⟩
      obtain ⟨stepped, before, after, there, going, later, grown⟩ := goesOn
      rcases Nat.lt_or_ge index earlier.bound.length with old | fresh
      · rw [grown, List.getElem?_append_left old] at bound
        obtain ⟨world, comes, goes, made⟩ := ih bound
        exact ⟨world, comes, goes.tail stepped, made⟩
      · rw [grown, List.getElem?_append_right fresh] at bound
        -- the entry is begun in this very step
        obtain ⟨change, moves, rfl | rfl⟩ : ∃ change, Moves machine earlier.world before change ∧
            (after = change.work ∨ after = change.work.meet) := by
          refine ((World.step?_goes stepped).part there going later).resolve_left ?_
          rintro rfl
          rw [Work.binds_self] at bound
          cases bound
        · refine ⟨now.world, (opened.trans (Proceeds.reaches proceeds)).tail stepped, .refl, ?_⟩
          obtain ⟨frame, current, count, entries, same, left⟩ :=
            (stands before there).made moves entry followed fresh bound
          rw [later, same]
          exact ⟨frame, current, count, entries, rfl, left⟩
        · rw [Work.binds_meet] at bound
          refine ⟨now.world, (opened.trans (Proceeds.reaches proceeds)).tail stepped, .refl, ?_⟩
          obtain ⟨frame, current, count, entries, same, left⟩ :=
            (stands before there).made moves entry followed fresh bound
          rw [later, same]
          exact ⟨frame, current, count, entries, rfl, left⟩

/-- Something makes sure that the task of a binding gives as many values as the binding has names: a
step reads one of the names, or the binding is an entry that others follow. -/
inductive Checked (machine : Machine) (main : Routine) (argument : Value) (own : TaskId)
    (count : Nat) : World → Prop
  | read {world : World} {task : TaskId} {place : List Nat} {part : Fin count} :
      (World.start main argument).Reaches machine world →
      world.part? task place = some (.after (.wait own) (.pick count part)) →
      Checked machine main argument own count world
  | entry {routine : Routine} {task : TaskId} {place : List Nat} {now : Standing} {index : Nat}
      {setting : Setting} {names : List Name} {step : Step} :
      Invokes machine main argument routine task place now →
      routine.sequence[index]? = some ⟨setting, .bind names step⟩ →
      index + 1 < routine.sequence.length → now.bound[index]? = some (some own) →
      names.length = count → Checked machine main argument own count now.world

section
variable {machine : Machine} {footing : Footing machine} {depths : Depths machine.host}
  {world later : World}

theorem World.Goes.length_le (goes : world.Goes machine later) :
    world.tasks.length ≤ later.tasks.length := by
  cases goes with
  | tick _ _ same => exact Nat.le_of_eq (congrArg List.length same.symm)
  | move _ _ _ same =>
      rw [same, length_tasksAfter]
      exact Nat.le_add_right _ _

/-- What is foreseen of a task is what it comes to later. -/
theorem World.Foreseen.given (calm : ¬footing.races)
    (endless : ∀ level, depths.inside level ≠ none) {env : TaskId → Option Value}
    {levels : TaskId → depths.Level} {parent : Nat → Nat}
    (foreseen : world.Foreseen footing depths env levels parent)
    (reaches : world.Reaches machine later) {own : TaskId} (begun : own < world.tasks.length)
    {outcome : Outcome} (gets : later.tasks[own]? = some (.done outcome)) :
    env own = outcome.toOption := by
  have keeps : ∃ other levels parent, later.Foreseen footing depths other levels parent ∧
      other own = env own ∧ own < later.tasks.length := by
    refine @Reaches.keeps machine _ _ (fun later => ∃ other levels parent,
      later.Foreseen footing depths other levels parent ∧ other own = env own ∧
        own < later.tasks.length) reaches ?_ ⟨env, levels, parent, foreseen, rfl, begun⟩
    intro world next foreseen goes
    obtain ⟨_, _, _, foreseen, same, begun⟩ := foreseen
    obtain ⟨other, others, parent, kept, agree⟩ := goes_foreseen calm endless foreseen goes
    exact ⟨other, others, parent, kept, (agree own begun).trans same,
      Nat.lt_of_lt_of_le begun goes.length_le⟩
  obtain ⟨other, _, _, kept, same, _⟩ := keeps
  rw [← same, kept.expects own outcome gets]

/-- What stands inside of a sound work is sound. -/
theorem Work.Sound.part {waits own : TaskId → Prop} {work part : Work} {place : List Nat}
    (sound : work.Sound footing waits own) (there : work.part? place = some part) :
    part.Sound footing waits own := by
  induction place generalizing work with
  | nil =>
      obtain rfl := Option.some.inj there
      exact sound
  | cons index place ih =>
      obtain ⟨outer, inside, within⟩ := Option.bind_eq_some_iff.mp there
      cases work with
      | gather shape members =>
          exact ih (Work.soundAll_iff.mp sound outer (List.mem_of_getElem? inside)) within
      | after source next =>
          cases index with
          | zero =>
              cases inside
              exact ih sound.1 within
          | succ index => cases inside
      | body frame current count entries =>
          cases index with
          | zero =>
              cases inside
              exact ih sound.2.1 within
          | succ index => cases inside
      | _ => cases inside

/-- A binding is checked at some time, by what stands somewhere in its world. -/
theorem Checked.stands {main : Routine} {argument : Value} {own : TaskId} {count : Nat}
    (checked : Checked machine main argument own count world) :
    ∃ earlier : World, (World.start main argument).Reaches machine earlier ∧
      earlier.Reaches machine world ∧ ∃ task place part, earlier.part? task place = some part ∧
        ((∃ which : Fin count, part = .after (.wait own) (.pick count which)) ∨
          ∃ frame current index entries, part = .body frame current index entries ∧
            (own, count) ∈ frame.unobserved) := by
  cases checked with
  | @read _ task place which reaches there =>
      exact ⟨world, reaches, .refl, task, place, _, there, .inl ⟨which, rfl⟩⟩
  | @entry routine task place now index setting names step invokes entry followed bound same =>
      obtain ⟨earlier, reaches, goes, frame, current, index, entries, there, left⟩ :=
        invokes.unobserved entry followed bound
      exact ⟨earlier, reaches, goes, task, place, _, there,
        .inr ⟨frame, current, index, entries, rfl, same ▸ left⟩⟩

end

namespace Routine

variable {registry later : Registry} {routine : Routine}

/-- A run has no value if the task of a binding that is checked gives a value which is not as many
as the binding has names. -/
theorem mismatch_stops (built : registry.Built) (compiles : Compiles registry routine)
    (grown : registry.Grown later) (calm : routine.Calm) {argument : Value} {own : TaskId}
    {count : Nat} {world next : World}
    (checked : Checked ⟨later, routine.library⟩ routine argument own count world)
    (reaches : world.Reaches ⟨later, routine.library⟩ next) {given : Value} {failure : Failure}
    (gets : next.tasks[own]? = some (.done (.ok given)))
    (mismatch : given.split count = .error failure) (drain : Nat) (value : Value) :
    ¬routine.Gives later argument drain value := by
  intro gives
  obtain ⟨fuel, last, found⟩ := gives_iff_toOutcome?.mp gives
  obtain ⟨footing, still, supported⟩ := calm.footing built compiles grown
  obtain ⟨depth, evaluated⟩ := evaluates still supported found
  obtain ⟨earlier, comes, goes, task, place, part, there, stands⟩ := checked.stands
  obtain ⟨env, levels, parent, foreseen, first⟩ := @World.reaches_foreseen _ footing
    (Depths.unlimited _) _ still nofun routine supported argument () comes
  obtain ⟨work, inside, within⟩ := Option.bind_eq_some_iff.mp there
  have means : work.meaning (Depths.unlimited _) env (levels task) ≠ none := by
    intro none
    rw [foreseen.meaning task work inside] at none
    have fails := foreseen.failing task (List.getElem?_eq_some_iff.mp inside).1 none
    rw [first] at fails
    have gives := Host.evaluateRoutine_callAny.mpr ⟨depth, evaluated⟩
    change (Host.evaluateRoutine _ (Host.callAny _) routine argument).toOption = _ at fails
    rw [gives] at fails
    cases fails
  obtain ⟨level, means⟩ := Work.meaning_part within means
  have sound := (foreseen.sound.works task work inside).part within
  obtain ⟨begun, other, values, same, split⟩ : own < earlier.tasks.length ∧
      ∃ value values, env own = some value ∧ value.split count = .ok values := by
    rcases stands with ⟨which, rfl⟩ | ⟨frame, current, index, entries, rfl, left⟩
    · exact ⟨World.MayWait.lt sound.1, Work.meaning_pick means⟩
    · exact ⟨(sound.1 own (Frame.unobserved_tasks left)).1, Work.meaning_unobserved means left⟩
  have endless : ∀ level, (Depths.unlimited (Machine.host ⟨later, routine.library⟩)).inside level ≠
      none := nofun
  have final := foreseen.given still endless (goes.trans reaches) begun gets
  rw [same] at final
  cases final
  cases split.symm.trans mismatch

end Routine

/-- A procedure that binds a group of names in its middle, none of which is read. -/
def Procedure.parting : Procedure :=
  ⟨0, "main", [], none, [.assignment 0 ["a", "b"] (.amount 0 (.number 5)), .execute 0 (.unit 0)]⟩

/-- What it compiles to. -/
def Routine.parting : Routine :=
  let sequence : Sequence := [
    ⟨.inherit, .bind [⟨0, "a"⟩, ⟨1, "b"⟩] (.literal (.quantity (.number 5)))⟩,
    ⟨.inherit, .literal .unit⟩]
  ⟨.parting, [], sequence, [(0, ⟨.parting, [], sequence, []⟩)]⟩

theorem Routine.mismatch_stops_parting :
    Document.compile ⟨[.parting]⟩ ⟨"", ""⟩ Registry.standard.names = .ok parting ∧
    (∃ world, Checked ⟨.standard, parting.library⟩ parting .unit 1 2 world ∧
      world.tasks[1]? = some (.done (.ok (.quantity (.number 5))))) ∧
    ∀ drain value, ¬parting.Gives .standard .unit drain value := by
  have begun : ∃ now : Standing, Standing.after? ⟨.standard, parting.library⟩ 0 [] 5
        ⟨World.start parting .unit, []⟩ = some now ∧ now.bound[0]? = some (some 1) ∧
      now.world.tasks[1]? = some (.done (.ok (.quantity (.number 5)))) := ⟨_, rfl, rfl, rfl⟩
  obtain ⟨now, reached, bound, gets⟩ := begun
  have invokes : Invokes ⟨.standard, parting.library⟩ parting .unit parting 0 [] now :=
    ⟨_, .run rfl rfl rfl, .of_after? reached⟩
  have checked : Checked ⟨.standard, parting.library⟩ parting .unit 1 2 now.world :=
    .entry invokes rfl (by decide) bound rfl
  refine ⟨rfl, ⟨now.world, checked, gets⟩, ?_⟩
  exact mismatch_stops (.inr .refl) (@Compiles.document _ _ ⟨[.parting]⟩ ⟨"", ""⟩ rfl) .refl
    (.of_library (by decide) (by decide)) checked .refl gets rfl

end Runbook
