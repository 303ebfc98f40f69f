import Runbook.Proofs.Evaluation.Follows

/-!
Runs follow the evaluation from left to right.

What each task comes to is foreseen when it is started, and remains so. With it the run itself
comes to what its routine gives when it is evaluated.
-/
namespace Runbook

variable {machine : Machine} {footing : Footing machine} {depths : Depths machine.host}
  {env : TaskId → Option Value} {world : World}

section

variable {waits own : TaskId → Prop} {other : TaskId → Option Value}

theorem Frame.Lost.congr {frame : Frame} (same : ∀ task ∈ frame.tasks, env task = other task)
    (lost : frame.Lost env) : frame.Lost other := by
  obtain ⟨binding, member, none⟩ := lost
  exact ⟨binding, member, (same _ (Frame.unobserved_tasks member)).symm.trans none⟩

mutual

theorem Work.accounted_congr {level : depths.Level}
    (waited : ∀ task, waits task → env task = other task)
    (owned : ∀ task, own task → env task = other task) :
    ∀ work : Work, work.Sound footing waits own → work.Accounted depths env level →
      work.Accounted depths other level
  | .done _, _, _ | .broken _, _, _ | .wait _, _, _ | .race _ _, _, _ | .sleep _ _, _, _
  | .settle _ _, _, _ => trivial
  | .fresh work, sound, accounted => accounted_congr waited owned work sound accounted
  | .after source _, sound, accounted => accounted_congr waited owned source sound.1 accounted
  | .gather _ members, sound, accounted => accountedAll_congr waited owned members sound accounted
  | .body frame current _ _, sound, accounted => by
      intro inner inside
      obtain ⟨unstored, rest⟩ := accounted inner inside
      have same (task : TaskId) (member : task ∈ frame.tasks) : env task = other task :=
        owned task (sound.1 task member)
      have means : current.meaning depths env inner = current.meaning depths other inner :=
        meaning_congr waited owned current sound.2.1
      rw [Frame.store?_congr same, means] at unstored
      refine ⟨fun none => (unstored none).imp_left (.congr same), ?_⟩
      exact accounted_congr waited owned current sound.2.1 rest

theorem Work.accountedAll_congr {level : depths.Level}
    (waited : ∀ task, waits task → env task = other task)
    (owned : ∀ task, own task → env task = other task) :
    ∀ works : List Work, soundAll footing waits own works →
      accountedAll depths env level works → accountedAll depths other level works
  | [], _, _ => trivial
  | work :: works, sound, accounted =>
      ⟨accounted_congr waited owned work sound.1 accounted.1,
        accountedAll_congr waited owned works sound.2 accounted.2⟩

end

end

namespace World

/-- Each task of the world comes to what is foreseen, in the calls that its level has room for. If
one of them comes to no value, so does the run itself. -/
structure Foreseen (footing : Footing machine) (depths : Depths machine.host)
    (env : TaskId → Option Value) (levels : TaskId → depths.Level) (parent : Nat → Nat)
    (world : World) : Prop where
  begun : 0 < world.tasks.length
  sound : world.Sound footing parent
  meaning : ∀ (task : Nat) (work : Work), world.tasks[task]? = some work →
    work.meaning depths env (levels task) = env task
  accounted : ∀ (task : Nat) (work : Work), world.tasks[task]? = some work →
    work.Accounted depths env (levels task)
  failing : ∀ task : Nat, task < world.tasks.length → env task = none → env 0 = none

variable {next : World} {levels : TaskId → depths.Level} {parent : Nat → Nat}

theorem Foreseen.expects (foreseen : world.Foreseen footing depths env levels parent) :
    world.Expects env := fun task _ there => (foreseen.meaning task _ there).symm

/-- Only what is foreseen of the tasks that there are matters. -/
theorem Foreseen.congr (foreseen : world.Foreseen footing depths env levels parent)
    {other : TaskId → Option Value} {others : TaskId → depths.Level}
    (same : ∀ task : Nat, task < world.tasks.length → env task = other task)
    (deep : ∀ task : Nat, task < world.tasks.length → levels task = others task) :
    world.Foreseen footing depths other others parent where
  begun := foreseen.begun
  sound := foreseen.sound
  meaning task work there := by
    have below := (List.getElem?_eq_some_iff.mp there).1
    have means := foreseen.meaning task work there
    rw [← deep task below, ← same task below, ← means]
    exact (Work.meaning_congr (fun other waiting => same other waiting.lt)
      (fun other owned => same other owned.1) work (foreseen.sound.works task work there)).symm
  accounted task work there := by
    have below := (List.getElem?_eq_some_iff.mp there).1
    rw [← deep task below]
    exact Work.accounted_congr (fun other waiting => same other waiting.lt)
      (fun other owned => same other owned.1) work (foreseen.sound.works task work there)
      (foreseen.accounted task work there)
  failing task below none := by
    rw [← same task below] at none
    rw [← same 0 foreseen.begun]
    exact foreseen.failing task below none

theorem Foreseen.same (foreseen : world.Foreseen footing depths env levels parent)
    (same : next.tasks = world.tasks) : next.Foreseen footing depths env levels parent := by
  refine ⟨?_, foreseen.sound.same same, ?_, ?_, ?_⟩
  · rw [same]
    exact foreseen.begun
  · rw [same]
    exact foreseen.meaning
  · rw [same]
    exact foreseen.accounted
  · rw [same]
    exact foreseen.failing

/-- The number of moves that all tasks of the world are good for. -/
def cost (world : World) (price : depths.Level → Callee → Nat)
    (levels : TaskId → depths.Level) : Nat :=
  Work.costFrom price levels 0 world.tasks

/-- A world costs less if the moved work and the tasks that it starts cost less than it did. -/
theorem cost_moved {others : TaskId → depths.Level} {inner : depths.Level}
    {price : depths.Level → Callee → Nat} {task : Nat} {work : Work} {change : Change}
    (there : world.tasks[task]? = some work)
    (tasks : next.tasks = world.tasks.set task change.work ++ change.started)
    (deep : ∀ task : Nat, task < world.tasks.length → levels task = others task)
    (last : ∀ task : Nat, world.tasks.length ≤ task → others task = inner)
    (less : change.work.cost price (levels task) + Work.costAll price inner change.started <
      work.cost price (levels task)) :
    next.cost price others < world.cost price levels := by
  have below : task < world.tasks.length := (List.getElem?_eq_some_iff.mp there).1
  have moved := @Work.costFrom_set _ _ price others 0 task world.tasks work change.work there
  have stays : Work.costFrom price levels 0 world.tasks =
      Work.costFrom price others 0 world.tasks :=
    Work.costFrom_congr fun task below => deep task (by omega)
  have begun : Work.costFrom price others world.tasks.length change.started =
      Work.costAll price inner change.started :=
    Work.costFrom_eq fun task above => last task (by omega)
  rw [Nat.zero_add, ← deep task below] at moved
  rw [cost, cost, tasks, Work.costFrom_append, List.length_set, Nat.zero_add, begun, stays]
  omega

/-- A move of a task keeps what is foreseen, and makes the world cost less. -/
theorem move_foreseen (calm : ¬footing.races)
    (foreseen : world.Foreseen footing depths env levels parent)
    (fits : (∀ level, depths.inside level ≠ none) ∨ env 0 ≠ none) {task : Nat} {work : Work}
    {change : Change} (there : world.tasks[task]? = some work)
    (moves : Moves machine world work change) (same : next.tasks = world.tasksAfter task change) :
    ∃ (other : TaskId → Option Value) (others : TaskId → depths.Level) (parent : Nat → Nat),
      next.Foreseen footing depths other others parent ∧
        (∀ task < world.tasks.length, other task = env task) ∧
        ∀ price, depths.Prices price → env 0 ≠ none →
          next.cost price others < world.cost price levels := by
  have below : task < world.tasks.length := (List.getElem?_eq_some_iff.mp there).1
  obtain ⟨tasks, sound⟩ := move_sound foreseen.sound there moves same
  have started (child : Nat) (owned : world.Owns parent task child) :
      child < world.tasks.length := owned.1
  have kept := moves.kept (foreseen.sound.works task work there) (fun _ => .inl) started
    foreseen.sound.unbroken
  obtain ⟨inner, follows⟩ := moves.follows calm (foreseen.sound.works task work there) started
    foreseen.sound.unbroken (levels task)
  obtain ⟨other, agree, solves⟩ := kept.orderly.solves env inner
  let others (task : Nat) : depths.Level := if task < world.tasks.length then levels task else inner
  have deep (task : Nat) (below : task < world.tasks.length) : levels task = others task :=
    (if_pos below).symm
  have first : other 0 = env 0 := agree 0 foreseen.begun
  have before := foreseen.congr (fun task below => (agree task below).symm) deep
  have means := before.meaning task work there
  have accounted := before.accounted task work there
  rw [← deep task below] at means accounted
  have last (index : Nat) : others (world.tasks.length + index) = inner :=
    if_neg (Nat.not_lt.mpr (Nat.le_add_right _ _))
  have some (run : env 0 ≠ none) : work.meaning depths other (levels task) ≠ none := by
    intro none
    rw [means] at none
    exact run (first.symm.trans (before.failing task below none))
  have goes := follows other before.expects (fits.imp_right some) accounted solves
  refine ⟨other, others, _, ⟨?_, sound, ?_, ?_, ?_⟩, agree, ?_⟩
  · rw [tasks, List.length_append, List.length_set]
    exact Nat.add_pos_left foreseen.begun _
  · intro child found member
    rw [tasks] at member
    rcases getElem?_moved member with ⟨rfl, rfl⟩ | ⟨_, stays⟩ | ⟨index, rfl, begun⟩
    · rw [← deep child below]
      exact goes.meaning.trans means
    · exact before.meaning child found stays
    · rw [last]
      exact (solves index found begun).symm
  · intro child found member
    rw [tasks] at member
    rcases getElem?_moved member with ⟨rfl, rfl⟩ | ⟨_, stays⟩ | ⟨index, rfl, begun⟩
    · rw [← deep child below]
      exact goes.accounted
    · exact before.accounted child found stays
    · rw [last]
      exact Work.accountedAll_iff.mp goes.begun found (List.mem_of_getElem? begun)
  · intro child inside none
    rcases Nat.lt_or_ge child world.tasks.length with early | late
    · exact before.failing child early none
    · rw [tasks, List.length_append, List.length_set] at inside
      have fails := goes.missing ⟨child, late, inside, none⟩
      rw [goes.meaning, means] at fails
      exact before.failing task below fails
  · intro price prices run
    exact cost_moved there tasks deep (fun task above => if_neg (Nat.not_lt.mpr above))
      (goes.cost price prices (some run))

theorem start_foreseen {routine : Routine} (supported : routine.Supported footing.allowed)
    (argument : Value) (level : depths.Level) :
    ∃ env levels parent, (start routine argument).Foreseen footing depths env levels parent ∧
      env 0 = (depths.inside level).bind fun inner =>
        (machine.host.evaluateRoutine (depths.call inner) routine argument).toOption := by
  obtain ⟨parent, sound⟩ := start_sound supported argument
  have means (env : TaskId → Option Value) := @enter_meaning _ depths env level routine argument
  refine ⟨fun _ => _, fun _ => level, parent, ⟨Nat.one_pos, sound, ?_, ?_, fun _ _ => id⟩, rfl⟩
  · intro task work there
    cases task with
    | zero =>
        obtain rfl := Option.some.inj there
        exact means _
    | succ task => cases there
  · intro task work there
    cases task with
    | zero =>
        obtain rfl := Option.some.inj there
        exact enter_accounted routine argument
    | succ task => cases there

theorem goes_foreseen (calm : ¬footing.races) (endless : ∀ level, depths.inside level ≠ none)
    (foreseen : world.Foreseen footing depths env levels parent) (goes : world.Goes machine next) :
    ∃ other others parent, next.Foreseen footing depths other others parent ∧
      ∀ task < world.tasks.length, other task = env task := by
  cases goes with
  | tick _ _ same => exact ⟨env, levels, parent, foreseen.same same, fun _ _ => rfl⟩
  | move there moves _ same =>
      obtain ⟨other, others, parent, kept, agree, _⟩ :=
        move_foreseen calm foreseen (.inl endless) there moves same
      exact ⟨other, others, parent, kept, agree⟩

/-- What a run comes to is foreseen throughout if levels do not end. -/
theorem reaches_foreseen (calm : ¬footing.races) (endless : ∀ level, depths.inside level ≠ none)
    {routine : Routine} (supported : routine.Supported footing.allowed) {argument : Value}
    (level : depths.Level) (reaches : (start routine argument).Reaches machine world) :
    ∃ env levels parent, world.Foreseen footing depths env levels parent ∧
      env 0 = (depths.inside level).bind fun inner =>
        (machine.host.evaluateRoutine (depths.call inner) routine argument).toOption := by
  refine @Reaches.keeps machine _ _ (fun world => ∃ env levels parent,
    world.Foreseen footing depths env levels parent ∧ env 0 = _) reaches ?_
    (start_foreseen supported argument level)
  intro world next foreseen goes
  obtain ⟨env, levels, parent, kept, first⟩ := foreseen
  obtain ⟨other, others, parent, keeps, agree⟩ := goes_foreseen calm endless kept goes
  exact ⟨other, others, parent, keeps, (agree 0 kept.begun).trans first⟩

end World

end Runbook
