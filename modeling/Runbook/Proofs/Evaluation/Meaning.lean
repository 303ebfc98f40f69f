import Runbook.Proofs.Evaluation.Sequential
import Runbook.Proofs.Evaluation.Sound
import Mathlib.Data.List.Induction

/-!
What works mean.

Each task is expected to come to a value or to come to none: `env` says which. With that, a work
means what the evaluation from left to right gives for what is still to be done in it. Setting up
is that evaluation done with works; and where anything that is set up comes to no value, so does the
work itself, or a binding that no step has asked for, which is settled at the end of the body.
-/
namespace Runbook

theorem toOption_eq_some {ε α : Type} {part : Except ε α} {a : α} :
    part.toOption = some a ↔ part = .ok a := by
  cases part with
  | error e => exact iff_of_false nofun nofun
  | ok b => simp [Except.toOption]

/-- The value that the names of a binding stand for. -/
def Binding.whole? (env : TaskId → Option Value) : Binding → Option Value
  | .parameter _ value => some value
  | .started _ task _ => env task

/-- Has the binding been asked for? Parameters need not be. -/
def Binding.taken : Binding → Bool
  | .parameter _ _ => true
  | .started _ _ observed => observed

/-- What is stored for a binding. -/
def Binding.stored? (env : TaskId → Option Value) (binding : Binding) : Option Stored :=
  (binding.whole? env).map fun value => ⟨binding.names, value, binding.taken⟩

/-- What is stored for the names of a frame. -/
def Frame.store? (env : TaskId → Option Value) (frame : Frame) : Option Store :=
  frame.bindings.reverse.mapM (Binding.stored? env)

/-- The part of a value that stands at a place of so many. -/
def pick? (names : Nat) (place : Fin names) (value : Value) : Option Value :=
  (value.split names).toOption.map fun values => values.val.get (place.cast values.property.symm)

theorem pick?_one (place : Fin 1) (value : Value) : pick? 1 place value = some value := by
  obtain rfl := Subsingleton.elim place 0
  rfl

theorem Stored.part_eq_ok {stored : Stored} {place : Fin stored.names.length} {value : Value} :
    stored.part place = .ok value ↔ pick? stored.names.length place stored.value = some value := by
  rw [part, pick?]
  cases stored.value.split stored.names.length with
  | ok values => simp [Except.toOption]
  | error failure => simp [Except.toOption]

theorem Store.read_here {stored : Stored} {name : Name} {place : Fin stored.names.length}
    (here : placeOf? name stored.names = some place) {store after : Store} {value : Value} :
    Store.read name (stored :: store) = .ok (value, after) ↔
      pick? stored.names.length place stored.value = some value ∧
        after = { stored with taken := true } :: store := by
  simp only [Store.read, here, Stop.bind_eq_ok, Stop.pure_eq_ok, Prod.mk.injEq,
    Stored.part_eq_ok]
  constructor
  · intro reads
    obtain ⟨_, part, rfl, rfl⟩ := reads
    exact ⟨part, rfl⟩
  · intro reads
    exact ⟨value, reads.1, rfl, reads.2.symm⟩

theorem Store.read_before {stored : Stored} {name : Name}
    (none : placeOf? name stored.names = none) {store after : Store} {value : Value} :
    Store.read name (stored :: store) = .ok (value, after) ↔
      ∃ rest, store.read name = .ok (value, rest) ∧ after = stored :: rest := by
  simp only [Store.read, none, Stop.bind_eq_ok, Stop.pure_eq_ok, Prod.mk.injEq]
  constructor
  · intro reads
    obtain ⟨⟨_, rest⟩, earlier, rfl, rfl⟩ := reads
    exact ⟨rest, earlier, rfl⟩
  · intro reads
    obtain ⟨rest, earlier, rfl⟩ := reads
    exact ⟨(value, rest), earlier, rfl, rfl⟩

namespace Frame

variable {env : TaskId → Option Value}

theorem store?_add (frame : Frame) (binding : Binding) :
    (frame.add binding).store? env =
      (binding.stored? env).bind fun stored => (frame.store? env).map (stored :: ·) := by
  rw [store?, add, List.reverse_append, List.reverse_singleton, List.singleton_append,
    List.mapM_cons, store?]
  cases binding.stored? env with
  | none => rfl
  | some stored => cases frame.bindings.reverse.mapM (Binding.stored? env) <;> rfl

theorem store?_add_eq_some {frame : Frame} {binding : Binding} {store : Store} :
    (frame.add binding).store? env = some store ↔
      ∃ stored rest, binding.stored? env = some stored ∧ frame.store? env = some rest ∧
        store = stored :: rest := by
  rw [store?_add]
  simp only [Option.bind_eq_some_iff, Option.map_eq_some_iff]
  constructor
  · intro stores
    obtain ⟨stored, first, rest, others, same⟩ := stores
    exact ⟨stored, rest, first, others, same.symm⟩
  · intro stores
    obtain ⟨stored, rest, first, others, same⟩ := stores
    exact ⟨stored, first, rest, others, same.symm⟩

theorem store?_ofParameters (parameters : List Name) (values : List Value) :
    (ofParameters parameters values).store? env =
      some ((parameters.zip values).map fun (name, value) =>
        (⟨[name], value, true⟩ : Stored)).reverse := by
  rw [store?, ofParameters, ← List.map_reverse, ← List.map_reverse]
  induction (parameters.zip values).reverse with
  | nil => rfl
  | cons first pairs ih => rw [List.map_cons, List.mapM_cons, ih]; rfl

theorem store?_add_observe {frame : Frame} {binding : Binding} {store : Store} :
    (frame.add binding.observe).store? env = some store ↔
      ∃ whole rest, binding.whole? env = some whole ∧ frame.store? env = some rest ∧
        store = ⟨binding.names, whole, true⟩ :: rest := by
  rw [store?_add_eq_some]
  cases binding <;>
    simp [Binding.stored?, Binding.whole?, Binding.observe, Binding.names, Binding.taken]

theorem read_last {frame : Frame} {name : Name} {binding : Binding}
    {place : Fin binding.names.length} (here : placeOf? name binding.names = some place)
    {value : Value} {after : Store} :
    ((∃ whole, binding.whole? env = some whole ∧
        pick? binding.names.length place whole = some value) ∧
      (frame.add binding.observe).store? env = some after) ↔
      ∃ store, (frame.add binding).store? env = some store ∧
        store.read name = .ok (value, after) := by
  rw [store?_add_observe]
  constructor
  · intro gives
    obtain ⟨⟨whole, first, part⟩, _, rest, again, others, rfl⟩ := gives
    obtain rfl := Option.some.inj (first.symm.trans again)
    have stores := store?_add_eq_some.mpr
      ⟨_, rest, Option.map_eq_some_iff.mpr ⟨whole, first, rfl⟩, others, rfl⟩
    exact ⟨_, stores, (Store.read_here here).mpr ⟨part, rfl⟩⟩
  · intro gives
    obtain ⟨store, stores, reads⟩ := gives
    obtain ⟨_, rest, first, others, rfl⟩ := store?_add_eq_some.mp stores
    obtain ⟨whole, given, rfl⟩ := Option.map_eq_some_iff.mp first
    obtain ⟨part, rfl⟩ := (Store.read_here here).mp reads
    exact ⟨⟨whole, given, part⟩, whole, rest, given, others, rfl⟩

/-- Reading a name from the store is waiting for what it means, and observing it. -/
theorem read_iff {frame : Frame} {name : Name} {binding : Binding}
    {place : Fin binding.names.length} (found : frame.find? name = some ⟨binding, place⟩)
    {value : Value} {after : Store} :
    ((∃ whole, binding.whole? env = some whole ∧
        pick? binding.names.length place whole = some value) ∧
      (frame.observe name).store? env = some after) ↔
      ∃ store, frame.store? env = some store ∧ store.read name = .ok (value, after) := by
  obtain ⟨bindings⟩ := frame
  induction bindings using List.reverseRecOn generalizing after with
  | nil => cases found
  | append_singleton bindings last ih =>
      change (add ⟨bindings⟩ last).find? name = _ at found
      change (_ ∧ ((add ⟨bindings⟩ last).observe name).store? env = some after) ↔
        ∃ store, (add ⟨bindings⟩ last).store? env = some store ∧ _
      rw [find?_add] at found
      rw [observe_add]
      cases here : placeOf? name last.names with
      | some other =>
          rw [here] at found
          cases found
          rw [if_pos (placeOf?_isSome_iff.mp (Option.isSome_of_eq_some here))]
          exact read_last here
      | none =>
          rw [here] at found
          have outside : name ∉ last.names := fun inside => by
            have := placeOf?_isSome_iff.mpr inside
            rw [here] at this
            cases this
          rw [if_neg outside]
          constructor
          · intro gives
            obtain ⟨part, stores⟩ := gives
            obtain ⟨_, rest, first, others, rfl⟩ := store?_add_eq_some.mp stores
            obtain ⟨store, before, reads⟩ := (ih found).mp ⟨part, others⟩
            obtain ⟨whole, given, rfl⟩ := Option.map_eq_some_iff.mp first
            refine ⟨_, store?_add_eq_some.mpr ⟨_, store, first, before, rfl⟩, ?_⟩
            exact (Store.read_before here).mpr ⟨rest, reads, rfl⟩
          · intro gives
            obtain ⟨store, stores, reads⟩ := gives
            obtain ⟨_, rest, first, others, rfl⟩ := store?_add_eq_some.mp stores
            obtain ⟨whole, given, rfl⟩ := Option.map_eq_some_iff.mp first
            obtain ⟨result, earlier, rfl⟩ := (Store.read_before here).mp reads
            obtain ⟨part, before⟩ := (ih found).mpr ⟨rest, others, earlier⟩
            exact ⟨part, store?_add_eq_some.mpr ⟨_, _, first, before, rfl⟩⟩

end Frame

/-- Has the task a value for so many names? -/
def settles (env : TaskId → Option Value) (binding : TaskId × Nat) : Bool :=
  match env binding.1 with
  | some value => (value.split binding.2).isOk
  | none => false

variable {host : Host} (depths : Depths host) (env : TaskId → Option Value)

/-- What is made of a value. -/
def Continuation.meaning (level : depths.Level) : Continuation → Value → Option Value
  | .pick names place, value => pick? names place value
  | .call callee, value => (depths.call level callee value).toOption
  | .invoke primitive, value | .join primitive, value => (primitive.action value).outcome.toOption

mutual

/-- The value that a work comes to, if it comes to one. -/
def Work.meaning (level : depths.Level) : Work → Option Value
  | .done outcome | .sleep _ outcome => outcome.toOption
  | .broken _ | .race _ _ => none
  | .fresh work => work.meaning level
  | .wait task => env task
  | .after source next => (source.meaning level).bind (next.meaning depths level)
  | .gather shape members => (meaningAll level members).map shape.collect
  | .body frame current _ entries =>
    (depths.inside level).bind fun inner => (frame.store? env).bind fun store =>
      (current.meaning inner).bind fun value =>
        (host.evaluateBody (depths.call inner) store value entries).toOption
  | .settle bindings result => if bindings.all (settles env) then some result else none

def Work.meaningAll (level : depths.Level) : List Work → Option (List Value)
  | [] => some []
  | work :: works => (work.meaning level).bind fun value =>
    (meaningAll level works).map (value :: ·)

end

theorem Frame.store?_congr {env other : TaskId → Option Value} {frame : Frame}
    (same : ∀ task ∈ frame.tasks, env task = other task) :
    frame.store? env = frame.store? other := by
  obtain ⟨bindings⟩ := frame
  rw [store?, store?]
  have stored : ∀ binding ∈ bindings.reverse, binding.stored? env = binding.stored? other := by
    intro binding member
    cases binding with
    | parameter name value => rfl
    | started names task observed =>
        have inside := mem_tasks (List.mem_reverse.mp member)
        simp only [Binding.stored?, Binding.whole?, same task inside]
  clear same
  revert stored
  generalize bindings.reverse = bindings
  intro stored
  induction bindings with
  | nil => rfl
  | cons first bindings ih =>
      rw [List.forall_mem_cons] at stored
      rw [List.mapM_cons, List.mapM_cons, stored.1, ih stored.2]

section

variable {depths : Depths host} {machine : Machine} {footing : Footing machine}
  {waits own : TaskId → Prop} {env other : TaskId → Option Value}

mutual

theorem Work.meaning_congr {level : depths.Level}
    (waited : ∀ task, waits task → env task = other task)
    (owned : ∀ task, own task → env task = other task) :
    ∀ work : Work, work.Sound footing waits own →
      work.meaning depths env level = work.meaning depths other level
  | .done _, _ | .sleep _ _, _ | .race _ _, _ => rfl
  | .broken _, sound => sound.elim
  | .fresh work, sound => by
      rw [meaning, meaning]
      exact meaning_congr waited owned work sound
  | .wait task, sound => by
      rw [meaning, meaning]
      exact waited task sound
  | .after source next, sound => by
      rw [meaning, meaning, meaning_congr waited owned source sound.1]
  | .gather shape members, sound => by
      rw [meaning, meaning, meaningAll_congr waited owned members sound]
  | .body frame current index entries, sound => by
      have stored := Frame.store?_congr fun task member => owned task (sound.1 task member)
      rw [meaning, meaning, stored]
      have inner (level : depths.Level) :
          current.meaning depths env level = current.meaning depths other level :=
        meaning_congr waited owned current sound.2.1
      simp only [inner]
  | .settle bindings result, sound => by
      have same : bindings.all (settles env) = bindings.all (settles other) := by
        rw [Bool.eq_iff_iff, List.all_eq_true, List.all_eq_true]
        refine forall₂_congr fun binding member => ?_
        rw [settles, settles, waited binding.1 (sound binding member)]
      rw [meaning, meaning, same]

theorem Work.meaningAll_congr {level : depths.Level}
    (waited : ∀ task, waits task → env task = other task)
    (owned : ∀ task, own task → env task = other task) :
    ∀ works : List Work, soundAll footing waits own works →
      meaningAll depths env level works = meaningAll depths other level works
  | [], _ => rfl
  | work :: works, sound => by
      rw [meaningAll, meaningAll, meaning_congr waited owned work sound.1,
        meaningAll_congr waited owned works sound.2]

end

/-- The tasks that are started from a number on come to what their works mean. -/
def Solves (depths : Depths host) (env : TaskId → Option Value) (level : depths.Level) (next : Nat)
    (started : List Work) : Prop :=
  ∀ (index : Nat) (work : Work), started[index]? = some work →
    env (next + index) = work.meaning depths env level

/-- Orderly tasks can be started: what they come to is known from the first one on. -/
theorem Work.Orderly.solves {next : Nat} {started : List Work}
    (orderly : Work.Orderly footing waits next started) (env : TaskId → Option Value)
    (level : depths.Level) :
    ∃ other : TaskId → Option Value, (∀ task < next, other task = env task) ∧
      Solves depths other level next started := by
  induction started using List.reverseRecOn with
  | nil => exact ⟨env, fun _ _ => rfl, nofun⟩
  | append_singleton started work ih =>
      have earlier : Work.Orderly footing waits next started := by
        intro index work there
        have below := (List.getElem?_eq_some_iff.mp there).1
        exact orderly index work ((List.getElem?_append_left below).trans there)
      obtain ⟨other, same, solves⟩ := ih earlier
      let last := next + started.length
      let whole := Function.update other last (work.meaning depths other level)
      have before (task : Nat) (below : task < last) : whole task = other task :=
        Function.update_of_ne (Nat.ne_of_lt below) _ _
      have means (index : Nat) (member : Work) (le : index ≤ started.length)
          (there : (started ++ [work])[index]? = some member) :
          member.meaning depths whole level = member.meaning depths other level := by
        refine meaning_congr (fun task waiting => before task ?_) nofun member
          (orderly index member there fun _ => False)
        exact Nat.lt_of_lt_of_le waiting.2 (Nat.add_le_add_left le next)
      refine ⟨whole, fun task below => ?_, fun index member there => ?_⟩
      · rw [before task (Nat.lt_of_lt_of_le below (Nat.le_add_right _ _)), same task below]
      · rcases Nat.lt_or_ge index started.length with below | above
        · rw [before _ (Nat.add_lt_add_left below next),
            means index member (Nat.le_of_lt below) there]
          rw [List.getElem?_append_left below] at there
          exact solves index member there
        · have inside := (List.getElem?_eq_some_iff.mp there).1
          rw [List.length_append, List.length_singleton] at inside
          obtain rfl : index = started.length := by omega
          rw [means _ member (Nat.le_refl _) there]
          rw [List.getElem?_concat_length] at there
          obtain rfl := Option.some.inj there
          exact Function.update_self _ _ _

end

end Runbook
