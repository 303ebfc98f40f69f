import Runbook.Config.Storage
import Runbook.Proofs.Config.Paths

/-!
What loading and saving a configuration come to on the files of a store.

Of every operation of a disk it is said once what it can do. From that follows what saving can do,
which is one of four things, and all that is proved of it is proved by these cases.
-/
namespace Runbook

namespace FileStore

variable {α β : Type} {store other after : FileStore} {path target text : String}
variable {place goal : Place}

/-! Changes of a store. -/

theorem put_put (store : FileStore) (place : Place) (first second : Node) :
    (store.put place first).put place second = store.put place second := by
  simp [put]

theorem SameTree.refl (store : FileStore) : store.SameTree store := fun _ => Iff.rfl

theorem SameTree.symm (same : store.SameTree other) : other.SameTree store :=
  fun place => (same place).symm

theorem Takes.get?_put (takes : store.Takes path place) (asked : Place) (node : Node) :
    (store.put place node).get? asked = if asked = place then some node else store.get? asked :=
  FileStore.get?_put store asked node takes.ne_root

theorem Takes.get?_put_self (takes : store.Takes path place) (node : Node) :
    (store.put place node).get? place = some node := by
  rw [takes.get?_put, if_pos rfl]

theorem Takes.get?_put_other (takes : store.Takes path place) (node : Node) {asked : Place}
    (apart : store.locate? path ≠ some asked) :
    (store.put place node).get? asked = store.get? asked := by
  rw [takes.get?_put, if_neg]
  rintro rfl
  exact apart takes.leads

/-- A file that comes, or takes the place of another one, changes no directory. -/
theorem Takes.put_sameTree (takes : store.Takes path place) (text : String) :
    store.SameTree (store.put place (.file text)) := by
  intro asked
  rw [takes.get?_put]
  split_ifs with same
  · subst same
    simp [takes.free]
  · rfl

theorem SameTree.takes (same : store.SameTree other) (takes : store.Takes path place) :
    other.Takes path place :=
  ⟨same.locate?.symm.trans takes.leads, fun directory => takes.free ((same place).mpr directory)⟩

theorem SameTree.takes_iff (same : store.SameTree other) :
    store.Takes path place ↔ other.Takes path place :=
  ⟨same.takes, same.symm.takes⟩

theorem write?_eq_some :
    store.write? path text = some after ↔
      ∃ place, store.Takes path place ∧ after = store.put place (.file text) := by
  rw [write?]
  constructor
  · intro written
    split at written
    · exact absurd written (Option.some_ne_none after).symm
    · next place leads =>
        split_ifs at written with directory
        exact ⟨place, ⟨leads, directory⟩, (Option.some.inj written).symm⟩
  · rintro ⟨place, ⟨leads, free⟩, rfl⟩
    rw [leads]
    exact if_neg free

/-- The file at `place` has moved to `goal` and holds `text`; all else is as it was. -/
def Moved (store after : FileStore) (place goal : Place) (text : String) : Prop :=
  ∀ asked, after.get? asked =
    if asked = goal then some (.file text) else if asked = place then none else store.get? asked

theorem Moved.arrived (moved : store.Moved after place goal text) :
    after.get? goal = some (.file text) := by
  rw [moved, if_pos rfl]

theorem Moved.left (moved : store.Moved after place goal text) (apart : place ≠ goal) :
    after.get? place = none := by
  rw [moved, if_neg apart, if_pos rfl]

theorem Moved.stays (moved : store.Moved after place goal text) {asked : Place}
    (apart : asked ≠ goal) (apart' : asked ≠ place) : after.get? asked = store.get? asked := by
  rw [moved, if_neg apart, if_neg apart']

theorem rename?_cases (takes : store.Takes path place) (holds : store.get? place = some (.file text))
    (target : String) :
    (store.rename? path target = none ∧ ∀ goal, ¬store.Takes target goal) ∨
      ∃ goal after, store.Takes target goal ∧ store.rename? path target = some after ∧
        store.Moved after place goal text := by
  simp only [rename?, takes.leads]
  cases leads : store.locate? target with
  | none =>
      refine .inl ⟨rfl, fun goal takes' => ?_⟩
      rw [takes'.leads] at leads
      exact absurd leads (Option.some_ne_none goal)
  | some goal =>
      simp only [holds]
      split_ifs with same directory
      · subst same
        refine .inr ⟨place, store, ⟨leads, takes.free⟩, rfl, fun asked => ?_⟩
        split_ifs with here
        · rw [here, holds]
        · rfl
      · refine .inl ⟨rfl, fun goal' takes' => ?_⟩
        obtain rfl : goal' = goal := Option.some.inj (takes'.leads.symm.trans leads)
        exact takes'.free directory
      · have takes' : store.Takes target goal := ⟨leads, directory⟩
        refine .inr ⟨goal, _, takes', rfl, fun asked => ?_⟩
        rw [FileStore.get?_put _ _ _ takes'.ne_root, get?_remove _ _ takes.ne_root]

/-! Tasks on a store. -/

/-- What a task comes to on the files of a store, and the store after it. -/
def does (store : FileStore) (task : ExceptT StorageError (StateM FileStore) α) :
    Except StorageError α × FileStore := task.run.run store

@[simp] theorem does_pure (store : FileStore) (value : α) :
    store.does (pure value) = (.ok value, store) := rfl

theorem does_bind (store : FileStore) (task : ExceptT StorageError (StateM FileStore) α)
    (next : α → ExceptT StorageError (StateM FileStore) β) :
    store.does (task >>= next) =
      match store.does task with
      | (.ok value, after) => after.does (next value)
      | (.error error, after) => (.error error, after) := by
  simp only [does, ExceptT.run_bind, StateT.run_bind]
  rcases task.run.run store with ⟨_ | _, after⟩ <;> rfl

theorem does_lift_bind (store : FileStore) (task : StateM FileStore α)
    (next : α → ExceptT StorageError (StateM FileStore) β) :
    store.does (liftM task >>= next) = (task.run store).2.does (next (task.run store).1) := rfl

theorem attempt_run (store : FileStore) (change? : FileStore → Option FileStore) :
    (attempt change?).run store =
      match change? store with
      | some after => (true, after)
      | none => (false, store) := by
  simp only [attempt, StateT.run_bind, StateT.run_get, pure_bind]
  cases change? store <;> rfl

/-! The operations of a disk. -/

variable (faults : Faults)

theorem create_cases (store : FileStore) (path : String) :
    (((faultyDisk faults).create path).run store = (false, store) ∧
        ∀ place, store.Takes path place → faults.uncreatable store path = true) ∨
      ∃ place, store.Takes path place ∧
        ((faultyDisk faults).create path).run store = (true, store.put place (.file "")) := by
  have run := attempt_run store fun store =>
    if faults.uncreatable store path then none else store.write? path ""
  simp only [faultyDisk, run]
  split
  · next after made =>
      split_ifs at made with refused
      obtain ⟨place, takes, rfl⟩ := write?_eq_some.mp made
      exact .inr ⟨place, takes, rfl⟩
  · next kept =>
      refine .inl ⟨rfl, fun place takes => ?_⟩
      by_contra allowed
      rw [if_neg allowed, write?_eq_some.mpr ⟨place, takes, rfl⟩] at kept
      exact absurd kept (Option.some_ne_none _)

theorem write_cases (takes : store.Takes path place) (text : String) :
    (∃ kept, faults.torn? store path text = some kept ∧
        ((faultyDisk faults).write path text).run store = (false, store.put place (.file kept))) ∨
      ((faultyDisk faults).write path text).run store = (true, store.put place (.file text)) := by
  have writes : ∀ text, (attempt fun store => store.write? path text).run store =
      (true, store.put place (.file text)) := by
    intro text
    rw [attempt_run, write?_eq_some.mpr ⟨place, takes, rfl⟩]
  cases torn : faults.torn? store path text with
  | none =>
      right
      rw [← writes text]
      simp only [faultyDisk, StateT.run_bind, StateT.run_get, pure_bind, torn]
  | some kept =>
      left
      refine ⟨kept, rfl, ?_⟩
      simp only [faultyDisk, StateT.run_bind, StateT.run_get, pure_bind, torn, writes kept]
      rfl

theorem rename_cases (takes : store.Takes path place) (holds : store.get? place = some (.file text))
    (target : String) :
    (((faultyDisk faults).rename path target).run store = (false, store) ∧
        ∀ goal, store.Takes target goal → faults.irreplaceable store path target = true) ∨
      ∃ goal after, store.Takes target goal ∧ store.Moved after place goal text ∧
        ((faultyDisk faults).rename path target).run store = (true, after) := by
  have run := attempt_run store fun store =>
    if faults.irreplaceable store path target then none else store.rename? path target
  simp only [faultyDisk, run]
  by_cases refused : faults.irreplaceable store path target = true
  · simp only [if_pos refused]
    exact .inl ⟨trivial, fun _ _ => refused⟩
  · simp only [if_neg refused]
    rcases rename?_cases takes holds target with ⟨none, closed⟩ | ⟨goal, after, takes', some, moved⟩
    · rw [none]
      exact .inl ⟨rfl, fun goal takes' => absurd takes' (closed goal)⟩
    · rw [some]
      exact .inr ⟨goal, after, takes', moved, rfl⟩

end FileStore

namespace Config

open FileStore

variable {store after : FileStore} {path : String} {config : Config} {faults : Faults}

/-- What saving a configuration can come to, and why. -/
inductive Saves (faults : Faults) (store : FileStore) (path : String) (config : Config) :
    Except StorageError Unit → FileStore → Prop
  | uncreatable (closed : ∀ draft, store.Takes (draftPath path) draft →
        faults.uncreatable store (draftPath path) = true) :
      Saves faults store path config (.error (.uncreatable (draftPath path))) store
  | unwritable {draft : Place} {kept : String} (opens : store.Takes (draftPath path) draft)
      (torn : faults.torn? (store.put draft (.file "")) (draftPath path) config.toText = some kept) :
      Saves faults store path config (.error (.unwritable (draftPath path)))
        (store.put draft (.file kept))
  | irreplaceable {draft : Place} (opens : store.Takes (draftPath path) draft)
      (closed : ∀ place, store.Takes path place → faults.irreplaceable
        (store.put draft (.file config.toText)) (draftPath path) path = true) :
      Saves faults store path config (.error (.irreplaceable path))
        (store.put draft (.file config.toText))
  | saved {draft place : Place} {after : FileStore} (opens : store.Takes (draftPath path) draft)
      (takes : store.Takes path place)
      (moved : store.Moved after draft place config.toText) :
      Saves faults store path config (.ok ()) after

/-- Saving does one of these things. -/
theorem saves_does (faults : Faults) (store : FileStore) (path : String) (config : Config) :
    Saves faults store path config (store.does (save (faultyDisk faults) path config)).1
      (store.does (save (faultyDisk faults) path config)).2 := by
  unfold save
  rw [does_lift_bind]
  rcases create_cases faults store (draftPath path) with ⟨run, closed⟩ | ⟨draft, opens, run⟩
  · rw [run]
    exact .uncreatable closed
  · have made := opens.put_sameTree ""
    rw [run]
    simp only [if_true]
    rw [does_lift_bind]
    rcases write_cases faults (made.takes opens) config.toText with ⟨kept, torn, run⟩ | run
    · rw [run, put_put]
      exact .unwritable opens torn
    · have written := opens.put_sameTree config.toText
      have holds := opens.get?_put_self (.file config.toText)
      rw [run, put_put]
      simp only [if_true]
      rw [does_lift_bind]
      rcases rename_cases faults (written.takes opens) holds path with
        ⟨run, closed⟩ | ⟨place, after, takes, moved, run⟩
      · rw [run]
        exact .irreplaceable opens fun place takes => closed place (written.takes takes)
      · rw [run]
        -- the draft has been made and filled in between, which is not seen any more
        have whole : store.Moved after draft place config.toText := by
          intro asked
          rw [moved asked, opens.get?_put]
          split_ifs <;> rfl
        exact .saved opens (written.symm.takes takes) whole

/-- What loading a configuration comes to where `text` stands, if one does. -/
def ofFile (path : String) : Option String → Except StorageError Config
  | some text => match ofText? text with
    | some config => .ok config
    | none => .error .malformed
  | none => .error (.unreadable path)

theorem does_load (faults : Faults) (store : FileStore) (path : String) :
    store.does (load (faultyDisk faults) path) = (ofFile path (store.read? path), store) := by
  have run : ((faultyDisk faults).read? path).run store = (store.read? path, store) := rfl
  unfold load Disk.readFile
  rw [does_bind, does_lift_bind, run]
  cases store.read? path with
  | none => rfl
  | some text =>
      simp only [does_pure, ofFile]
      cases ofText? text <;> rfl

theorem does_loadOrSave (faults : Faults) (store : FileStore) (path : String) :
    store.does (loadOrSave (faultyDisk faults) path) =
      if store.contains path then store.does (load (faultyDisk faults) path)
      else match store.does (save (faultyDisk faults) path default) with
        | (.ok _, after) => (.ok default, after)
        | (.error error, after) => (.error error, after) := by
  have run : ((faultyDisk faults).contains path).run store = (store.contains path, store) := rfl
  unfold loadOrSave
  rw [does_lift_bind, run]
  cases store.contains path with
  | true => rfl
  | false =>
      simp only [Bool.false_eq_true, if_false]
      rw [does_bind]
      rcases store.does (save (faultyDisk faults) path default) with ⟨_ | _, after⟩ <;> rfl

end Config

end Runbook
