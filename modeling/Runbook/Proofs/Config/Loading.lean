import Runbook.Proofs.Config.Saving

/-!
A configuration that is loaded, or saved where there is none, settles.

Where something stands nothing is saved. Where nothing stands the default configuration is saved
once, and from then on it is loaded; so is any configuration that has been saved.
-/
namespace Runbook

open FileStore

namespace Config

variable {store after : FileStore} {path : String} {config : Config} {faults : Faults}

/-- The two ways to ask for the configuration at a path. -/
inductive Query where
  | load
  | loadOrSave

def Query.ask {m : Type → Type} [Monad m] (disk : Disk m) (path : String) :
    Query → ExceptT StorageError m Config
  | .load => Config.load disk path
  | .loadOrSave => Config.loadOrSave disk path

/-- The answers to queries that are asked one after the other. -/
def askAll {m : Type → Type} [Monad m] (disk : Disk m) (path : String) :
    List Query → ExceptT StorageError m (List Config)
  | [] => pure []
  | query :: queries => do
    let answer ← query.ask disk path
    return answer :: (← askAll disk path queries)

theorem contains_of_read {text : String} (read : store.read? path = some text) :
    store.contains path = true := by
  rw [contains]
  unfold FileStore.read? at read
  split at read
  · next found => simp [found]
  · exact absurd read (Option.some_ne_none text).symm

/-- Where something stands it is only read, be it a configuration or not. -/
theorem loadOrSave_of_contains (faults : Faults) (stands : store.contains path = true) :
    store.does (loadOrSave (faultyDisk faults) path) =
      store.does (load (faultyDisk faults) path) := by
  rw [does_loadOrSave, if_pos stands]

/-- A configuration that is loaded once is the answer to all queries, and they change nothing. -/
theorem askAll_of_loads
    (loads : store.does (load (faultyDisk faults) path) = (.ok config, store)) :
    ∀ queries : List Query, store.does (askAll (faultyDisk faults) path queries) =
      (.ok (List.replicate queries.length config), store) := by
  have stands : store.contains path = true := by
    rw [does_load] at loads
    cases read : store.read? path with
    | some text => exact contains_of_read read
    | none =>
        rw [read] at loads
        exact absurd (congrArg Prod.fst loads) (by simp [ofFile])
  have answers : ∀ query : Query,
      store.does (query.ask (faultyDisk faults) path) = (.ok config, store) := by
    intro query
    cases query with
    | load => exact loads
    | loadOrSave => exact (loadOrSave_of_contains faults stands).trans loads
  intro queries
  induction queries with
  | nil => rfl
  | cons query queries ih =>
      rw [askAll, does_bind, answers query]
      simp only [does_bind, ih, does_pure, List.length_cons, List.replicate_succ]

/-- Where something stands nothing changes, and the answer is that of loading. Where nothing stands
the answer, if there is one, is the default configuration; and then, as after any configuration is
saved, all further answers are that configuration and nothing changes any more. -/
theorem loadOrSave_settles (faults : Faults) (store : FileStore) (path : String) :
    (store.contains path = true →
      store.does (loadOrSave (faultyDisk faults) path) =
          store.does (load (faultyDisk faults) path) ∧
        (store.does (loadOrSave (faultyDisk faults) path)).2 = store) ∧
    (store.contains path = false → ∀ config after,
      store.does (loadOrSave (faultyDisk faults) path) = (.ok config, after) →
        config = default ∧ ∀ queries, after.does (askAll (faultyDisk faults) path queries) =
          (.ok (List.replicate queries.length config), after)) ∧
    ∀ config after, store.does (save (faultyDisk faults) path config) = (.ok (), after) →
      ∀ queries, after.does (askAll (faultyDisk faults) path queries) =
        (.ok (List.replicate queries.length config), after) := by
  refine ⟨fun stands => ?_, fun absent config after done => ?_, fun config after done => ?_⟩
  · have same := loadOrSave_of_contains faults stands
    exact ⟨same, by rw [same, does_load]⟩
  · rw [does_loadOrSave, if_neg (by simp [absent])] at done
    split at done
    · next saved =>
        obtain ⟨same, rfl⟩ := Prod.mk.inj done
        obtain rfl : default = config := Except.ok.inj same
        exact ⟨rfl, askAll_of_loads (saves_of_does saved).loads⟩
    · exact absurd (congrArg Prod.fst done) (by simp)
  · exact askAll_of_loads (saves_of_does done).loads

/-- In an empty store the default configuration is saved at the first query and stays. -/
theorem loadOrSave_settles_empty :
    ∃ after, FileStore.empty.does (loadOrSave disk "c.json") = (.ok default, after) ∧
      after.get? ["c.json"] = some (.file default.toText) ∧
      after.does (askAll disk "c.json" [.loadOrSave, .load, .loadOrSave]) =
        (.ok [default, default, default], after) := by
  refine ⟨_, rfl, rfl, ?_⟩
  exact ((loadOrSave_settles .none FileStore.empty "c.json").2.1 rfl _ _ rfl).2
    [.loadOrSave, .load, .loadOrSave]

end Config

end Runbook
