import Runbook.Proofs.Config.Storing
import Runbook.Proofs.Json.Decoding

/-!
What saving a configuration leaves as it was.

Saving touches the file that it is asked for and a draft beside it, and no other. If it succeeds the
draft is gone, and with it what stood there before. If it fails, the draft is all that may have
changed.
-/
namespace Runbook

open FileStore

namespace FileStore

variable {store other after : FileStore} {path text : String} {place draft : Place}

theorem Moved.sameTree (moved : store.Moved after draft place text)
    (opens : store.get? draft ≠ some .directory) (takes : store.get? place ≠ some .directory) :
    store.SameTree after := by
  intro asked
  rw [moved asked]
  split_ifs with here gone
  · simp [here, takes]
  · simp [gone, opens]
  · rfl

theorem Takes.read? (takes : store.Takes path place)
    (holds : store.get? place = some (.file text)) : store.read? path = some text := by
  rw [FileStore.read?, takes.leads, Option.bind_some, holds]

theorem read?_congr (leads : store.locate? path = other.locate? path)
    (same : ∀ place, store.locate? path = some place → store.get? place = other.get? place) :
    store.read? path = other.read? path := by
  have found : (store.locate? path).bind store.get? = (other.locate? path).bind other.get? := by
    rw [← leads]
    cases here : store.locate? path with
    | none => rfl
    | some place => exact same place here
  rw [FileStore.read?, FileStore.read?, found]

/-- Where no file can stand none is read. -/
theorem read?_of_closed (closed : ∀ place, ¬store.Takes path place) : store.read? path = none := by
  rw [FileStore.read?]
  cases leads : store.locate? path with
  | none => rfl
  | some place =>
      have directory : store.get? place = some .directory := by
        by_contra free
        exact closed place ⟨leads, free⟩
      rw [Option.bind_some, directory]

end FileStore

namespace Config

variable {store after : FileStore} {path : String} {config : Config} {faults : Faults}
  {result : Except StorageError Unit} {history earlier : List (String × Config)}

theorem saves_of_does (done : store.does (save (faultyDisk faults) path config) = (result, after)) :
    Saves faults store path config result after := by
  have saves := saves_does faults store path config
  rwa [done] at saves

theorem Saves.moved (saves : Saves faults store path config (.ok ()) after) :
    ∃ draft place, store.Takes (draftPath path) draft ∧ store.Takes path place ∧
      store.Moved after draft place config.toText := by
  cases saves with
  | saved opens takes moved => exact ⟨_, _, opens, takes, moved⟩

theorem Saves.sameTree (saves : Saves faults store path config (.ok ()) after) :
    store.SameTree after := by
  obtain ⟨draft, place, opens, takes, moved⟩ := saves.moved
  exact moved.sameTree opens.free takes.free

/-- A saved configuration is loaded. -/
theorem Saves.loads (saves : Saves faults store path config (.ok ()) after) :
    after.does (load (faultyDisk faults) path) = (.ok config, after) := by
  obtain ⟨draft, place, -, takes, moved⟩ := saves.moved
  have read := (saves.sameTree.takes takes).read? moved.arrived
  rw [does_load, read, ofFile, ofText?_toText]

/-- A place that neither the path nor its draft leads to is as it was. -/
theorem Saves.other (saves : Saves faults store path config result after) {place : Place}
    (other : store.locate? path ≠ some place) (apart : store.locate? (draftPath path) ≠ some place) :
    after.get? place = store.get? place := by
  cases saves with
  | uncreatable => rfl
  | unwritable opens => exact opens.get?_put_other _ apart
  | irreplaceable opens => exact opens.get?_put_other _ apart
  | saved opens takes moved =>
      refine moved.stays ?_ ?_
      · rintro rfl
        exact other takes.leads
      · rintro rfl
        exact apart opens.leads

/-! Many configurations, one after the other. -/

def saveAll {m : Type → Type} [Monad m] (disk : Disk m) :
    List (String × Config) → ExceptT StorageError m Unit
  | [] => pure ()
  | (path, config) :: history => do
    save disk path config
    saveAll disk history

theorem saveAll_cons :
    store.does (saveAll (faultyDisk faults) ((path, config) :: history)) = (.ok (), after) ↔
      ∃ between, store.does (save (faultyDisk faults) path config) = (.ok (), between) ∧
        between.does (saveAll (faultyDisk faults) history) = (.ok (), after) := by
  rw [saveAll, does_bind]
  rcases store.does (save (faultyDisk faults) path config) with ⟨_ | _, between⟩
  · simp
  · simp

theorem saveAll_append :
    store.does (saveAll (faultyDisk faults) (earlier ++ history)) = (.ok (), after) ↔
      ∃ between, store.does (saveAll (faultyDisk faults) earlier) = (.ok (), between) ∧
        between.does (saveAll (faultyDisk faults) history) = (.ok (), after) := by
  induction earlier generalizing store with
  | nil => simp [saveAll]
  | cons entry earlier ih =>
      obtain ⟨path, config⟩ := entry
      simp only [List.cons_append, saveAll_cons, ih]
      constructor
      · rintro ⟨first, saved, between, before, rest⟩
        exact ⟨between, ⟨first, saved, before⟩, rest⟩
      · rintro ⟨between, ⟨first, saved, before⟩, rest⟩
        exact ⟨first, saved, between, before, rest⟩

/-- All along a history the directories stay. -/
theorem saveAll_sameTree
    (done : store.does (saveAll (faultyDisk faults) history) = (.ok (), after)) :
    store.SameTree after := by
  induction history generalizing store with
  | nil =>
      obtain rfl : store = after := congrArg Prod.snd done
      exact .refl store
  | cons entry history ih =>
      obtain ⟨between, saved, rest⟩ := saveAll_cons.mp done
      intro place
      exact ((saves_of_does saved).sameTree place).trans (ih rest place)

/-- A place that none of the paths of a history nor of their drafts leads to is as it was. -/
theorem saveAll_other (done : store.does (saveAll (faultyDisk faults) history) = (.ok (), after))
    {place : Place} (other : ∀ entry ∈ history,
      store.locate? entry.1 ≠ some place ∧ store.locate? (draftPath entry.1) ≠ some place) :
    after.get? place = store.get? place := by
  induction history generalizing store with
  | nil =>
      obtain rfl : store = after := congrArg Prod.snd done
      rfl
  | cons entry history ih =>
      obtain ⟨between, saved, rest⟩ := saveAll_cons.mp done
      have saves := saves_of_does saved
      obtain ⟨apart, draft⟩ := other entry List.mem_cons_self
      rw [ih rest, saves.other apart draft]
      intro later inside
      rw [← saves.sameTree.locate?, ← saves.sameTree.locate?]
      exact other later (List.mem_cons_of_mem entry inside)

/-- Without faults a configuration is saved just where files can stand. -/
theorem saves_iff : (∃ after, store.does (save disk path config) = (.ok (), after)) ↔
    (∃ place, store.Takes path place) ∧ ∃ draft, store.Takes (draftPath path) draft := by
  constructor
  · rintro ⟨after, done⟩
    obtain ⟨draft, place, opens, takes, -⟩ := (saves_of_does done).moved
    exact ⟨⟨place, takes⟩, draft, opens⟩
  · rintro ⟨⟨place, takes⟩, draft, opens⟩
    cases done : store.does (save disk path config) with
    | mk result after =>
        cases saves_of_does done with
        | uncreatable closed => exact absurd (closed draft opens) Bool.false_ne_true
        | unwritable _ torn => exact absurd torn (Option.some_ne_none _).symm
        | irreplaceable _ closed => exact absurd (closed place takes) Bool.false_ne_true
        | saved => exact ⟨after, rfl⟩

theorem saveAll_iff : (∃ after, store.does (saveAll disk history) = (.ok (), after)) ↔
    ∀ entry ∈ history, (∃ place, store.Takes entry.1 place) ∧
      ∃ draft, store.Takes (draftPath entry.1) draft := by
  induction history generalizing store with
  | nil => exact ⟨fun _ _ inside => absurd inside List.not_mem_nil, fun _ => ⟨store, rfl⟩⟩
  | cons entry history ih =>
      obtain ⟨path, config⟩ := entry
      have carried : ∀ {between}, store.SameTree between →
          ((∃ after, between.does (saveAll disk history) = (.ok (), after)) ↔
            ∀ entry ∈ history, (∃ place, store.Takes entry.1 place) ∧
              ∃ draft, store.Takes (draftPath entry.1) draft) := by
        intro between same
        simp only [ih, same.takes_iff]
      rw [List.forall_mem_cons, ← saves_iff]
      constructor
      · rintro ⟨after, done⟩
        obtain ⟨between, saved, rest⟩ := saveAll_cons.mp done
        exact ⟨⟨between, saved⟩, (carried (saves_of_does saved).sameTree).mp ⟨after, rest⟩⟩
      · rintro ⟨⟨between, saved⟩, others⟩
        obtain ⟨after, rest⟩ := (carried (saves_of_does saved).sameTree).mpr others
        exact ⟨after, saveAll_cons.mpr ⟨between, saved, rest⟩⟩

/-- A configuration that is saved stands where its path leads, and is loaded from there. Its draft,
which is beside it and has the name with the extension `partial`, is gone, and with it what stood
there. All else is as it was. So after many configurations have been saved each is loaded, as long
as no later one was saved at its path or had its draft there. Without faults many are saved just
where files can stand at their paths and at their drafts. -/
theorem save_leaves_others (faults : Faults) (store : FileStore) :
    (∀ path config after, store.does (save (faultyDisk faults) path config) = (.ok (), after) →
      ∃ directory name stem,
        let place := directory ++ [String.ofList name]
        let draft := directory ++ [String.ofList (stem ++ ".partial".toList)]
        store.locate? path = some place ∧ store.locate? (draftPath path) = some draft ∧
        Path.IsStem stem name ∧
        (∀ other, other ≠ place → other ≠ draft → after.get? other = store.get? other) ∧
        (draft ≠ place → after.get? draft = none) ∧
        after.get? place = some (.file config.toText) ∧
        after.does (load (faultyDisk faults) path) = (.ok config, after)) ∧
    (∀ history after, store.does (saveAll (faultyDisk faults) history) = (.ok (), after) →
      ∀ earlier path config later, history = earlier ++ (path, config) :: later →
        (∀ entry ∈ later, store.locate? entry.1 ≠ store.locate? path ∧
          store.locate? (draftPath entry.1) ≠ store.locate? path) →
        after.does (load (faultyDisk faults) path) = (.ok config, after)) ∧
    ∀ history, (∃ after, store.does (saveAll disk history) = (.ok (), after)) ↔
      ∀ entry ∈ history, (∃ place, store.Takes entry.1 place) ∧
        ∃ draft, store.Takes (draftPath entry.1) draft := by
  refine ⟨?_, ?_, fun history => saveAll_iff⟩
  · intro path config after done
    have saves := saves_of_does done
    obtain ⟨draft, place, opens, takes, moved⟩ := saves.moved
    have spelled : ".partial".toList = '.' :: "partial".toList := by decide
    obtain ⟨directory, name, stem, rfl, isStem, rfl⟩ := takes.beside (by decide) opens
    simp only [spelled]
    exact ⟨directory, name, stem, takes.leads, opens.leads, isStem, fun _ => moved.stays,
      moved.left, moved.arrived, saves.loads⟩
  · rintro _ after done earlier path config later rfl others
    obtain ⟨before, earlier, rest⟩ := saveAll_append.mp done
    obtain ⟨between, saved, rest⟩ := saveAll_cons.mp rest
    have saves := saves_of_does saved
    obtain ⟨draft, place, opens, takes, moved⟩ := saves.moved
    -- directories stay, so the paths lead now where they led when they were saved
    have before := saveAll_sameTree earlier
    have since := saveAll_sameTree rest
    have same : after.get? place = between.get? place := by
      refine saveAll_other rest fun entry inside => ?_
      have leads : store.locate? path = some place := before.locate?.trans takes.leads
      rw [← saves.sameTree.locate?, ← saves.sameTree.locate?, ← before.locate?, ← before.locate?,
        ← leads]
      exact others entry inside
    have takes : after.Takes path place := since.takes (saves.sameTree.takes takes)
    rw [does_load, takes.read? (same.trans moved.arrived), ofFile, ofText?_toText]

/-- Of two configurations saved at one path, with another one saved in between, the last is loaded. -/
theorem save_leaves_others_brewing :
    let store : FileStore := ⟨[(["tea"], .directory), (["tea", "c.json.old"], .file "keep")]⟩
    let history : List (String × Config) := [("tea/c.json", ⟨4, true⟩), ("./c.json", default),
      ("tea/../tea/c.json", ⟨18446744073709551615, false⟩), ("d.json", ⟨2, false⟩)]
    ∃ after, store.does (saveAll disk history) = (.ok (), after) ∧
      after.does (load disk "tea/../tea/c.json") = (.ok ⟨18446744073709551615, false⟩, after) := by
  intro store history
  have takes : ∀ entry ∈ history, (∃ place, store.Takes entry.1 place) ∧
      ∃ draft, store.Takes (draftPath entry.1) draft := by
    simp only [history, List.forall_mem_cons]
    refine ⟨⟨⟨["tea", "c.json"], ?_, ?_⟩, ["tea", "c.partial"], ?_, ?_⟩,
      ⟨⟨["c.json"], ?_, ?_⟩, ["c.partial"], ?_, ?_⟩,
      ⟨⟨["tea", "c.json"], ?_, ?_⟩, ["tea", "c.partial"], ?_, ?_⟩,
      ⟨⟨["d.json"], ?_, ?_⟩, ["d.partial"], ?_, ?_⟩, fun _ inside => absurd inside List.not_mem_nil⟩
    all_goals decide +kernel
  obtain ⟨leaves, keeps, succeeds⟩ := save_leaves_others .none store
  obtain ⟨after, done⟩ := (succeeds history).mpr takes
  refine ⟨after, done, keeps history after done [("tea/c.json", ⟨4, true⟩), ("./c.json", default)]
    _ _ [("d.json", ⟨2, false⟩)] rfl ?_⟩
  decide +kernel

/-- What stands where the draft does is lost, be it another configuration that was saved before. -/
theorem save_loses_draft :
    (let store : FileStore := ⟨[(["c.partial"], .file "keep")]⟩
      ∃ after, store.does (save disk "c.json" default) = (.ok (), after) ∧
        store.locate? "c.json" ≠ some ["c.partial"] ∧
        store.get? ["c.partial"] = some (.file "keep") ∧ after.get? ["c.partial"] = none) ∧
    ∃ after, FileStore.empty.does
        (saveAll disk [("c.partial", ⟨4, true⟩), ("c.json", default)]) = (.ok (), after) ∧
      after.does (load disk "c.partial") = (.error (.unreadable "c.partial"), after) := by
  refine ⟨⟨_, rfl, ?_, rfl, rfl⟩, _, rfl, rfl⟩
  decide

/-! Where a configuration cannot be kept. -/

/-- What stays as it was where no configuration came to stand at the path. -/
structure Spares (faults : Faults) (path : String) (config : Config) (error : StorageError)
    (store after : FileStore) : Prop where
  /-- All but what stands where the draft does. -/
  others : ∀ place, store.locate? (draftPath path) ≠ some place →
    after.get? place = store.get? place
  /-- That too, if it has not come to the draft. -/
  undrafted : error ≠ .unwritable (draftPath path) → error ≠ .irreplaceable path → after = store
  /-- The draft that cannot take the place of the file is left, and whole. -/
  drafted : error = .irreplaceable path → ∃ draft, store.locate? (draftPath path) = some draft ∧
    after.get? draft = some (.file config.toText)
  /-- The file at the path, if it is not the draft itself. -/
  kept : (∀ place, store.locate? path = some place → store.locate? (draftPath path) ≠ some place) →
    after.read? path = store.read? path
  /-- All, if there is a file at the path and nothing but files and directories is in the way. -/
  whole : faults = .none → store.read? path ≠ none → after = store

theorem Spares.refl {error : StorageError} (different : error ≠ .irreplaceable path) :
    Spares faults path config error store store where
  others _ _ := rfl
  undrafted _ _ := rfl
  drafted same := absurd same different
  kept _ := rfl
  whole _ _ := rfl

theorem Spares.put {error : StorageError} {draft : Place} {text : String}
    (opens : store.Takes (draftPath path) draft)
    (late : error = .unwritable (draftPath path) ∨ error = .irreplaceable path)
    (drafted : error = .irreplaceable path → text = config.toText)
    (whole : faults = .none → store.read? path = none) :
    Spares faults path config error store (store.put draft (.file text)) where
  others place apart := opens.get?_put_other _ apart
  undrafted one two := by
    rcases late with same | same
    · exact absurd same one
    · exact absurd same two
  drafted same := by
    refine ⟨draft, opens.leads, ?_⟩
    rw [opens.get?_put_self, drafted same]
  kept apart := by
    have same : store.locate? path = (store.put draft (.file text)).locate? path :=
      (opens.put_sameTree text).locate?
    refine read?_congr same.symm fun place leads => ?_
    exact opens.get?_put_other _ (apart place (same.trans leads))
  whole none file := absurd (whole none) file

theorem Saves.spares {error : StorageError}
    (saves : Saves faults store path config (.error error) after) :
    Spares faults path config error store after := by
  cases saves with
  | uncreatable => exact .refl (by simp)
  | unwritable opens torn =>
      refine .put opens (.inl rfl) (fun same => absurd same (by simp)) fun none => ?_
      subst none
      exact absurd torn (Option.some_ne_none _).symm
  | irreplaceable opens closed =>
      refine .put opens (.inr rfl) (fun _ => rfl) fun none => read?_of_closed fun place takes => ?_
      subst none
      exact absurd (closed place takes) Bool.false_ne_true

end Config

end Runbook
