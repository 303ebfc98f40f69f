import Mathlib.Data.List.DropRight
import Runbook.Config.FileStore

/-!
Where paths lead.

Only directories decide where a path leads, so files may come and go. A path that a file can stand
at ends with the name of that file, and with another extension it leads to a file beside it.
-/
namespace Runbook

namespace FileStore

variable {store other : FileStore} {path : String} {place goal : Place} {names : List String}

@[simp] theorem get?_root (store : FileStore) : store.get? [] = some .directory := if_pos rfl

/-- The two stores have the same directories. -/
def SameTree (store other : FileStore) : Prop :=
  ∀ place, store.get? place = some .directory ↔ other.get? place = some .directory

theorem SameTree.follow? (same : store.SameTree other) :
    store.follow? place names = other.follow? place names := by
  induction names generalizing place with
  | nil => rfl
  | cons name names ih => simp only [FileStore.follow?, same place, ih]

theorem SameTree.locate? (same : store.SameTree other) : store.locate? path = other.locate? path := by
  simp only [FileStore.locate?, same.follow?]

theorem follow?_append (more : List String) :
    store.follow? place (names ++ more) =
      (store.follow? place names).bind fun goal => store.follow? goal more := by
  induction names generalizing place with
  | nil => rfl
  | cons name names ih =>
      simp only [List.cons_append, follow?, ih]
      split_ifs <;> rfl

/-- Directories lead down to the place. -/
def Rooted (store : FileStore) (place : Place) : Prop :=
  ∀ above, above <+: place → above ≠ place → store.get? above = some .directory

theorem Rooted.parent (rooted : store.Rooted place) : store.get? place.dropLast = some .directory := by
  by_cases root : place = []
  · simp [root]
  · refine rooted _ (List.dropLast_prefix place) fun same => ?_
    have shorter := congrArg List.length same
    have := List.length_pos_iff.mpr root
    rw [List.length_dropLast] at shorter
    omega

theorem Rooted.dropLast (rooted : store.Rooted place) : store.Rooted place.dropLast := by
  intro above before different
  refine rooted above (before.trans (List.dropLast_prefix place)) ?_
  rintro rfl
  have short := before.length_le
  rw [List.length_dropLast] at short
  have none : above = [] := List.length_eq_zero_iff.mp (by omega)
  exact different (by simp [none])

theorem Rooted.child (rooted : store.Rooted place) (here : store.get? place = some .directory)
    (name : String) : store.Rooted (place ++ [name]) := by
  intro above before different
  rcases List.prefix_concat_iff.mp before with same | inside
  · exact absurd same different
  · by_cases same : above = place
    · rw [same, here]
    · exact rooted above inside same

theorem Rooted.follow? (rooted : store.Rooted place) (leads : store.follow? place names = some goal) :
    store.Rooted goal := by
  induction names generalizing place with
  | nil => exact Option.some.inj leads ▸ rooted
  | cons name names ih =>
      rw [FileStore.follow?] at leads
      split_ifs at leads with directory here up
      · exact ih rooted leads
      · exact ih rooted.dropLast leads
      · exact ih (rooted.child directory name) leads

/-- The name is that of something in a directory. -/
def IsName (name : String) : Prop := name ≠ "" ∧ name ≠ "." ∧ name ≠ ".."

/-- A file stands or can stand where the path leads. -/
structure Takes (store : FileStore) (path : String) (place : Place) : Prop where
  leads : store.locate? path = some place
  free : store.get? place ≠ some .directory

theorem Takes.ne_root (takes : store.Takes path place) : place ≠ [] := by
  rintro rfl
  exact takes.free store.get?_root

theorem Takes.follow? (takes : store.Takes path place) :
    store.follow? [] (Path.components path) = some place := by
  have leads := takes.leads
  rw [locate?] at leads
  split_ifs at leads with usable
  exact leads

/-- A path to a file ends with its name. -/
theorem Takes.last (takes : store.Takes path place) {name : String}
    (components : Path.components path = names ++ [name]) :
    ∃ directory, store.follow? [] names = some directory ∧
      store.get? directory = some .directory ∧ IsName name ∧ place = directory ++ [name] := by
  have leads := takes.follow?
  rw [components, follow?_append] at leads
  obtain ⟨directory, before, last⟩ := Option.bind_eq_some_iff.mp leads
  -- what a path leads through has directories above it, so neither `.` nor `..` leads to a file
  have rooted : store.Rooted directory := by
    refine Rooted.follow? ?_ before
    intro above inside different
    exact absurd (List.prefix_nil.mp inside) different
  rw [FileStore.follow?] at last
  split_ifs at last with isDirectory here up
  · obtain rfl : directory = place := Option.some.inj last
    exact absurd isDirectory takes.free
  · obtain rfl : directory.dropLast = place := Option.some.inj last
    exact absurd rooted.parent takes.free
  · obtain ⟨some, one⟩ := not_or.mp here
    exact ⟨directory, before, isDirectory, ⟨some, one, up⟩, (Option.some.inj last).symm⟩

end FileStore

namespace Path

variable {front name : List Char}

/-- The text ends where a component begins. -/
def EndsComponent (front : List Char) : Prop := front = [] ∨ front.getLast? = some '/'

theorem exists_last (path : List Char) :
    ∃ front name, path = front ++ name ∧ EndsComponent front ∧ '/' ∉ name := by
  refine ⟨path.rdropWhile (· != '/'), path.rtakeWhile (· != '/'), ?_, ?_, ?_⟩
  · exact (List.rdropWhile_append_rtakeWhile ..).symm
  · by_cases none : path.rdropWhile (· != '/') = []
    · exact .inl none
    · have slash := List.rdropWhile_last_not (· != '/') path none
      refine .inr ?_
      rw [List.getLast?_eq_some_getLast none]
      simpa using slash
  · intro inside
    simpa using List.mem_rtakeWhile_imp inside

/-- The components of what stands before the last one stay with another last one. -/
theorem exists_components (ends : EndsComponent front) :
    ∃ names, ∀ name : List Char, '/' ∉ name →
      components (String.ofList (front ++ name)) = names ++ [String.ofList name] := by
  have single : ∀ name : List Char, '/' ∉ name → name.splitOnP (· == '/') = [name] := by
    intro name flat
    refine List.splitOnP_eq_singleton fun ch inside => ?_
    rw [beq_eq_false_iff_ne]
    rintro rfl
    exact flat inside
  rcases ends with rfl | slash
  · refine ⟨[], fun name flat => ?_⟩
    simp [components, single name flat]
  · obtain ⟨before, rfl⟩ := List.getLast?_eq_some_iff.mp slash
    refine ⟨(before.splitOnP (· == '/')).map String.ofList, fun name flat => ?_⟩
    rw [components, String.toList_ofList, List.append_assoc, List.singleton_append,
      List.splitOnP_append_cons (p := (· == '/')) before name rfl, single name flat]
    simp

theorem dropNeutral_name (flat : '/' ∉ name) (some : name ≠ []) (one : name ≠ ['.'])
    (rest : List Char) :
    splitLast.dropNeutral (name.reverse ++ rest) = name.reverse ++ rest := by
  have slash : ∀ ch ∈ name.reverse, ch ≠ '/' := by
    rintro ch inside rfl
    exact flat (List.mem_reverse.mp inside)
  cases reversed : name.reverse with
  | nil => exact absurd (List.reverse_eq_nil_iff.mp reversed) some
  | cons last begins =>
      rw [reversed] at slash
      rw [List.cons_append]
      unfold splitLast.dropNeutral
      split
      · next path same =>
          exact absurd (List.cons.inj same).1 (slash last List.mem_cons_self)
      · next path same =>
          obtain ⟨rfl, more⟩ := List.cons.inj same
          cases begins with
          | nil => exact absurd (List.reverse_eq_iff.mp reversed) one
          | cons ch begins => exact absurd (List.cons.inj more).1 (slash ch (by simp))
      · rfl

theorem splitLast_name (ends : EndsComponent front) (flat : '/' ∉ name) (some : name ≠ [])
    (one : name ≠ ['.']) : splitLast (front ++ name) = (front.reverse, name.reverse) := by
  have passes : ∀ ch ∈ name.reverse, (ch != '/') = true := by
    intro ch inside
    rw [bne_iff_ne]
    rintro rfl
    exact flat (List.mem_reverse.mp inside)
  have stops : front.reverse.dropWhile (· != '/') = front.reverse ∧
      front.reverse.takeWhile (· != '/') = [] := by
    rcases ends with rfl | slash
    · exact ⟨rfl, rfl⟩
    · obtain ⟨before, rfl⟩ := List.getLast?_eq_some_iff.mp slash
      simp
  rw [splitLast, List.reverse_append, dropNeutral_name flat some one,
    List.dropWhile_append_of_pos passes, List.takeWhile_append_of_pos passes, stops.1, stops.2,
    List.append_nil]

/-- `stem` is the name without its extension, which follows the last dot that is not the first
character. -/
def IsStem (stem name : List Char) : Prop :=
  name = stem ∨ ∃ extension, '.' ∉ extension ∧ name = stem ++ '.' :: extension

/-- With another extension a path ends with another name, of the same stem, or it leads to the
directory above. -/
theorem withExtension_name (ends : EndsComponent front) (flat : '/' ∉ name) (some : name ≠ [])
    (one : name ≠ ['.']) (two : name ≠ ['.', '.']) (extension : String) :
    (∃ stem, IsStem stem name ∧ withExtension extension (String.ofList (front ++ name)) =
        String.ofList (front ++ (stem ++ '.' :: extension.toList))) ∨
      withExtension extension (String.ofList (front ++ name)) =
        String.ofList (front ++ ['.', '.']) := by
  have named : ¬ (name.reverse.isEmpty ∨ name.reverse = ['.'] ∨ name.reverse = ['.', '.']) := by
    simp [some, one, two, List.reverse_eq_iff]
  rw [withExtension, String.toList_ofList, splitLast_name ends flat some one]
  simp only [if_neg named]
  have whole : ¬ (name.reverse = ['.'] ∧
      (front ++ name).getLast? = name.reverse.head?) := by
    simp [one, List.reverse_eq_iff]
  have kept : IsStem name name := .inl rfl
  split
  · rw [if_neg whole]
    exact .inl ⟨name, kept, by simp⟩
  · rw [if_neg whole]
    exact .inl ⟨name, kept, by simp⟩
  · next dot stem only found =>
      -- from the end of the name, an extension, its dot and the stem
      have parts := List.takeWhile_append_dropWhile (p := (· != '.')) (l := name.reverse)
      have stops := List.head?_dropWhile_not (· != '.') name.reverse
      rw [found] at parts stops
      have isDot : dot = '.' := by simpa using stops
      subst isDot
      split_ifs with up
      · obtain ⟨rfl, -⟩ := up
        exact .inr (by simp)
      · refine .inl ⟨stem.reverse, .inr ⟨(name.reverse.takeWhile (· != '.')).reverse, ?_, ?_⟩, ?_⟩
        · intro inside
          simpa using List.mem_takeWhile_imp (List.mem_reverse.mp inside)
        · have turned := congrArg List.reverse parts
          simpa using turned.symm
        · simp

theorem IsStem.sublist {stem : List Char} (isStem : IsStem stem name) : stem.Sublist name := by
  rcases isStem with rfl | ⟨extension, -, rfl⟩
  · exact List.Sublist.refl name
  · exact List.sublist_append_left ..

end Path

namespace FileStore

variable {store : FileStore} {path : String} {place sibling : Place}

/-- With another extension the path to a file leads to a file beside it, of the same stem. -/
theorem Takes.beside (takes : store.Takes path place) {extension : String}
    (flat : '/' ∉ extension.toList)
    (takes' : store.Takes (Path.withExtension extension path) sibling) :
    ∃ directory name stem, place = directory ++ [String.ofList name] ∧ Path.IsStem stem name ∧
      sibling = directory ++ [String.ofList (stem ++ '.' :: extension.toList)] := by
  obtain ⟨front, name, whole, ends, flatName⟩ := Path.exists_last path.toList
  obtain rfl : String.ofList (front ++ name) = path := by rw [← whole, String.ofList_toList]
  obtain ⟨names, components⟩ := Path.exists_components ends
  obtain ⟨directory, before, -, ⟨some, one, two⟩, rfl⟩ := takes.last (components name flatName)
  have other : ∀ {cs : List Char}, String.ofList name ≠ String.ofList cs → name ≠ cs := by
    rintro cs different rfl
    exact different rfl
  rcases Path.withExtension_name ends flatName (other some) (other one) (other two) extension with
    ⟨stem, isStem, named⟩ | up
  · have flatStem : '/' ∉ stem ++ '.' :: extension.toList := by
      have inside : '/' ∉ stem := fun slash => flatName (isStem.sublist.subset slash)
      simp [inside, flat]
    rw [named] at takes'
    obtain ⟨directory', before', -, -, rfl⟩ := takes'.last (components _ flatStem)
    obtain rfl : directory = directory' := Option.some.inj (before.symm.trans before')
    exact ⟨directory, name, stem, rfl, isStem, rfl⟩
  · -- a path that ends with `..` leads to a directory
    rw [up] at takes'
    obtain ⟨-, -, -, isName, -⟩ := takes'.last (components ['.', '.'] (by decide))
    exact absurd rfl isName.2.2

end FileStore

end Runbook
