import Runbook.Config.Path

/-!
Files and directories below a root, as a value.

`FileStore.get?` is the view: what stands at a place. Each operation that changes the store has one
lemma on it.
-/
namespace Runbook

/-- A place below the root: the names of the directories on the way, and its own. -/
abbrev Place := List String

/-- What can stand at a place. -/
inductive Node where
  | file (text : String)
  | directory
  deriving DecidableEq, Repr

/-- Files and directories by their places. The root is always a directory. -/
structure FileStore where
  nodes : List (Place × Node)
  deriving Repr

namespace FileStore

def empty : FileStore := ⟨[]⟩

def get? (store : FileStore) (place : Place) : Option Node :=
  if place = [] then some .directory else (store.nodes.find? (·.1 = place)).map Prod.snd

/-- Puts a node at a place, instead of what stands there. -/
def put (store : FileStore) (place : Place) (node : Node) : FileStore :=
  ⟨(place, node) :: store.nodes.filter (·.1 ≠ place)⟩

def remove (store : FileStore) (place : Place) : FileStore :=
  ⟨store.nodes.filter (·.1 ≠ place)⟩

theorem find?_filter_ne (nodes : List (Place × Node)) {place asked : Place} (h : asked ≠ place) :
    (nodes.filter (·.1 ≠ place)).find? (·.1 = asked) = nodes.find? (·.1 = asked) := by
  induction nodes with
  | nil => rfl
  | cons node nodes ih =>
    by_cases hp : node.1 = place
    · have ha : node.1 ≠ asked := fun heq => h (heq.symm.trans hp)
      simpa [hp, Ne.symm h] using ih
    · by_cases ha : node.1 = asked
      · subst ha; simp [hp]
      · simpa [hp, ha] using ih

theorem get?_put (store : FileStore) {place : Place} (asked : Place) (node : Node)
    (h : place ≠ []) :
    (store.put place node).get? asked = if asked = place then some node else store.get? asked := by
  by_cases hask : asked = place
  · subst hask; simp [get?, put, h]
  · simp [get?, put, hask, Ne.symm hask, ← find?_filter_ne store.nodes hask]

theorem get?_remove (store : FileStore) {place : Place} (asked : Place) (h : place ≠ []) :
    (store.remove place).get? asked = if asked = place then none else store.get? asked := by
  by_cases hask : asked = place
  · subst hask; simp [get?, remove, h, List.find?_eq_none]
  · simp [get?, remove, hask, ← find?_filter_ne store.nodes hask]

/-- The place that components lead to from `place` on; they go through directories only. -/
def follow? (store : FileStore) (place : Place) : List String → Option Place
  | [] => some place
  | name :: names =>
    if store.get? place = some .directory then
      if name = "" ∨ name = "." then store.follow? place names
      else if name = ".." then store.follow? place.dropLast names
      else store.follow? (place ++ [name]) names
    else none

/-- The place that a path leads to. Its directory exists; it need not. -/
def locate? (store : FileStore) (path : String) : Option Place :=
  if Path.isUsable path then store.follow? [] (Path.components path) else none

/-- Does anything stand where the path leads? -/
def contains (store : FileStore) (path : String) : Bool :=
  ((store.locate? path).bind store.get?).isSome

def read? (store : FileStore) (path : String) : Option String :=
  match (store.locate? path).bind store.get? with
  | some (.file text) => some text
  | _ => none

/-- The store with a file at a path, instead of one that stands there; none if its directory does
not exist or a directory stands there. -/
def write? (store : FileStore) (path text : String) : Option FileStore :=
  match store.locate? path with
  | none => none
  | some place =>
    if store.get? place = some .directory then none else some (store.put place (.file text))

/-- The store with a file moved to another path, instead of one that stands there. -/
def rename? (store : FileStore) (path target : String) : Option FileStore :=
  match store.locate? path, store.locate? target with
  | some place, some goal =>
    match store.get? place with
    | some (.file text) =>
      if place = goal then some store
      else if store.get? goal = some .directory then none
      else some ((store.remove place).put goal (.file text))
    | _ => none
  | _, _ => none

/-- The store with a directory at a path, and directories on the way to it. -/
def makeDirectories (store : FileStore) (path : String) : FileStore :=
  go store [] (Path.components path)
where
  go (store : FileStore) (place : Place) : List String → FileStore
    | [] => store
    | name :: names =>
      if name = "" ∨ name = "." then go store place names
      else if name = ".." then go store place.dropLast names
      else
        let place := place ++ [name]
        go (if (store.get? place).isSome then store else store.put place .directory) place names

/-- The store with a file at a path, and directories on the way to it. -/
def place (store : FileStore) (path text : String) : FileStore :=
  let directory := String.intercalate "/" (Path.components path).dropLast
  let store := store.makeDirectories directory
  (store.write? path text).getD store

/-- The files, each by its path, and their texts. -/
def files (store : FileStore) : List (String × String) :=
  store.nodes.filterMap fun
    | (place, .file text) => some (String.intercalate "/" place, text)
    | _ => none

end FileStore

end Runbook
