import Runbook.Proofs.Evaluation.Asked

/-!
A frame as a table in two parts.

Beside the bindings of an invocation stands an index: the number of the binding that a name means,
and the position of the name in its group. Both parts are updated together, when a group is
registered and when a name is asked for. So whatever is registered, be it a name again, a name twice
in one group, or no name at all, the index points to bindings that are there. What a frame finds as
it looks through its bindings from the last one on is what its table has in the index.
-/
namespace Runbook

/-- The group of that number is the last one that has the name, and the name's last place in it is
the position. -/
inductive Latest (name : Name) : List (List Name) → Nat → Nat → Prop
  | here {before after : List (List Name)} {first rest : List Name} : name ∉ rest →
      (∀ group ∈ after, name ∉ group) →
      Latest name (before ++ (first ++ name :: rest) :: after) before.length first.length

/-- The bindings in the order in which they were registered, and for each name the number of a
binding and a position among its names. -/
@[ext]
structure Table where
  bindings : List Binding
  index? : Name → Option (Nat × Nat)

/-- Why a name cannot be asked for. -/
inductive Table.Lapse where
  /-- The index has nothing for the name. -/
  | unbound
  /-- The index has the number of a binding for it that is not there. -/
  | beyond (index : Nat)

namespace Table

def empty : Table := ⟨[], fun _ => none⟩

def groups (table : Table) : List (List Name) := table.bindings.map Binding.names

/-- Enters a name into the index, instead of what is there for it. -/
def enter (table : Table) (name : Name) (index position : Nat) : Table :=
  { table with
    index? := fun other => if name = other then some (index, position) else table.index? other }

/-- Enters names one after the other, for the positions from that one on. -/
def enterAll (index : Nat) : (position : Nat) → List Name → Table → Table
  | _, [], table => table
  | position, name :: names, table =>
    enterAll index (position + 1) names (table.enter name index position)

/-- Registers a binding under each of its names. -/
def register (table : Table) (binding : Binding) : Table :=
  { enterAll table.bindings.length 0 binding.names table with
    bindings := table.bindings ++ [binding] }

/-- Asks for a name: its binding, the position there, and the table after the binding is marked. -/
def ask (table : Table) (name : Name) : Except Lapse (Binding × Nat × Table) :=
  match table.index? name with
  | none => .error .unbound
  | some (index, position) =>
    match table.bindings[index]? with
    | none => .error (.beyond index)
    | some binding =>
      .ok (binding, position, { table with bindings := table.bindings.set index binding.observe })

def perform (table : Table) : Deed → Table
  | .bind binding => table.register binding
  | .read name =>
    match table.ask name with
    | .ok (_, _, marked) => marked
    | .error _ => table

/-- The table after deeds. -/
def performAll (table : Table) (deeds : List Deed) : Table := deeds.foldl perform table

/-- The table in which each parameter is registered with its value. -/
def ofParameters (parameters : List Name) (values : List Value) : Table :=
  ((parameters.zip values).map fun (name, value) => Binding.parameter name value).foldl register
    empty

/-- Each entry of the index points to a binding that is there, and has the name at the position. -/
def Sound (table : Table) : Prop :=
  ∀ name index position, table.index? name = some (index, position) →
    ∃ binding, table.bindings[index]? = some binding ∧ binding.names[position]? = some name

/-- The index has the last place of each name, and misses none. -/
structure Indexed (table : Table) : Prop where
  latest : ∀ {name index position}, table.index? name = some (index, position) →
    Latest name table.groups index position
  whole : ∀ {name}, table.index? name = none → ∀ group ∈ table.groups, name ∉ group

end Table

/-- The table that registering the bindings of the frame in their order makes. -/
def Frame.table (frame : Frame) : Table := frame.bindings.foldl Table.register .empty

section
variable {name : Name} {names : List Name} {groups : List (List Name)} {index position : Nat}

theorem placeOf?_last {place : Fin names.length} (found : placeOf? name names = some place) :
    ∃ first rest, names = first ++ name :: rest ∧ first.length = place ∧ name ∉ rest := by
  induction names with
  | nil => cases found
  | cons other names ih =>
      rw [placeOf?] at found
      split at found
      · rename_i inner there
        obtain ⟨first, rest, same, length, absent⟩ := ih there
        cases found
        exact ⟨other :: first, rest, congrArg (other :: ·) same, congrArg (· + 1) length, absent⟩
      · rename_i missing
        split at found
        · rename_i here
          cases found
          refine ⟨[], names, congrArg (· :: names) here, rfl, fun inside => ?_⟩
          have placed := Frame.placeOf?_isSome_iff.mpr inside
          rw [missing] at placed
          cases placed
        · cases found

theorem placeOf?_eq_none : placeOf? name names = none ↔ name ∉ names := by
  rw [← Frame.placeOf?_isSome_iff, Option.not_isSome_iff_eq_none]

namespace Latest

/-- The group is there, and has the name at the position. -/
theorem there (latest : Latest name groups index position) :
    ∃ group, groups[index]? = some group ∧ group[position]? = some name := by
  cases latest with
  | @here before after first rest =>
      refine ⟨first ++ name :: rest, ?_, ?_⟩
      · rw [List.getElem?_append_right (Nat.le_refl _), Nat.sub_self]
        rfl
      · rw [List.getElem?_append_right (Nat.le_refl _), Nat.sub_self]
        rfl

/-- No later group has the name. -/
theorem absent_later {later : Nat} {group : List Name} (latest : Latest name groups index position)
    (behind : index < later) (found : groups[later]? = some group) : name ∉ group := by
  cases latest with
  | @here before after first rest _ absent =>
      rw [List.getElem?_append_right (Nat.le_of_lt behind)] at found
      obtain ⟨more, same⟩ := Nat.exists_eq_add_of_lt behind
      rw [same, Nat.add_assoc, Nat.add_sub_cancel_left] at found
      exact absent group (List.mem_of_getElem? found)

/-- The group does not have the name at a later position. -/
theorem absent_behind {later : Nat} {group : List Name}
    (latest : Latest name groups index position) (found : groups[index]? = some group)
    (behind : position < later) : group[later]? ≠ some name := by
  cases latest with
  | @here before after first rest absent _ =>
      rw [List.getElem?_append_right (Nat.le_refl _), Nat.sub_self] at found
      obtain rfl := Option.some.inj found
      obtain ⟨more, rfl⟩ := Nat.exists_eq_add_of_lt behind
      rw [List.getElem?_append_right (Nat.le_of_lt behind), Nat.add_assoc, Nat.add_sub_cancel_left]
      exact fun there => absent (List.mem_of_getElem? there)

theorem of_placeOf? {place : Fin names.length} (found : placeOf? name names = some place)
    (before : List (List Name)) : Latest name (before ++ [names]) before.length place := by
  obtain ⟨first, rest, same, length, absent⟩ := placeOf?_last found
  rw [← length, same]
  exact .here absent nofun

theorem snoc (latest : Latest name groups index position) (absent : name ∉ names) :
    Latest name (groups ++ [names]) index position := by
  cases latest with
  | @here before after first rest last later =>
      rw [List.append_assoc, List.cons_append]
      exact .here last (List.forall_mem_append.mpr ⟨later, List.forall_mem_singleton.mpr absent⟩)

/-- A name is in no group, or has a last place. -/
theorem absent_or_latest (name : Name) (groups : List (List Name)) :
    (∀ group ∈ groups, name ∉ group) ∨ ∃ index position, Latest name groups index position := by
  induction groups using List.reverseRecOn with
  | nil => exact .inl nofun
  | append_singleton groups last ih =>
      cases place : placeOf? name last with
      | some place => exact .inr ⟨_, _, of_placeOf? ‹_› groups⟩
      | none =>
          have absent := placeOf?_eq_none.mp place
          rcases ih with none | ⟨index, position, latest⟩
          · exact .inl (List.forall_mem_append.mpr ⟨none, List.forall_mem_singleton.mpr absent⟩)
          · exact .inr ⟨index, position, latest.snoc absent⟩

theorem not_absent (latest : Latest name groups index position) :
    ¬∀ group ∈ groups, name ∉ group := by
  intro absent
  obtain ⟨group, found, here⟩ := latest.there
  exact absent group (List.mem_of_getElem? found) (List.mem_of_getElem? here)

/-- A name has one last place. -/
theorem unique {other place : Nat} (latest : Latest name groups index position)
    (again : Latest name groups other place) : index = other ∧ position = place := by
  obtain ⟨group, found, here⟩ := latest.there
  obtain ⟨group', found', here'⟩ := again.there
  have same : index = other := by
    rcases Nat.lt_trichotomy index other with less | same | more
    · exact absurd (List.mem_of_getElem? here') (latest.absent_later less found')
    · exact same
    · exact absurd (List.mem_of_getElem? here) (again.absent_later more found)
  subst same
  obtain rfl := Option.some.inj (found.symm.trans found')
  refine ⟨rfl, ?_⟩
  rcases Nat.lt_trichotomy position place with less | same | more
  · exact absurd here' (latest.absent_behind found less)
  · exact same
  · exact absurd here (again.absent_behind found more)

end Latest

end

namespace Table

variable {table : Table} {binding : Binding} {name : Name} {index position : Nat}

theorem index?_enterAll (names : List Name) (table : Table) (start : Nat) :
    (enterAll index start names table).index? name =
      match placeOf? name names with
      | some place => some (index, start + place)
      | none => table.index? name := by
  induction names generalizing table start with
  | nil => rfl
  | cons other names ih =>
      rw [enterAll, ih, placeOf?]
      cases placeOf? name names with
      | some place => simp only [Fin.val_succ, Nat.add_comm, Nat.add_left_comm]
      | none =>
          by_cases here : other = name
          · simp only [enter, if_pos here, Nat.add_zero]
          · simp only [enter, if_neg here]

theorem index?_register (table : Table) (binding : Binding) (name : Name) :
    (table.register binding).index? name =
      match placeOf? name binding.names with
      | some place => some (table.bindings.length, place.val)
      | none => table.index? name := by
  rw [register, index?_enterAll]
  cases placeOf? name binding.names with
  | some place => simp only [Nat.zero_add]
  | none => rfl

@[simp] theorem groups_register (table : Table) (binding : Binding) :
    (table.register binding).groups = table.groups ++ [binding.names] := by
  rw [groups, register, List.map_append, groups]
  rfl

theorem indexed_empty : empty.Indexed where
  latest := nofun
  whole _ := nofun

/-- What is registered is indexed, whatever its names are. -/
theorem Indexed.register (indexed : table.Indexed) (binding : Binding) :
    (table.register binding).Indexed where
  latest := by
    intro name index position found
    rw [index?_register] at found
    rw [groups_register]
    cases place : placeOf? name binding.names with
    | some last =>
        rw [place] at found
        cases found
        have latest := Latest.of_placeOf? place table.groups
        rwa [groups, List.length_map] at latest
    | none =>
        rw [place] at found
        exact (indexed.latest found).snoc (placeOf?_eq_none.mp place)
  whole := by
    intro name missing
    rw [index?_register] at missing
    rw [groups_register]
    cases place : placeOf? name binding.names with
    | some last =>
        rw [place] at missing
        cases missing
    | none =>
        rw [place] at missing
        exact List.forall_mem_append.mpr
          ⟨indexed.whole missing, List.forall_mem_singleton.mpr (placeOf?_eq_none.mp place)⟩

theorem Indexed.sound (indexed : table.Indexed) : table.Sound := by
  intro name index position found
  obtain ⟨group, there, here⟩ := (indexed.latest found).there
  rw [groups, List.getElem?_map] at there
  obtain ⟨binding, stands, rfl⟩ := Option.map_eq_some_iff.mp there
  exact ⟨binding, stands, here⟩

/-- A binding that is asked for keeps its names. -/
theorem groups_set (there : table.bindings[index]? = some binding) :
    { table with bindings := table.bindings.set index binding.observe }.groups = table.groups := by
  rw [groups, groups, List.map_set, Binding.names_observe]
  refine List.ext_getElem? fun other => ?_
  by_cases same : index = other
  · subst same
    have inside := (List.getElem?_eq_some_iff.mp there).1
    rw [List.getElem?_set_self (by rwa [List.length_map]), List.getElem?_map, there]
    rfl
  · rw [List.getElem?_set_ne same]

/-- Asking for a name never leads to a binding that is not there. -/
theorem Indexed.ask_cases (indexed : table.Indexed) (name : Name) :
    (table.ask name = .error .unbound ∧ table.index? name = none) ∨
      ∃ index position binding, table.index? name = some (index, position) ∧
        table.bindings[index]? = some binding ∧
        table.ask name = .ok (binding, position,
          { table with bindings := table.bindings.set index binding.observe }) := by
  cases found : table.index? name with
  | none => exact .inl ⟨by rw [ask, found], rfl⟩
  | some entry =>
      obtain ⟨index, position⟩ := entry
      obtain ⟨binding, there, _⟩ := indexed.sound _ _ _ found
      refine .inr ⟨index, position, binding, rfl, there, ?_⟩
      rw [ask, found]
      simp only [there]

theorem register_observe (table : Table) (binding : Binding) :
    table.register binding.observe =
      { table.register binding with bindings := table.bindings ++ [binding.observe] } := by
  rw [register, Binding.names_observe]
  rfl

/-- Marking a binding and registering another one may change places. -/
theorem register_set (table : Table) (index : Nat) (marked binding : Binding) :
    { table with bindings := table.bindings.set index marked }.register binding =
      { table.register binding with bindings := table.bindings.set index marked ++ [binding] } := by
  refine Table.ext rfl (funext fun name => ?_)
  rw [index?_register]
  simp only [List.length_set]
  exact (index?_register table binding name).symm

/-- Asking for a name finds the binding that is registered last if that has the name, and else what
it found before. -/
theorem Indexed.ask_register (indexed : table.Indexed) (binding : Binding) (name : Name) :
    (table.register binding).ask name =
      match placeOf? name binding.names with
      | some place => .ok (binding, place.val, table.register binding.observe)
      | none => (table.ask name).map fun (other, position, marked) =>
          (other, position, marked.register binding) := by
  have entry := index?_register table binding name
  have bindings : (table.register binding).bindings = table.bindings ++ [binding] := rfl
  cases place : placeOf? name binding.names with
  | some last =>
      rw [place] at entry
      rw [ask, entry, register_observe]
      simp only [bindings, List.getElem?_concat_length]
      rw [List.set_append_right _ _ (Nat.le_refl _), Nat.sub_self, List.set_cons_zero]
  | none =>
      rw [place] at entry
      rcases indexed.ask_cases name with
        ⟨asked, missing⟩ | ⟨index, position, other, found, there, asked⟩
      · rw [asked, ask, entry, missing]
        rfl
      · have inside := (List.getElem?_eq_some_iff.mp there).1
        rw [asked, ask, entry, found]
        simp only [bindings, List.getElem?_append_left inside, there, Except.map, register_set,
          List.set_append_left _ _ inside]

/-- Deeds keep the table indexed. -/
theorem Indexed.perform (indexed : table.Indexed) (deed : Deed) : (table.perform deed).Indexed := by
  cases deed with
  | bind binding => exact indexed.register binding
  | read name =>
      rw [Table.perform]
      rcases indexed.ask_cases name with
        ⟨missing, _⟩ | ⟨index, position, binding, _, there, asked⟩
      · rw [missing]
        exact indexed
      · rw [asked]
        constructor
        · intro other index' position' entry
          rw [groups_set there]
          exact indexed.latest entry
        · intro other missing
          rw [groups_set there]
          exact indexed.whole missing

theorem Indexed.performAll (indexed : table.Indexed) (deeds : List Deed) :
    (table.performAll deeds).Indexed := by
  induction deeds generalizing table with
  | nil => exact indexed
  | cons deed deeds ih => exact ih (indexed.perform deed)

theorem indexed_ofParameters (parameters : List Name) (values : List Value) :
    (ofParameters parameters values).Indexed := by
  suffices all : ∀ (bindings : List Binding) (table : Table), table.Indexed →
      (bindings.foldl Table.register table).Indexed from all _ _ indexed_empty
  intro bindings
  induction bindings with
  | nil => exact fun _ indexed => indexed
  | cons binding bindings ih => exact fun table indexed => ih _ (indexed.register binding)

end Table

namespace Frame

variable {frame : Frame} {name : Name}

@[simp] theorem table_add (frame : Frame) (binding : Binding) :
    (frame.add binding).table = frame.table.register binding := by
  rw [table, add, List.foldl_append]
  rfl

@[simp] theorem bindings_table (frame : Frame) : frame.table.bindings = frame.bindings := by
  obtain ⟨bindings⟩ := frame
  induction bindings using List.reverseRecOn with
  | nil => rfl
  | append_singleton bindings last ih =>
      change (Frame.add ⟨bindings⟩ last).table.bindings = _
      rw [table_add, Table.register, ih]

theorem table_ofParameters (parameters : List Name) (values : List Value) :
    (ofParameters parameters values).table = .ofParameters parameters values := rfl

theorem table_indexed (frame : Frame) : frame.table.Indexed := by
  obtain ⟨bindings⟩ := frame
  induction bindings using List.reverseRecOn with
  | nil => exact Table.indexed_empty
  | append_singleton bindings last ih =>
      change (Frame.add ⟨bindings⟩ last).table.Indexed
      rw [table_add]
      exact ih.register last

/-- Asking the table for a name finds what looking through the bindings finds, and marks the same
binding. -/
theorem ask_table (frame : Frame) (name : Name) :
    frame.table.ask name =
      match frame.find? name with
      | none => .error .unbound
      | some meaning => .ok (meaning.binding, meaning.place.val, (frame.observe name).table) := by
  obtain ⟨bindings⟩ := frame
  induction bindings using List.reverseRecOn with
  | nil => rfl
  | append_singleton bindings last ih =>
      rw [show Frame.mk (bindings ++ [last]) = Frame.add ⟨bindings⟩ last from rfl, table_add,
        (table_indexed _).ask_register, ih, find?_add, observe_add]
      cases place : placeOf? name last.names with
      | some place =>
          have inside := placeOf?_isSome_iff.mp (Option.isSome_of_eq_some place)
          simp only [if_pos inside, table_add]
      | none =>
          have outside := placeOf?_eq_none.mp place
          cases find? ⟨bindings⟩ name with
          | none => rfl
          | some meaning => simp only [if_neg outside, table_add, Except.map]

theorem table_perform (frame : Frame) (deed : Deed) :
    (frame.perform deed).table = frame.table.perform deed := by
  cases deed with
  | bind binding => exact table_add frame binding
  | read name =>
      rw [perform, Table.perform, ask_table]
      cases found : frame.find? name with
      | some meaning => rfl
      | none =>
          have absent : name ∉ frame.names := fun inside => by
            have some := find?_isSome inside
            rw [found] at some
            cases some
          simp only [observe, observeIn?_eq_none absent, Option.getD_none]

/-- The table of a frame goes through the deeds of the frame. -/
theorem table_performAll (frame : Frame) (deeds : List Deed) :
    (frame.performAll deeds).table = frame.table.performAll deeds := by
  induction deeds generalizing frame with
  | nil => rfl
  | cons deed deeds ih =>
      rw [performAll, List.foldl_cons, ← performAll, ih, table_perform]
      rfl

end Frame

end Runbook
