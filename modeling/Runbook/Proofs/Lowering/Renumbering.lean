import Runbook.Proofs.Lowering.Makes
import Mathlib.Data.List.Perm.Basic

/-!
Other numbers for the same names and procedures.

Names and procedures are numbered in the order in which they come up. Nothing that is compiled hangs
on the numbers as such: a renumbering gives others to them throughout.
-/
namespace Runbook

/-- Other numbers for names, and for procedures. -/
structure Renumbering where
  index : Nat → Nat
  callee : Callee → Callee

/-- The name under its other number. -/
def Renumbering.name (numbers : Renumbering) (name : Name) : Name :=
  ⟨numbers.index name.index, name.identifier⟩

theorem Renumbering.name_injective {numbers : Renumbering}
    (injective : Function.Injective numbers.index) : Function.Injective numbers.name := by
  intro first second same
  obtain ⟨index, identifier⟩ := first
  obtain ⟨other, another⟩ := second
  rw [name, name, Name.mk.injEq] at same
  rw [Name.mk.injEq]
  exact ⟨injective same.1, same.2⟩

theorem Renumbering.name_identifiers (numbers : Renumbering) (names : List Name) :
    (names.map numbers.name).map Name.identifier = names.map Name.identifier := by
  rw [List.map_map]
  rfl

theorem Name.number_length (first : Nat) (identifiers : List Identifier) :
    (number first identifiers).length = identifiers.length := by
  rw [← List.length_map Name.identifier, number_identifiers]

/-- The names are numbered as if they were given now. -/
theorem Name.number_unique {first : Nat} {names : List Name}
    (numbered : names.map Name.index = List.range' first names.length) :
    number first (names.map Name.identifier) = names := by
  induction names generalizing first with
  | nil => rfl
  | cons name names ih =>
      rw [List.map_cons, List.length_cons, List.range'_succ, List.cons.injEq] at numbered
      rw [List.map_cons, number, ih numbered.2, ← numbered.1]

/-- Any numbers up to a count can be put in order by giving others to them. -/
theorem exists_inOrder {given : List Nat} {count : Nat} (perm : given.Perm (List.range count)) :
    ∃ number : Nat → Nat, Function.Injective number ∧ given.map number = List.range count := by
  have distinct : given.Nodup := perm.nodup_iff.mpr List.nodup_range
  have inside (i : Nat) : i ∈ given ↔ i < count := by
    rw [perm.mem_iff, List.mem_range]
  have length : given.length = count := by
    rw [perm.length_eq, List.length_range]
  refine ⟨fun i => if i < count then given.idxOf i else i, ?_, ?_⟩
  · intro i j same
    simp only at same
    split_ifs at same with first second second
    · exact (List.idxOf_inj ((inside i).mpr first)).mp same
    · have := List.idxOf_lt_length_of_mem ((inside i).mpr first)
      omega
    · have := List.idxOf_lt_length_of_mem ((inside j).mpr second)
      omega
    · exact same
  · apply List.ext_getElem
    · rw [List.length_map, length, List.length_range]
    · intro place here there
      rw [List.length_map] at here
      rw [List.getElem_map, List.getElem_range, if_pos ((inside _).mp (List.getElem_mem here))]
      exact distinct.idxOf_getElem place here

mutual

/-- The step with other numbers. -/
def Step.renumber (numbers : Renumbering) : Step → Step
  | .literal literal => .literal (literal.renumber numbers)
  | .bind names step => .bind (names.map numbers.name) (step.renumber numbers)
  | .call callee argument => .call (numbers.callee callee) (argument.renumber numbers)
  | .invoke primitive argument => .invoke primitive (argument.renumber numbers)
  | .tuple steps => .tuple (stepsRenumber numbers steps)
  | .read name => .read (numbers.name name)

def Literal.renumber (numbers : Renumbering) : Literal → Literal
  | .unit => .unit
  | .text text => .text text
  | .quantity quantity => .quantity quantity
  | .tablet fields => .tablet (stepFieldsRenumber numbers fields)

def stepsRenumber (numbers : Renumbering) : List Step → List Step
  | [] => []
  | step :: steps => step.renumber numbers :: stepsRenumber numbers steps

def stepFieldsRenumber (numbers : Renumbering) : List (Label × Step) → List (Label × Step)
  | [] => []
  | (label, step) :: fields => (label, step.renumber numbers) :: stepFieldsRenumber numbers fields

end

/-- The entry with other numbers. -/
def Entry.renumber (numbers : Renumbering) (entry : Entry) : Entry :=
  ⟨entry.setting, entry.step.renumber numbers⟩

/-- What performing a routine reads of it, beside its library. -/
structure Script where
  name : Identifier
  parameters : List Name
  sequence : Sequence

def Routine.script (routine : Routine) : Script :=
  ⟨routine.procedure.name, routine.parameters, routine.sequence⟩

/-- The script with other numbers. -/
def Script.renumber (numbers : Renumbering) (script : Script) : Script :=
  ⟨script.name, script.parameters.map numbers.name, script.sequence.map (Entry.renumber numbers)⟩

section
variable (numbers : Renumbering)

theorem stepsRenumber_eq_map (steps : List Step) :
    stepsRenumber numbers steps = steps.map (Step.renumber numbers) := by
  induction steps with
  | nil => rfl
  | cons step steps ih => simp only [stepsRenumber, ih, List.map_cons]

@[simp] theorem stepFieldsRenumber_labels (fields : List (Label × Step)) :
    (stepFieldsRenumber numbers fields).map Prod.fst = fields.map Prod.fst := by
  induction fields with
  | nil => rfl
  | cons field fields ih => simp only [stepFieldsRenumber, List.map_cons, ih]

theorem Sequence.toStep_renumber (sequence : Sequence) :
    Sequence.toStep (sequence.map (Entry.renumber numbers)) = sequence.toStep.renumber numbers := by
  have tuple (entries : List Entry) :
      stepsRenumber numbers (entries.map Entry.step) =
        (entries.map (Entry.renumber numbers)).map Entry.step := by
    simp only [stepsRenumber_eq_map, List.map_map]
    rfl
  match sequence with
  | [] => rfl
  | [entry] => rfl
  | first :: second :: entries =>
      exact congrArg Step.tuple (tuple (first :: second :: entries)).symm

theorem reads_renumber (names : List Name) :
    stepsRenumber numbers (names.map Step.read) = (names.map numbers.name).map Step.read := by
  simp only [stepsRenumber_eq_map, List.map_map]
  rfl

end

/-- What the first scope gives a name, the other gives under the other number. -/
structure Scope.Renumbers (numbers : Renumbering) (scope other : Scope) : Prop where
  names : ∀ identifier,
    other.names.get? identifier = (scope.names.get? identifier).map numbers.name
  holds : ∀ identifier, other.names.holds identifier = scope.names.holds identifier
  procedures : ∀ name,
    other.procedures.get? name = (scope.procedures.get? name).map numbers.callee
  setting : other.setting = scope.setting

/-- The scope `inner` is the scope with procedures declared under their numbers. -/
structure Scope.Opens (scope : Scope) (declared : List (Identifier × Callee)) (inner : Scope) :
    Prop where
  names : inner.names = scope.names
  setting : inner.setting = scope.setting
  opened : ∀ entry ∈ declared, inner.procedures.get? entry.1 = some entry.2
  others : ∀ name ∉ declared.map Prod.fst,
    inner.procedures.get? name = scope.procedures.get? name

/-- Procedures' names with their numbers, from `first` on. -/
def Scope.numbered (first : Callee) : List Procedure → List (Identifier × Callee)
  | [] => []
  | procedure :: procedures => (procedure.name, first) :: numbered (first + 1) procedures

namespace Scope

theorem numbered_names (first : Callee) (procedures : List Procedure) :
    (numbered first procedures).map Prod.fst = procedures.map Procedure.name := by
  induction procedures generalizing first with
  | nil => rfl
  | cons procedure procedures ih => simp only [numbered, List.map_cons, ih]

theorem numbered_callees (first : Callee) (procedures : List Procedure) :
    (numbered first procedures).map Prod.snd = List.range' first procedures.length := by
  induction procedures generalizing first with
  | nil => rfl
  | cons procedure procedures ih =>
      simp only [numbered, List.map_cons, ih, List.length_cons, List.range'_succ]

theorem numbered_length (first : Callee) (procedures : List Procedure) :
    (numbered first procedures).length = procedures.length := by
  rw [← List.length_map Prod.fst, numbered_names, List.length_map]

/-- The names and the numbers make the list. -/
theorem numbered_unique {first : Callee} {procedures : List Procedure}
    {declared : List (Identifier × Callee)}
    (names : declared.map Prod.fst = procedures.map Procedure.name)
    (callees : declared.map Prod.snd = List.range' first declared.length) :
    declared = numbered first procedures := by
  induction declared generalizing first procedures with
  | nil =>
      cases procedures with
      | nil => rfl
      | cons procedure procedures => cases names
  | cons entry declared ih =>
      cases procedures with
      | nil => cases names
      | cons procedure procedures =>
          rw [List.map_cons, List.map_cons, List.cons.injEq] at names
          rw [List.map_cons, List.length_cons, List.range'_succ, List.cons.injEq] at callees
          rw [numbered, ← ih names.2 callees.2, ← names.1, ← callees.1]

theorem get?_declareAll_absent (scope : Scope) (first : Callee) {procedures : List Procedure}
    {name : Identifier} (absent : name ∉ procedures.map Procedure.name) :
    (scope.declareAll first procedures).procedures.get? name = scope.procedures.get? name := by
  induction procedures generalizing scope first with
  | nil => rfl
  | cons procedure procedures ih =>
      rw [List.map_cons, List.mem_cons, not_or] at absent
      rw [declareAll, ih _ _ absent.2, declare, Levels.get?_bind, if_neg absent.1]

theorem get?_declareAll_numbered (scope : Scope) (first : Callee) {procedures : List Procedure}
    (distinct : (procedures.map Procedure.name).Nodup) :
    ∀ entry ∈ numbered first procedures,
      (scope.declareAll first procedures).procedures.get? entry.1 = some entry.2 := by
  induction procedures generalizing scope first with
  | nil => exact List.forall_mem_nil _
  | cons procedure procedures ih =>
      rw [List.map_cons, List.nodup_cons] at distinct
      rw [numbered, declareAll, List.forall_mem_cons]
      refine ⟨?_, ih _ _ distinct.2⟩
      rw [get?_declareAll_absent _ _ distinct.1, declare, Levels.get?_bind, if_pos rfl]

theorem Opens.declareAll (scope : Scope) (first : Callee) {procedures : List Procedure}
    (distinct : (procedures.map Procedure.name).Nodup) :
    scope.Opens (numbered first procedures) (scope.declareAll first procedures) where
  names := declareAll_names _ _ _
  setting := declareAll_setting _ _ _
  opened := get?_declareAll_numbered scope first distinct
  others name absent := by
    rw [numbered_names] at absent
    exact get?_declareAll_absent scope first absent

/-- The order in which the procedures are declared does not matter. -/
theorem Opens.perm {scope inner : Scope} {declared others : List (Identifier × Callee)}
    (opens : scope.Opens declared inner) (perm : others.Perm declared) :
    scope.Opens others inner where
  names := opens.names
  setting := opens.setting
  opened entry member := opens.opened entry (perm.mem_iff.mp member)
  others name absent := opens.others name fun member =>
    absent ((perm.map Prod.fst).mem_iff.mpr member)

namespace Renumbers

variable {numbers : Renumbering} {scope other : Scope}

theorem root (numbers : Renumbering) : Renumbers numbers .root .root :=
  ⟨fun _ => rfl, fun _ => rfl, fun _ => rfl, rfl⟩

theorem restrict (renumbers : scope.Renumbers numbers other) (setting : Setting) :
    (scope.restrict setting).Renumbers numbers (other.restrict setting) where
  names := renumbers.names
  holds _ := rfl
  procedures := renumbers.procedures
  setting := by
    cases setting with
    | inherit => exact renumbers.setting
    | role name => rfl
    | place name => rfl

theorem bind (renumbers : scope.Renumbers numbers other) (name : Name) :
    (scope.bind name.identifier name).Renumbers numbers
      (other.bind name.identifier (numbers.name name)) where
  names identifier := by
    simp only [Scope.bind, Levels.get?_bind, renumbers.names]
    split <;> rfl
  holds identifier := by
    simp only [Scope.bind, Levels.holds_bind, renumbers.holds]
  procedures := renumbers.procedures
  setting := renumbers.setting

theorem bindAll (renumbers : scope.Renumbers numbers other) (names : List Name) :
    (scope.bindAll names).Renumbers numbers (other.bindAll (names.map numbers.name)) := by
  induction names generalizing scope other with
  | nil => exact renumbers
  | cons name names ih => exact ih (renumbers.bind name)

/-- Scopes in which the same procedures are declared, under other numbers in the second. -/
theorem opens {inner within : Scope} {declared : List (Identifier × Callee)}
    (renumbers : scope.Renumbers numbers other) (opens : scope.Opens declared inner)
    (others : other.Opens (declared.map (Prod.map id numbers.callee)) within) :
    inner.Renumbers numbers within where
  names identifier := by rw [opens.names, others.names, renumbers.names]
  holds identifier := by rw [opens.names, others.names, renumbers.holds]
  procedures name := by
    by_cases member : name ∈ declared.map Prod.fst
    · obtain ⟨entry, inside, rfl⟩ := List.mem_map.mp member
      rw [opens.opened entry inside]
      exact others.opened (Prod.map id numbers.callee entry) (List.mem_map_of_mem inside)
    · have absent : name ∉ (declared.map (Prod.map id numbers.callee)).map Prod.fst := by
        rw [List.map_map]
        exact member
      rw [opens.others name member, others.others name absent, renumbers.procedures]
  setting := by rw [opens.setting, others.setting, renumbers.setting]

end Renumbers

end Scope

/-- The second library has the scripts of the first with other numbers. -/
def Library.Renumbers (numbers : Renumbering) (library other : Library) : Prop :=
  ∀ callee, (other.get? (numbers.callee callee)).map Routine.script =
    (library.get? callee).map fun routine => routine.script.renumber numbers

/-- The second routine is the first with other numbers; different names have different ones. -/
structure Routine.Renumbers (numbers : Renumbering) (routine other : Routine) : Prop where
  injective : Function.Injective numbers.index
  script : other.script = routine.script.renumber numbers
  library : Library.Renumbers numbers routine.library other.library

end Runbook
