import Runbook.Proofs.Lowering.Renumbering
import Runbook.Proofs.Evaluation.SetUp

/-!
Other numbers for what a run has in hand.

A frame whose names have other numbers means by them what it meant before. The numbers may be any,
as long as different names keep different ones.
-/
namespace Runbook

section
variable (numbers : Renumbering)

/-- The binding with other numbers. -/
def Binding.renumber : Binding → Binding
  | .parameter name value => .parameter (numbers.name name) value
  | .started names task observed => .started (names.map numbers.name) task observed

/-- The frame with other numbers. -/
def Frame.renumber (frame : Frame) : Frame := ⟨frame.bindings.map (Binding.renumber numbers)⟩

/-- The continuation with other numbers. -/
def Continuation.renumber : Continuation → Continuation
  | .pick names place => .pick names place
  | .call callee => .call (numbers.callee callee)
  | .invoke primitive => .invoke primitive
  | .join primitive => .join primitive

/-- The defect with other numbers. -/
def Defect.renumber : Defect → Defect
  | .unknownPrimitive name => .unknownPrimitive name
  | .missingRoutine callee => .missingRoutine (numbers.callee callee)
  | .unboundName name => .unboundName (numbers.name name)
  | .met => .met

end

theorem Binding.names_renumber (numbers : Renumbering) (binding : Binding) :
    (binding.renumber numbers).names = binding.names.map numbers.name := by
  cases binding <;> rfl

theorem Binding.length_renumber (numbers : Renumbering) (binding : Binding) :
    (binding.renumber numbers).names.length = binding.names.length := by
  rw [names_renumber, List.length_map]

/-- The meaning with other numbers. -/
def Frame.Meaning.renumber (numbers : Renumbering) (meaning : Frame.Meaning) : Frame.Meaning :=
  ⟨meaning.binding.renumber numbers,
    meaning.place.cast (meaning.binding.length_renumber numbers).symm⟩

theorem Continuation.pick_cast {names others : Nat} (same : names = others) (place : Fin names) :
    Continuation.pick others (place.cast same) = .pick names place := by
  subst same
  rfl

section
variable {numbers : Renumbering} (injective : Function.Injective numbers.index)
include injective

theorem placeOf?_renumber (name : Name) (names : List Name) :
    placeOf? (numbers.name name) (names.map numbers.name) =
      (placeOf? name names).map (Fin.cast (List.length_map _).symm) := by
  induction names with
  | nil => rfl
  | cons other names ih =>
      change placeOf? (numbers.name name) (numbers.name other :: names.map numbers.name) = _
      rw [placeOf?, placeOf?, ih]
      cases placeOf? name names with
      | some place => rfl
      | none =>
          simp only [Option.map_none, (Renumbering.name_injective injective).eq_iff]
          split <;> rfl

theorem Binding.placeOf?_renumber (name : Name) (binding : Binding) :
    placeOf? (numbers.name name) (binding.renumber numbers).names =
      (placeOf? name binding.names).map (Fin.cast (binding.length_renumber numbers).symm) := by
  cases binding with
  | parameter other value => exact Runbook.placeOf?_renumber injective name [other]
  | started names task observed => exact Runbook.placeOf?_renumber injective name names

namespace Frame

theorem findIn?_renumber (name : Name) (bindings : List Binding) :
    findIn? (numbers.name name) (bindings.map (Binding.renumber numbers)) =
      (findIn? name bindings).map (Meaning.renumber numbers) := by
  induction bindings with
  | nil => rfl
  | cons binding bindings ih =>
      rw [List.map_cons, findIn?, findIn?, ih]
      cases findIn? name bindings with
      | some meaning => rfl
      | none =>
          rw [Option.map_none, binding.placeOf?_renumber injective]
          cases placeOf? name binding.names <;> rfl

theorem observeIn?_renumber (name : Name) (bindings : List Binding) :
    observeIn? (numbers.name name) (bindings.map (Binding.renumber numbers)) =
      (observeIn? name bindings).map (List.map (Binding.renumber numbers)) := by
  induction bindings with
  | nil => rfl
  | cons binding bindings ih =>
      have inside : numbers.name name ∈ (binding.renumber numbers).names ↔
          name ∈ binding.names := by
        rw [binding.names_renumber,
          List.mem_map_of_injective (Renumbering.name_injective injective)]
      rw [List.map_cons, observeIn?, observeIn?, ih]
      cases observeIn? name bindings with
      | some observed => rfl
      | none =>
          simp only [Option.map_none, inside]
          split
          · cases binding <;> rfl
          · rfl

theorem observe_renumber (frame : Frame) (name : Name) :
    (frame.renumber numbers).observe (numbers.name name) =
      (frame.observe name).renumber numbers := by
  rw [observe, observe, renumber, observeIn?_renumber injective]
  cases observeIn? name frame.bindings <;> rfl

end Frame

theorem Frame.find?_renumber (frame : Frame) (name : Name) :
    (frame.renumber numbers).find? (numbers.name name) =
      (frame.find? name).map (Meaning.renumber numbers) :=
  findIn?_renumber injective name frame.bindings

end

theorem Frame.ofParameters_renumber (numbers : Renumbering) (parameters : List Name)
    (values : List Value) :
    ofParameters (parameters.map numbers.name) values =
      (ofParameters parameters values).renumber numbers := by
  rw [ofParameters, ofParameters, renumber, List.map_map, List.zip_map_left, List.map_map]
  rfl

theorem Frame.unobserved_renumber (numbers : Renumbering) (frame : Frame) :
    (frame.renumber numbers).unobserved = frame.unobserved := by
  rw [unobserved, unobserved, renumber, List.filterMap_map]
  congr 1
  funext binding
  cases binding with
  | parameter name value => rfl
  | started names task observed =>
      cases observed with
      | true => rfl
      | false => exact congrArg (fun count => some (task, count)) (List.length_map _)

theorem Step.renumber_eq_pair {numbers : Renumbering} {step left right : Step}
    (same : step.renumber numbers = .tuple [left, right]) :
    ∃ first second, step = .tuple [first, second] := by
  cases step with
  | tuple steps =>
      rw [Step.renumber, Step.tuple.injEq, stepsRenumber_eq_map] at same
      obtain ⟨first, second, rfl⟩ := List.length_eq_two.mp
        ((List.length_map _).symm.trans (congrArg List.length same))
      exact ⟨first, second, rfl⟩
  | _ => cases same

/-! The same numbers. -/

/-- Each name and each procedure keeps its number. -/
def Renumbering.identity : Renumbering := ⟨id, id⟩

@[simp] theorem Renumbering.name_identity (name : Name) : identity.name name = name := rfl

theorem Renumbering.map_name_identity (names : List Name) : names.map identity.name = names :=
  List.map_id names

mutual

@[simp] theorem Step.renumber_identity : ∀ step : Step, step.renumber .identity = step
  | .literal literal => congrArg Step.literal literal.renumber_identity
  | .bind names step => by
      rw [Step.renumber, Renumbering.map_name_identity, step.renumber_identity]
  | .call callee argument => congrArg (Step.call callee) argument.renumber_identity
  | .invoke primitive argument => congrArg (Step.invoke primitive) argument.renumber_identity
  | .tuple steps => congrArg Step.tuple (stepsRenumber_identity steps)
  | .read _ => rfl

theorem Literal.renumber_identity : ∀ literal : Literal, literal.renumber .identity = literal
  | .unit | .text _ | .quantity _ => rfl
  | .tablet fields => congrArg Literal.tablet (stepFieldsRenumber_identity fields)

theorem stepsRenumber_identity : ∀ steps : List Step, stepsRenumber .identity steps = steps
  | [] => rfl
  | step :: steps => by
      rw [stepsRenumber, step.renumber_identity, stepsRenumber_identity steps]

theorem stepFieldsRenumber_identity :
    ∀ fields : List (Label × Step), stepFieldsRenumber .identity fields = fields
  | [] => rfl
  | (label, step) :: fields => by
      rw [stepFieldsRenumber, step.renumber_identity, stepFieldsRenumber_identity fields]

end

@[simp] theorem Frame.renumber_identity (frame : Frame) : frame.renumber .identity = frame := by
  have same : Binding.renumber .identity = id := by
    funext binding
    cases binding with
    | parameter name value => rfl
    | started names task observed =>
        rw [Binding.renumber, Renumbering.map_name_identity]
        rfl
  rw [renumber, same, List.map_id]

@[simp] theorem Continuation.renumber_identity (next : Continuation) :
    next.renumber .identity = next := by
  cases next <;> rfl

@[simp] theorem Defect.renumber_identity (defect : Defect) : defect.renumber .identity = defect := by
  cases defect <;> rfl

end Runbook
