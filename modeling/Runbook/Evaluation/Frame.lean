import Runbook.Program.Basic
import Runbook.Value.Basic

/-!
The names of one invocation of a routine, and where their values come from.

A binding stands for a group of names. A name means its last place in the binding made last that
has it; `Frame.find?` gives both.
-/
namespace Runbook

/-- The number of a task: how many were started before it. -/
abbrev TaskId := Nat

/-- Names, and what they stand for. -/
inductive Binding where
  | parameter (name : Name) (value : Value)
  /-- Names of the values that a task gives; has any step asked for one of them? -/
  | started (names : List Name) (task : TaskId) (observed : Bool)
  deriving Repr

namespace Binding

def names : Binding → List Name
  | .parameter name _ => [name]
  | .started names _ _ => names

/-- The binding after a step has asked for it. -/
def observe : Binding → Binding
  | .started names task _ => .started names task true
  | .parameter name value => .parameter name value

/-- The task, if no step has asked for its value, and how many names it has. -/
def unobserved? : Binding → Option (TaskId × Nat)
  | .started names task false => some (task, names.length)
  | _ => none

end Binding

/-- The last place of a name in a group. -/
def placeOf? (name : Name) : (names : List Name) → Option (Fin names.length)
  | [] => none
  | other :: names =>
    match placeOf? name names with
    | some place => some place.succ
    | none => if other = name then some ⟨0, by simp⟩ else none

/-- The bindings of an invocation, in the order in which they were made. -/
structure Frame where
  bindings : List Binding
  deriving Repr

namespace Frame

/-- What a name means: a binding, and a place among its names. -/
structure Meaning where
  binding : Binding
  place : Fin binding.names.length

def empty : Frame := ⟨[]⟩

def add (frame : Frame) (binding : Binding) : Frame := ⟨frame.bindings ++ [binding]⟩

/-- Binds parameters to their values, one for each. -/
def ofParameters (parameters : List Name) (values : List Value) : Frame :=
  ⟨(parameters.zip values).map fun (name, value) => .parameter name value⟩

/-- What the name means among bindings of which the last was made last. -/
def findIn? (name : Name) : List Binding → Option Meaning
  | [] => none
  | binding :: bindings =>
    match findIn? name bindings with
    | some meaning => some meaning
    | none => (placeOf? name binding.names).map fun place => ⟨binding, place⟩

def find? (frame : Frame) (name : Name) : Option Meaning := findIn? name frame.bindings

/-- Marks the binding that the name means as asked for, among bindings of which the last was made
last; `none` if none has the name. -/
def observeIn? (name : Name) : List Binding → Option (List Binding)
  | [] => none
  | binding :: bindings =>
    match observeIn? name bindings with
    | some observed => some (binding :: observed)
    | none => if name ∈ binding.names then some (binding.observe :: bindings) else none

/-- Marks the binding that the name means as asked for. -/
def observe (frame : Frame) (name : Name) : Frame :=
  ⟨(observeIn? name frame.bindings).getD frame.bindings⟩

/-- The tasks whose values no step has asked for, in the order of their bindings, each with the
number of its names. -/
def unobserved (frame : Frame) : List (TaskId × Nat) :=
  frame.bindings.filterMap Binding.unobserved?

end Frame

end Runbook
