import Runbook.Text.Order
import Runbook.Text.Quoted
import Runbook.Evaluation.Event

/-!
Primitives, and the registry that a runbook finds them in by name.

A primitive answers its argument at once with what it says and when it will have which outcome.
The registry holds one primitive of a name, in the order of the names.
-/
namespace Runbook

/-- What a primitive answers. -/
structure Response where
  /-- What it says as it begins. -/
  said : Option (Channel × Value)
  /-- The milliseconds that it takes. -/
  delay : Nat
  outcome : Outcome

namespace Response

/-- An outcome at once, in silence. -/
def now (outcome : Outcome) : Response := ⟨none, 0, outcome⟩

/-- An outcome at once, after saying a value. -/
def saying (channel : Channel) (value : Value) (outcome : Outcome) : Response :=
  ⟨some (channel, value), 0, outcome⟩

/-- The milliseconds of thirty years of 365 days, which is the longest that a primitive takes. -/
def longest : Nat := 30 * 365 * 24 * 60 * 60 * 1000

/-- An outcome after some milliseconds, in silence. -/
def later (delay : Nat) (outcome : Outcome) : Response := ⟨none, min delay longest, outcome⟩

def events (response : Response) : List Event :=
  response.said.toList.map fun (channel, value) => .said channel value

end Response

/-- An operation of the host. -/
structure Primitive where
  name : Identifier
  /-- The operator whose operands it is performed on as tasks of their own. -/
  operator : Option Operator
  action : Value → Response

def Primitive.describe (primitive : Primitive) : String :=
  let operator := match primitive.operator with
    | none => "None"
    | some .waitEither => "Some(WaitEither)"
    | some .waitBoth => "Some(WaitBoth)"
    | some .combine => "Some(Combine)"
  "Builtin \x7b name: Identifier(" ++ Text.quoted primitive.name ++ "), combinator: " ++ operator
    ++ ", .. \x7d"

/-- The primitives at hand, in the order of their names. -/
structure Registry where
  primitives : List Primitive

namespace Registry

def lookup (registry : Registry) (name : Identifier) : Option Primitive :=
  registry.primitives.find? fun primitive => primitive.name == name

def contains (registry : Registry) (name : Identifier) : Bool := (registry.lookup name).isSome

def names (registry : Registry) : List Identifier := registry.primitives.map Primitive.name

/-- Puts a primitive in its place, instead of one of the same name. -/
def insertInto (primitive : Primitive) : List Primitive → List Primitive
  | [] => [primitive]
  | other :: primitives =>
    if primitive.name = other.name then primitive :: primitives
    else if Text.precedes primitive.name.toList other.name.toList then primitive :: other :: primitives
    else other :: insertInto primitive primitives

/-- Adds a primitive, instead of one of the same name. -/
def insert (registry : Registry) (primitive : Primitive) : Registry :=
  ⟨insertInto primitive registry.primitives⟩

/-- Adds an operation of the host, instead of a primitive of the same name. It performs no
operator. -/
def register (registry : Registry) (name : Identifier) (action : Value → Response) : Registry :=
  registry.insert ⟨name, none, action⟩

theorem lookup_insert (registry : Registry) (primitive : Primitive) (name : Identifier) :
    (registry.insert primitive).lookup name =
      if name = primitive.name then some primitive else registry.lookup name := by
  obtain ⟨primitives⟩ := registry
  simp only [insert, lookup]
  induction primitives with
  | nil => by_cases h : name = primitive.name <;> simp [insertInto, h, Ne.symm]
  | cons other primitives ih =>
    unfold insertInto
    split
    · next heq =>
      by_cases h : name = primitive.name
      · simp [h]
      · simp [h, ← heq, Ne.symm h]
    · next heq =>
      split
      · by_cases h : name = primitive.name
        · simp [h]
        · simp [h, Ne.symm h]
      · by_cases h : other.name = name
        · subst h; simp [Ne.symm heq]
        · simpa [h] using ih

/-- A name is contained if it is among the names. -/
theorem mem_names_iff (registry : Registry) (name : Identifier) :
    name ∈ registry.names ↔ registry.contains name = true := by
  simp [names, contains, lookup]

end Registry

end Runbook
