import Runbook.Program.Basic

/-!
What names mean at a place of a runbook.

Tables stand in levels, one for each enclosing block that can bind, the innermost first. A name
means what the innermost level that holds it says, and may be bound once in a level.
-/
namespace Runbook

/-- Tables of names: that of the innermost block, and those around it. -/
structure Levels (α : Type) where
  inner : List (Identifier × α)
  outer : List (List (Identifier × α))

namespace Levels

variable {α : Type}

def empty : Levels α := ⟨[], []⟩

/-- Opens a level inside the others. -/
def push (levels : Levels α) : Levels α := ⟨[], levels.inner :: levels.outer⟩

def bind (levels : Levels α) (name : Identifier) (meaning : α) : Levels α :=
  { levels with inner := (name, meaning) :: levels.inner }

/-- Does the innermost level hold the name? -/
def holds (levels : Levels α) (name : Identifier) : Bool := (levels.inner.lookup name).isSome

def get? (levels : Levels α) (name : Identifier) : Option α :=
  (levels.inner :: levels.outer).findSome? fun table => table.lookup name

@[simp] theorem get?_empty (name : Identifier) : (empty : Levels α).get? name = none := rfl

@[simp] theorem get?_push (levels : Levels α) (name : Identifier) :
    levels.push.get? name = levels.get? name := rfl

@[simp] theorem holds_push (levels : Levels α) (name : Identifier) :
    levels.push.holds name = false := rfl

theorem get?_bind (levels : Levels α) (name asked : Identifier) (meaning : α) :
    (levels.bind name meaning).get? asked =
      if asked = name then some meaning else levels.get? asked := by
  by_cases h : asked = name
  · subst h; simp [bind, get?]
  · have : (asked == name) = false := by simpa using h
    simp only [bind, get?, List.findSome?_cons, List.lookup_cons, this, if_neg h]

theorem holds_bind (levels : Levels α) (name asked : Identifier) (meaning : α) :
    (levels.bind name meaning).holds asked = (asked == name || levels.holds asked) := by
  by_cases h : asked = name
  · subst h; simp [bind, holds]
  · have : (asked == name) = false := by simpa using h
    simp only [bind, holds, List.lookup_cons, this, Bool.false_or]

end Levels

/-- What names mean, and the setting of the steps that are compiled here. -/
structure Scope where
  names : Levels Name
  procedures : Levels Callee
  setting : Setting

namespace Scope

def root : Scope := ⟨.empty, .empty, .inherit⟩

/-- The scope of a restriction's block. `@*` keeps the setting. -/
def restrict (scope : Scope) (setting : Setting) : Scope where
  names := scope.names.push
  procedures := scope.procedures.push
  setting := match setting with
    | .inherit => scope.setting
    | other => other

/-- The scope of a procedure's body: the procedures of this one, and no variable. -/
def body (scope : Scope) : Scope := ⟨.empty, scope.procedures.push, .inherit⟩

def bind (scope : Scope) (identifier : Identifier) (name : Name) : Scope :=
  { scope with names := scope.names.bind identifier name }

def declare (scope : Scope) (identifier : Identifier) (callee : Callee) : Scope :=
  { scope with procedures := scope.procedures.bind identifier callee }

end Scope

end Runbook
