import Runbook.Syntax.Basic

/-!
Compiled routines.

A routine's body is a sequence of steps, each with the setting it is performed in. Variables have
become names that no other variable of the compilation shares, and calls the numbers of routines in
the library of the routine that is run.
-/
namespace Runbook

/-- A variable of one compilation. -/
structure Name where
  /-- How many names were made before it. -/
  index : Nat
  /-- What it is called in the text. -/
  identifier : Identifier
  deriving DecidableEq, Repr

def Name.show (name : Name) : String := name.identifier ++ "#" ++ toString name.index

/-- The number of a declared procedure. -/
abbrev Callee := Nat

mutual

/-- What is known before a run. -/
inductive Literal where
  | unit
  | text (text : String)
  | quantity (quantity : Quantity)
  /-- A tablet, whose fields are performed when it is. -/
  | tablet (fields : List (Label × Step))

/-- What can be performed. -/
inductive Step where
  | literal (literal : Literal)
  /-- Perform a step as a task of its own, and give its value to names. -/
  | bind (names : List Name) (step : Step)
  /-- Perform a routine of the library on the argument's value. -/
  | call (callee : Callee) (argument : Step)
  /-- Perform a primitive on the argument's value. -/
  | invoke (primitive : Identifier) (argument : Step)
  /-- Perform steps together, and gather their values in order. -/
  | tuple (steps : List Step)
  | read (name : Name)

end

structure Entry where
  setting : Setting
  step : Step

/-- Steps in the order in which they are performed. -/
abbrev Sequence := List Entry

/-- One step that does as the sequence: its only step, or all of them together. -/
def Sequence.toStep : Sequence → Step
  | [entry] => entry.step
  | entries => .tuple (entries.map Entry.step)

structure Routine where
  procedure : Procedure
  /-- The names that its argument is given to. -/
  parameters : List Name
  sequence : Sequence
  /-- The procedures that it declares, itself or through others, by number. -/
  library : List (Callee × Routine)

/-- Compiled procedures in the order of their numbers. -/
abbrev Library := List (Callee × Routine)

namespace Library

def get? (library : Library) (callee : Callee) : Option Routine :=
  match library with
  | [] => none
  | (other, routine) :: library => if callee = other then some routine else get? library callee

/-- Puts a routine in its place, instead of one of the same number. -/
def insert (library : Library) (callee : Callee) (routine : Routine) : Library :=
  match library with
  | [] => [(callee, routine)]
  | (other, kept) :: library =>
    if callee = other then (callee, routine) :: library
    else if callee < other then (callee, routine) :: (other, kept) :: library
    else (other, kept) :: insert library callee routine

theorem get?_insert (library : Library) (callee asked : Callee) (routine : Routine) :
    (library.insert callee routine).get? asked =
      if asked = callee then some routine else library.get? asked := by
  induction library with
  | nil => simp [insert, get?]
  | cons entry library ih =>
    obtain ⟨other, kept⟩ := entry
    by_cases heq : callee = other
    · subst heq
      by_cases h : asked = callee <;> simp [insert, get?, h]
    · by_cases hlt : callee < other
      · by_cases h : asked = callee <;> simp [insert, get?, heq, hlt, h]
      · by_cases h : asked = other
        · subst h; simp [insert, get?, heq, hlt, Ne.symm heq]
        · simpa [insert, get?, heq, hlt, h] using ih

end Library

end Runbook
