import Runbook.Registry.Basic
import Runbook.Evaluation.Frame

/-!
What a task has still to do.

A work is a state; `setUp` makes that of a step. Setting a step up sets up all that is nested in it
at once: the bindings and the operands of operators in it become tasks of their own, and the names
that it reads are marked as asked for, before any of it goes on.
-/
namespace Runbook

/-- Why a run breaks down: what it runs is not whole. A defect is met once: the work that waits
for a task breaks down for the task's defect, and one that waits for it later for `met`. -/
inductive Defect where
  | unknownPrimitive (name : Identifier)
  | missingRoutine (callee : Callee)
  | unboundName (name : Name)
  /-- Another work has met the defect of the task that this one waits for. -/
  | met
  deriving DecidableEq, Repr

def Defect.message : Defect → String
  | .unknownPrimitive name => "builtin " ++ name ++ " is not registered"
  | .missingRoutine callee => "no compiled procedure for Callee(" ++ toString callee ++ ")"
  | .unboundName name => name.show ++ " was never bound in this frame"
  | .met => "inner future panicked during poll"

/-- What several values make. -/
inductive Shape where
  /-- The value of steps performed together. -/
  | results
  /-- The group of an operator's operands. -/
  | operands
  | tablet (labels : List Label)
  deriving DecidableEq, Repr

def Shape.collect : Shape → List Value → Value
  | .results, values => .ofResults values
  | .operands, values => .parallel values
  | .tablet labels, values => .tablet (labels.zip values)

/-- What is done with the value of a work. -/
inductive Continuation where
  /-- Take the value of one of its names. -/
  | pick (names : Nat) (place : Fin names)
  | call (callee : Callee)
  /-- Perform a primitive on it as its argument. -/
  | invoke (primitive : Primitive)
  /-- Perform the primitive of an operator on it as the operands. -/
  | join (primitive : Primitive)

/-- What a task has still to do. -/
inductive Work where
  | done (outcome : Outcome)
  | broken (defect : Defect)
  | fresh (work : Work)
  /-- Wait for a task, and have its outcome. -/
  | wait (task : TaskId)
  /-- Wait for the first of two tasks; its value is the only operand. -/
  | race (left right : TaskId)
  | sleep (wake : Nat) (outcome : Outcome)
  /-- Have a value, and go on with it. -/
  | after (source : Work) (next : Continuation)
  /-- Have all values, and make one of them. -/
  | gather (shape : Shape) (members : List Work)
  /-- Perform the current entry of a routine's sequence, then the others, from that number on. -/
  | body (frame : Frame) (current : Work) (index : Nat) (entries : List Entry)
  /-- Wait for bindings that no step has asked for, then have the result. -/
  | settle (bindings : List (TaskId × Nat)) (result : Value)

namespace SetUp

structure State where
  frame : Frame
  next : TaskId
  /-- The tasks that are started, in order. -/
  started : List Work
  events : List Event

end SetUp

/-- The setting up of a step. What it has done when it breaks down stays done. -/
abbrev SetUp := ExceptT Defect (StateM SetUp.State)

namespace SetUp

def report (event : Event) : SetUp Unit :=
  modify fun state => { state with events := state.events ++ [event] }

/-- Starts a task, which has still to begin. -/
def start (work : Work) : SetUp TaskId := do
  let state ← get
  set { state with next := state.next + 1, started := state.started ++ [Work.fresh work] }
  pure state.next

/-- Starts the task of a binding. -/
def bind (names : List Name) (observed : Bool) (work : Work) : SetUp TaskId := do
  let task ← start work
  modify fun state => { state with frame := state.frame.add (.started names task observed) }
  pure task

/-- Asks for the value of a name. -/
def read (name : Name) : SetUp Work := do
  let state ← get
  match state.frame.find? name with
  | none => throw (.unboundName name)
  | some ⟨.parameter _ value, _⟩ => pure (.done (.ok value))
  | some ⟨.started names task _, place⟩ =>
    set { state with frame := state.frame.observe name }
    pure (.after (.wait task) (.pick names.length place))

end SetUp

/-- What waits for the operands of an operator. -/
def Operator.await : Operator → TaskId → TaskId → Work
  | .waitEither, left, right => .race left right
  | _, left, right => .gather .operands [.wait left, .wait right]

mutual

/-- The work of a step. -/
def setUp (registry : Registry) (setting : Setting) : Step → SetUp Work
  | .literal literal => setUpLiteral registry setting literal
  | .bind names step => do
    SetUp.report (.binding names setting)
    let work ← setUp registry setting step
    let task ← SetUp.bind names true work
    pure (.wait task)
  | .call callee argument => do
    let argument ← setUp registry setting argument
    pure (.after argument (.call callee))
  | .invoke name argument => do
    match registry.lookup name with
    | none => throw (.unknownPrimitive name)
    | some primitive =>
      match primitive.operator, argument with
      | some operator, .tuple [left, right] =>
        let left ← SetUp.start (← setUp registry setting left)
        let right ← SetUp.start (← setUp registry setting right)
        pure (.after (operator.await left right) (.join primitive))
      | _, argument =>
        let argument ← setUp registry setting argument
        pure (.after argument (.invoke primitive))
  | .tuple steps => do
    let members ← setUpAll registry setting steps
    pure (.gather .results members)
  | .read name => SetUp.read name

def setUpLiteral (registry : Registry) (setting : Setting) : Literal → SetUp Work
  | .unit => pure (.done (.ok .unit))
  | .text text => pure (.done (.ok (.text text)))
  | .quantity quantity => pure (.done (.ok (.quantity quantity)))
  | .tablet fields => do
    let members ← setUpFields registry setting fields
    pure (.gather (.tablet (fields.map Prod.fst)) members)

/-- The works of steps that are performed together. -/
def setUpAll (registry : Registry) (setting : Setting) : List Step → SetUp (List Work)
  | [] => pure []
  | step :: steps => do
    let member ← setUp registry setting step
    let members ← setUpAll registry setting steps
    pure (member :: members)

def setUpFields (registry : Registry) (setting : Setting) :
    List (Label × Step) → SetUp (List Work)
  | [] => pure []
  | (_, step) :: fields => do
    let member ← setUp registry setting step
    let members ← setUpFields registry setting fields
    pure (member :: members)

end

/-- The work of the entry of that number. A binding is waited for only if it is the last entry; any
other goes on by itself, and is settled at the end unless a step asks for it. -/
def setUpEntry (registry : Registry) (index : Nat) (isLast : Bool) (entry : Entry) :
    SetUp Work := do
  SetUp.report (.starting index entry.setting)
  match entry.step with
  | .bind names step =>
    SetUp.report (.binding names entry.setting)
    let work ← setUp registry entry.setting step
    let task ← SetUp.bind names isLast work
    if isLast then pure (.wait task) else pure (.done (.ok .unit))
  | step => setUp registry entry.setting step

end Runbook
