import Runbook.Text.Utf8
import Runbook.Diagnostic.Basic
import Runbook.Program.Scope
import Runbook.Syntax.Grammar

/-!
From a document to its compiled routine.

The procedures of a block are declared before its statements are compiled, and their bodies after
them, so a procedure is visible in all of its block and sees all procedures of it. Names are
numbered in the order in which they are bound, procedures in the order in which they are declared.
The first misuse ends the compilation.
-/
namespace Runbook

/-- What a compilation is made against. -/
structure Lowering.Context where
  /-- The text that offsets count in. -/
  text : List Char
  primitives : List Identifier

/-- What a compilation has made so far. -/
structure Lowering.Progress where
  /-- How many variables were named. -/
  names : Nat
  /-- How many procedures were declared. -/
  callees : Nat
  library : Library

abbrev Lowering := StateT Lowering.Progress (Except Misuse)

namespace Lowering

def Progress.start : Progress := ⟨0, 0, []⟩

def refuse {α : Type} (offset : Nat) (reason : Reason) : Lowering α :=
  throw ⟨offset, reason⟩

/-- A variable that no other has the name of. -/
def fresh (identifier : Identifier) : Lowering Name := do
  let progress ← get
  set { progress with names := progress.names + 1 }
  pure ⟨progress.names, identifier⟩

/-- Where the name stands first in the text from `offset` on, or `offset` if it does not. -/
def Context.locate (context : Context) (offset : Nat) (name : Identifier) : Nat :=
  match (Text.dropBytes? offset context.text).bind (Text.find? name.toList) with
  | some distance => offset + distance
  | none => offset

/-- The place after a name that stands at `offset`. -/
def past (offset : Nat) (name : Identifier) : Nat := offset + Text.byteLength name.toList

/-- Declares the procedures of a block; gives the number of the first. -/
def declareAll (scope : Scope) (procedures : List Procedure) : Lowering (Callee × Scope) := do
  let progress ← get
  let rec go (scope : Scope) (callee : Callee) : List Procedure → Lowering (Callee × Scope)
    | [] => do
      set { progress with callees := callee }
      pure (progress.callees, scope)
    | procedure :: procedures =>
      if scope.procedures.holds procedure.name then
        refuse procedure.offset (.procedureDeclared procedure.name)
      else go (scope.declare procedure.name callee) (callee + 1) procedures
  go scope progress.callees procedures

/-- Binds the parameters of a procedure, whose header is searched for them from `cursor` on. -/
def bindParameters (context : Context) (scope : Scope) (cursor : Nat) :
    List Identifier → Lowering (List Name × Scope)
  | [] => pure ([], scope)
  | parameter :: parameters => do
    let place := context.locate cursor parameter
    if scope.names.holds parameter then refuse place (.variableInUse parameter)
    else
      let name ← fresh parameter
      let (names, scope) ←
        bindParameters context (scope.bind parameter name) (past place parameter) parameters
      pure (name :: names, scope)

/-- Refuses targets of an assignment that the scope's innermost level or the targets before them
hold. -/
def checkTargets (context : Context) (scope : Scope) (cursor : Nat) (before : List Identifier) :
    List Identifier → Lowering Unit
  | [] => pure ()
  | target :: targets =>
    let place := context.locate cursor target
    if scope.names.holds target ∨ target ∈ before then refuse place (.variableInUse target)
    else checkTargets context scope (past place target) (target :: before) targets

def bindTargets (scope : Scope) : List Identifier → Lowering (List Name × Scope)
  | [] => pure ([], scope)
  | target :: targets => do
    let name ← fresh target
    let (names, scope) ← bindTargets (scope.bind target name) targets
    pure (name :: names, scope)

/-- The reads of names, which the text is searched for from `cursor` on. -/
def lowerReads (context : Context) (scope : Scope) (cursor : Nat) :
    List Identifier → Lowering (List Step)
  | [] => pure []
  | identifier :: identifiers => do
    let place := context.locate cursor identifier
    match scope.names.get? identifier with
    | none => refuse place (.unknownVariable identifier)
    | some name =>
      let others ← lowerReads context scope (past place identifier) identifiers
      pure (.read name :: others)

/-- What an applied name stands for: a procedure before a primitive. -/
def target (context : Context) (scope : Scope) (offset : Nat) (name : Identifier) :
    Lowering (Step → Step) :=
  match scope.procedures.get? name with
  | some callee => pure (.call callee)
  | none =>
    if context.primitives.contains name then pure (.invoke name)
    else refuse offset (.unknownProcedure name)

/-- Compiles a block in its own scope: its procedures are declared, then its statements compiled,
then the bodies of its procedures, the first of which has the number that `bodies` is given. -/
def inScope (scope : Scope) (block : Block) (statements : Scope → Lowering (Sequence × Scope))
    (bodies : Scope → Callee → Lowering Unit) : Lowering Sequence := do
  let (first, scope) ← declareAll scope (declarations block)
  let (sequence, scope) ← statements scope
  bodies scope first
  pure sequence

def keep (callee : Callee) (routine : Routine) : Lowering Unit :=
  modify fun progress => { progress with library := Library.insert progress.library callee routine }

mutual

def lowerExpression (context : Context) (scope : Scope) : Expression → Lowering Sequence
  | .application offset name argument => do
    let apply ← target context scope offset name
    let argument ← lowerExpression context scope argument
    pure [⟨scope.setting, apply argument.toStep⟩]
  | .unit _ => pure [⟨scope.setting, .literal .unit⟩]
  | .text _ text => pure [⟨scope.setting, .literal (.text text)⟩]
  | .amount _ quantity => pure [⟨scope.setting, .literal (.quantity quantity)⟩]
  | .hole offset => refuse offset .hole
  | .tablet _ fields => do
    let fields ← lowerFields context scope fields
    pure [⟨scope.setting, .literal (.tablet fields)⟩]
  | .reference offset names => do
    let reads ← lowerReads context scope offset names
    pure [⟨scope.setting, .tuple reads⟩]
  | .operation _ operator left right => do
    let left ← lowerExpression context scope left
    let right ← lowerExpression context scope right
    pure [⟨scope.setting, .invoke operator.primitive (.tuple [left.toStep, right.toStep])⟩]
  | .grouping _ inner => lowerExpression context scope inner
  | .restriction _ setting block =>
    inScope (scope.restrict setting) block
      (fun scope => lowerStatements context scope block)
      (fun scope first => lowerBodies context scope first block)

def lowerFields (context : Context) (scope : Scope) :
    List (Label × Expression) → Lowering (List (Label × Step))
  | [] => pure []
  | (label, value) :: fields => do
    let value ← lowerExpression context scope value
    let others ← lowerFields context scope fields
    pure ((label, value.toStep) :: others)

/-- The steps of statements, and the scope after them. -/
def lowerStatements (context : Context) (scope : Scope) :
    List Statement → Lowering (Sequence × Scope)
  | [] => pure ([], scope)
  | .assignment offset targets value :: block => do
    checkTargets context scope offset [] targets
    let value ← lowerExpression context scope value
    let (names, after) ← bindTargets scope targets
    let (others, after) ← lowerStatements context after block
    pure (⟨scope.setting, .bind names value.toStep⟩ :: others, after)
  | .execute _ value :: block => do
    let entries ← lowerExpression context scope value
    let (others, after) ← lowerStatements context scope block
    pure (entries ++ others, after)
  | _ :: block => lowerStatements context scope block

/-- Compiles the bodies of the procedures that are declared in a block, the next of which has the
number `callee`. -/
def lowerBodies (context : Context) (scope : Scope) (callee : Callee) :
    List Statement → Lowering Unit
  | [] => pure ()
  | .declaration _ procedure :: block => do
    let routine ← lowerProcedure context scope procedure
    keep callee routine
    lowerBodies context scope (callee + 1) block
  | _ :: block => lowerBodies context scope callee block

/-- A procedure that is declared in `scope`, with no library. -/
def lowerProcedure (context : Context) (scope : Scope) : Procedure → Lowering Routine
  | ⟨offset, name, parameters, signature, block⟩ => do
    let (names, scope) ←
      bindParameters context scope.body (past offset name) parameters
    let sequence ← inScope scope block
      (fun scope => lowerStatements context scope block)
      (fun scope first => lowerBodies context scope first block)
    pure ⟨⟨offset, name, parameters, signature, block⟩, names, sequence, []⟩

end

/-- Compiles procedures of a file, the next of which has the number `callee`. -/
def lowerProcedures (context : Context) (scope : Scope) (callee : Callee) :
    List Procedure → Lowering Unit
  | [] => pure ()
  | procedure :: procedures => do
    let routine ← lowerProcedure context scope procedure
    keep callee routine
    lowerProcedures context scope (callee + 1) procedures

/-- A procedure on its own, with the library of those that it declares. -/
def procedure (context : Context) (procedure : Procedure) : Except Misuse Routine := do
  let (routine, progress) ← (lowerProcedure context .root procedure).run .start
  pure { routine with library := progress.library }

/-- The first procedure of a file, with the library of all that are declared in it. -/
def document (context : Context) (document : Document) : Except Misuse Routine := do
  let compiled : Lowering Unit := do
    let (first, scope) ← declareAll .root document.procedures
    lowerProcedures context scope first document.procedures
  let (_, progress) ← compiled.run .start
  match Library.get? progress.library 0 with
  | some routine => pure { routine with library := progress.library }
  | none => throw ⟨0, .invalidSetup⟩

end Lowering

/-- The procedure compiled as if it were alone in the file `source`. -/
def Procedure.compile (procedure : Procedure) (source : Source) (primitives : List Identifier) :
    Except Diagnostic Routine :=
  (Lowering.procedure ⟨source.contents.toList, primitives⟩ procedure).mapError (Misuse.of source)

/-- The document compiled as the text of the file `source`. -/
def Document.compile (document : Document) (source : Source) (primitives : List Identifier) :
    Except Diagnostic Routine :=
  (Lowering.document ⟨source.contents.toList, primitives⟩ document).mapError (Misuse.of source)

def Source.compile (source : Source) (primitives : List Identifier) : Except Diagnostic Routine :=
  match Document.read source.contents with
  | .ok document => document.compile source primitives
  | .error error => .error (error.diagnostic source)

end Runbook
