import Runbook.Proofs.Lowering.Makes

/-!
What layout has no influence on.

Offsets, comments, blank lines, separators, groupings, and the places of declarations among the
statements of a block are layout: `gist` is a tree without it. Compiling keeps step with compiling
the gist, in any text: either both make the same names, callees and steps, or both refuse for
the same reason. Only the stored procedures and the place of a misuse can differ.
-/
namespace Runbook

mutual

/-- The expression without its layout. -/
def Expression.gist : Expression → Expression
  | .application _ name argument => .application 0 name argument.gist
  | .unit _ => .unit 0
  | .text _ text => .text 0 text
  | .amount _ quantity => .amount 0 quantity
  | .hole _ => .hole 0
  | .tablet _ fields => .tablet 0 (fieldsGist fields)
  | .reference _ names => .reference 0 names
  | .operation _ operator left right => .operation 0 operator left.gist right.gist
  | .grouping _ inner => inner.gist
  | .restriction _ setting block =>
    .restriction 0 setting (declarationsGist block ++ statementsGist block)

def fieldsGist : List (Label × Expression) → List (Label × Expression)
  | [] => []
  | (label, value) :: fields => (label, value.gist) :: fieldsGist fields

/-- The declarations of a block, without layout. -/
def declarationsGist : List Statement → List Statement
  | [] => []
  | .declaration _ procedure :: block => .declaration 0 procedure.gist :: declarationsGist block
  | _ :: block => declarationsGist block

/-- What a block performs, without layout. -/
def statementsGist : List Statement → List Statement
  | [] => []
  | .assignment _ targets value :: block => .assignment 0 targets value.gist :: statementsGist block
  | .execute _ value :: block => .execute 0 value.gist :: statementsGist block
  | _ :: block => statementsGist block

def Procedure.gist : Procedure → Procedure
  | ⟨_, name, parameters, signature, block⟩ =>
    ⟨0, name, parameters, signature, declarationsGist block ++ statementsGist block⟩

end

def Document.gist (document : Document) : Document := ⟨document.procedures.map Procedure.gist⟩

@[simp] theorem Procedure.gist_name (procedure : Procedure) :
    procedure.gist.name = procedure.name := by
  cases procedure
  rfl

theorem declarations_gist (block rest : List Statement) :
    declarations (declarationsGist block ++ rest) =
      (declarations block).map Procedure.gist ++ declarations rest := by
  induction block with
  | nil => rfl
  | cons statement block ih =>
      cases statement with
      | declaration offset procedure => exact congrArg (procedure.gist :: ·) ih
      | _ => exact ih

theorem declarations_statementsGist (block : List Statement) :
    declarations (statementsGist block) = [] := by
  induction block with
  | nil => rfl
  | cons statement block ih => cases statement <;> exact ih

/-- The procedures that a block declares, without layout. -/
theorem declarations_gistBlock (block : List Statement) :
    declarations (declarationsGist block ++ statementsGist block) =
      (declarations block).map Procedure.gist := by
  rw [declarations_gist, declarations_statementsGist, List.append_nil]

mutual

/-- The routine without the procedures that it and those of its library were compiled from. -/
def Routine.unsourced : Routine → Routine
  | ⟨_, parameters, sequence, library⟩ =>
    ⟨⟨0, "", [], none, []⟩, parameters, sequence, libraryUnsourced library⟩

def libraryUnsourced : List (Callee × Routine) → List (Callee × Routine)
  | [] => []
  | (callee, routine) :: library => (callee, routine.unsourced) :: libraryUnsourced library

end

theorem Routine.unsourced_inj {routine other : Routine}
    (same : routine.unsourced = other.unsourced) :
    routine.parameters = other.parameters ∧ routine.sequence = other.sequence := by
  obtain ⟨_, parameters, sequence, library⟩ := routine
  obtain ⟨_, others, steps, members⟩ := other
  rw [unsourced, unsourced, Routine.mk.injEq] at same
  exact ⟨same.2.1, same.2.2.1⟩

namespace Library

theorem unsourced_insert (library : Library) (callee : Callee) (routine : Routine) :
    libraryUnsourced (library.insert callee routine) =
      insert (libraryUnsourced library) callee routine.unsourced := by
  induction library with
  | nil => rfl
  | cons entry library ih =>
      obtain ⟨other, kept⟩ := entry
      rw [insert, libraryUnsourced, insert]
      split_ifs with same before
      · rw [libraryUnsourced]
      · rw [libraryUnsourced, libraryUnsourced]
      · rw [libraryUnsourced, ih]

theorem unsourced_get? (library : Library) (callee : Callee) :
    get? (libraryUnsourced library) callee = (library.get? callee).map Routine.unsourced := by
  induction library with
  | nil => rfl
  | cons entry library ih =>
      obtain ⟨other, kept⟩ := entry
      rw [get?, libraryUnsourced, get?]
      split
      · rfl
      · exact ih

end Library

namespace Lowering

/-- The same has been made but for the stored procedures. -/
structure Progress.Tallies (progress other : Progress) : Prop where
  names : progress.names = other.names
  callees : progress.callees = other.callees
  library : libraryUnsourced progress.library = libraryUnsourced other.library

/-- Both runs succeed with related results and the same made, or both refuse for one reason. -/
inductive Ends {α β : Type} (related : α → β → Prop) :
    Except Misuse (α × Progress) → Except Misuse (β × Progress) → Prop
  | makes {a : α} {b : β} {after later : Progress} : related a b → after.Tallies later →
      Ends related (.ok (a, after)) (.ok (b, later))
  | refuses {misuse other : Misuse} : misuse.reason = other.reason →
      Ends related (.error misuse) (.error other)

/-- From where the same has been made, the parts end alike. -/
def Tallies {α β : Type} (related : α → β → Prop) (part : Lowering α) (other : Lowering β) :
    Prop :=
  ∀ before earlier : Progress, before.Tallies earlier →
    Ends related (part.run before) (other.run earlier)

namespace Tallies

variable {α β γ δ : Type} {related : α → β → Prop} {later : γ → δ → Prop}

theorem pure {a : α} {b : β} (holds : related a b) :
    Tallies related (Pure.pure a) (Pure.pure b) := fun _ _ same => .makes holds same

theorem refuse {offset other : Nat} (reason : Reason) :
    Tallies related (refuse offset reason) (Lowering.refuse other reason) :=
  fun _ _ _ => .refuses rfl

theorem bind {part : Lowering α} {other : Lowering β} {next : α → Lowering γ}
    {rest : β → Lowering δ} (first : Tallies related part other)
    (follow : ∀ a b, related a b → Tallies later (next a) (rest b)) :
    Tallies later (part >>= next) (other >>= rest) := by
  intro before earlier same
  have ends := first before earlier same
  rw [StateT.run_bind, StateT.run_bind]
  generalize part.run before = made, other.run earlier = result at ends
  cases ends with
  | makes holds tallies => exact follow _ _ holds _ _ tallies
  | refuses reason => exact .refuses reason

/-- After the same result, the parts end alike if what follows does. -/
theorem andThen {part other : Lowering α} {next : α → Lowering γ} {rest : α → Lowering δ}
    (first : Tallies Eq part other) (follow : ∀ a, Tallies later (next a) (rest a)) :
    Tallies later (part >>= next) (other >>= rest) := by
  refine first.bind fun a b same => ?_
  rw [← same]
  exact follow a

theorem get : Tallies Progress.Tallies (MonadState.get : Lowering Progress) MonadState.get :=
  fun _ _ same => .makes same same

theorem set {progress other : Progress} (same : progress.Tallies other) :
    Tallies Eq (MonadStateOf.set progress : Lowering PUnit) (MonadStateOf.set other) :=
  fun _ _ _ => .makes rfl same

end Tallies

theorem fresh_tallies (identifier : Identifier) :
    Tallies Eq (fresh identifier) (fresh identifier) := by
  refine Tallies.get.bind fun before earlier same => ?_
  have more : Progress.Tallies { before with names := before.names + 1 }
      { earlier with names := earlier.names + 1 } :=
    ⟨congrArg (· + 1) same.names, same.callees, same.library⟩
  exact (Tallies.set more).andThen fun _ => .pure (congrArg (Name.mk · identifier) same.names)

theorem keep_tallies (callee : Callee) {routine other : Routine}
    (same : routine.unsourced = other.unsourced) :
    Tallies Eq (keep callee routine) (keep callee other) := by
  intro before earlier tallies
  refine .makes rfl ⟨tallies.names, tallies.callees, ?_⟩
  simp only [Library.unsourced_insert, same, tallies.library]

theorem declareAll_go_tallies {progress other : Progress} (tallies : progress.Tallies other)
    (scope : Scope) (next : Callee) (procedures : List Procedure) :
    Tallies Eq (declareAll.go progress scope next procedures)
      (declareAll.go other scope next (procedures.map Procedure.gist)) := by
  induction procedures generalizing scope next with
  | nil =>
      have declared : Progress.Tallies { progress with callees := next }
          { other with callees := next } := ⟨tallies.names, rfl, tallies.library⟩
      exact (Tallies.set declared).andThen fun _ => .pure (congrArg (·, scope) tallies.callees)
  | cons procedure procedures ih =>
      rw [List.map_cons, declareAll.go, declareAll.go, Procedure.gist_name]
      split
      · exact .refuse _
      · exact ih _ _

theorem declareAll_tallies (scope : Scope) (procedures : List Procedure) :
    Tallies Eq (declareAll scope procedures)
      (declareAll scope (procedures.map Procedure.gist)) := by
  refine Tallies.get.bind fun before earlier tallies => ?_
  rw [← tallies.callees]
  exact declareAll_go_tallies tallies scope before.callees procedures

variable {context other : Context}

theorem bindParameters_tallies (scope : Scope) (cursor place : Nat)
    (parameters : List Identifier) :
    Tallies Eq (bindParameters context scope cursor parameters)
      (bindParameters other scope place parameters) := by
  induction parameters generalizing scope cursor place with
  | nil => exact .pure rfl
  | cons parameter parameters ih =>
      rw [bindParameters, bindParameters]
      split
      · exact .refuse _
      · refine (fresh_tallies parameter).andThen fun name => ?_
        refine (ih _ _ _).andThen fun bound => ?_
        exact .pure rfl

theorem checkTargets_tallies (scope : Scope) (cursor place : Nat)
    (before targets : List Identifier) :
    Tallies Eq (checkTargets context scope cursor before targets)
      (checkTargets other scope place before targets) := by
  induction targets generalizing cursor place before with
  | nil => exact .pure rfl
  | cons target targets ih =>
      rw [checkTargets, checkTargets]
      split
      · exact .refuse _
      · exact ih _ _ _

theorem bindTargets_tallies (scope : Scope) (targets : List Identifier) :
    Tallies Eq (bindTargets scope targets) (bindTargets scope targets) := by
  induction targets generalizing scope with
  | nil => exact .pure rfl
  | cons target targets ih =>
      rw [bindTargets]
      refine (fresh_tallies target).andThen fun name => ?_
      refine (ih _).andThen fun bound => ?_
      exact .pure rfl

theorem lowerReads_tallies (scope : Scope) (cursor place : Nat) (identifiers : List Identifier) :
    Tallies Eq (lowerReads context scope cursor identifiers)
      (lowerReads other scope place identifiers) := by
  induction identifiers generalizing cursor place with
  | nil => exact .pure rfl
  | cons identifier identifiers ih =>
      rw [lowerReads, lowerReads]
      split
      · exact .refuse _
      · refine (ih _ _).andThen fun reads => ?_
        exact .pure rfl

theorem target_tallies (same : context.primitives = other.primitives) (scope : Scope)
    (offset place : Nat) (name : Identifier) :
    Tallies Eq (target context scope offset name) (target other scope place name) := by
  rw [target, target, same]
  split
  · exact .pure rfl
  · split
    · exact .pure rfl
    · exact .refuse _

/-- The statements of a block do without its declarations. -/
theorem lowerStatements_declarationsGist (scope : Scope) (block rest : List Statement) :
    lowerStatements context scope (declarationsGist block ++ rest) =
      lowerStatements context scope rest := by
  induction block with
  | nil => rfl
  | cons statement block ih =>
      cases statement with
      | declaration offset procedure => exact ih
      | _ => exact ih

theorem inScope_tallies (scope : Scope) (block : Block)
    (stated : ∀ scope, Tallies Eq (lowerStatements context scope block)
      (lowerStatements other scope (statementsGist block)))
    (compiled : ∀ scope callee, Tallies Eq (lowerBodies context scope callee block)
      (lowerProcedures other scope callee ((declarations block).map Procedure.gist))) :
    Tallies Eq
      (inScope scope block (fun scope => lowerStatements context scope block)
        (fun scope first => lowerBodies context scope first block))
      (inScope scope (declarationsGist block ++ statementsGist block)
        (fun scope => lowerStatements other scope (declarationsGist block ++ statementsGist block))
        (fun scope first =>
          lowerBodies other scope first (declarationsGist block ++ statementsGist block))) := by
  rw [inScope, inScope, declarations_gistBlock]
  refine (declareAll_tallies scope (declarations block)).andThen fun declared => ?_
  simp only [lowerStatements_declarationsGist, lowerBodies_declarations, declarations_gistBlock]
  refine (stated declared.2).andThen fun sequence => ?_
  rw [← lowerBodies_declarations]
  exact (compiled _ _).andThen fun _ => .pure rfl

mutual

theorem lowerExpression_gist (same : context.primitives = other.primitives) :
    ∀ (expression : Expression) (scope : Scope),
      Tallies Eq (lowerExpression context scope expression)
        (lowerExpression other scope expression.gist)
  | .application offset name argument, scope => by
      rw [Expression.gist, lowerExpression, lowerExpression]
      refine (target_tallies same scope _ _ name).andThen fun apply => ?_
      refine (lowerExpression_gist same argument scope).andThen fun entries => ?_
      exact .pure rfl
  | .unit _, scope => .pure rfl
  | .text _ _, scope => .pure rfl
  | .amount _ _, scope => .pure rfl
  | .hole _, scope => .refuse _
  | .tablet _ fields, scope => by
      rw [Expression.gist, lowerExpression, lowerExpression]
      refine (lowerFields_gist same fields scope).andThen fun steps => ?_
      exact .pure rfl
  | .reference _ names, scope => by
      rw [Expression.gist, lowerExpression, lowerExpression]
      refine (lowerReads_tallies scope _ _ names).andThen fun reads => ?_
      exact .pure rfl
  | .operation _ operator left right, scope => by
      rw [Expression.gist, lowerExpression, lowerExpression]
      refine (lowerExpression_gist same left scope).andThen fun first => ?_
      refine (lowerExpression_gist same right scope).andThen fun second => ?_
      exact .pure rfl
  | .grouping _ inner, scope => lowerExpression_gist same inner scope
  | .restriction _ setting block, scope => by
      rw [Expression.gist, lowerExpression, lowerExpression]
      exact inScope_tallies _ block (lowerStatements_gist same block) (lowerBodies_gist same block)

theorem lowerFields_gist (same : context.primitives = other.primitives) :
    ∀ (fields : List (Label × Expression)) (scope : Scope),
      Tallies Eq (lowerFields context scope fields) (lowerFields other scope (fieldsGist fields))
  | [], scope => .pure rfl
  | (label, value) :: fields, scope => by
      rw [fieldsGist, lowerFields, lowerFields]
      refine (lowerExpression_gist same value scope).andThen fun entries => ?_
      refine (lowerFields_gist same fields scope).andThen fun others => ?_
      exact .pure rfl

theorem lowerStatements_gist (same : context.primitives = other.primitives) :
    ∀ (block : List Statement) (scope : Scope), Tallies Eq (lowerStatements context scope block)
      (lowerStatements other scope (statementsGist block))
  | [], scope => .pure rfl
  | .assignment _ targets value :: block, scope => by
      rw [statementsGist, lowerStatements, lowerStatements]
      refine (checkTargets_tallies scope _ _ _ targets).andThen fun _ => ?_
      refine (lowerExpression_gist same value scope).andThen fun entries => ?_
      refine (bindTargets_tallies scope targets).andThen fun bound => ?_
      refine (lowerStatements_gist same block bound.2).andThen fun others => ?_
      exact .pure rfl
  | .execute _ value :: block, scope => by
      rw [statementsGist, lowerStatements, lowerStatements]
      refine (lowerExpression_gist same value scope).andThen fun entries => ?_
      refine (lowerStatements_gist same block scope).andThen fun others => ?_
      exact .pure rfl
  | .declaration _ _ :: block, scope => lowerStatements_gist same block scope
  | .comment _ _ :: block, scope => lowerStatements_gist same block scope
  | .blank _ :: block, scope => lowerStatements_gist same block scope
  | .series _ :: block, scope => lowerStatements_gist same block scope

theorem lowerBodies_gist (same : context.primitives = other.primitives) :
    ∀ (block : List Statement) (scope : Scope) (callee : Callee),
      Tallies Eq (lowerBodies context scope callee block)
        (lowerProcedures other scope callee ((declarations block).map Procedure.gist))
  | [], scope, callee => .pure rfl
  | .declaration _ procedure :: block, scope, callee => by
      rw [declarations, List.map_cons, lowerBodies, lowerProcedures]
      refine (lowerProcedure_gist same procedure scope).bind fun routine made equal => ?_
      refine (keep_tallies callee equal).andThen fun _ => ?_
      exact lowerBodies_gist same block scope (callee + 1)
  | .assignment _ _ _ :: block, scope, callee => lowerBodies_gist same block scope callee
  | .execute _ _ :: block, scope, callee => lowerBodies_gist same block scope callee
  | .comment _ _ :: block, scope, callee => lowerBodies_gist same block scope callee
  | .blank _ :: block, scope, callee => lowerBodies_gist same block scope callee
  | .series _ :: block, scope, callee => lowerBodies_gist same block scope callee

theorem lowerProcedure_gist (same : context.primitives = other.primitives) :
    ∀ (procedure : Procedure) (scope : Scope),
      Tallies (fun routine made => routine.unsourced = made.unsourced)
        (lowerProcedure context scope procedure) (lowerProcedure other scope procedure.gist)
  | ⟨_, name, parameters, signature, block⟩, scope => by
      rw [Procedure.gist, lowerProcedure, lowerProcedure]
      refine (bindParameters_tallies scope.body _ _ parameters).andThen fun bound => ?_
      refine (inScope_tallies bound.2 block (lowerStatements_gist same block)
        (lowerBodies_gist same block)).andThen fun sequence => ?_
      exact .pure rfl

end

theorem lowerProcedures_gist (same : context.primitives = other.primitives) (scope : Scope)
    (callee : Callee) (procedures : List Procedure) :
    Tallies Eq (lowerProcedures context scope callee procedures)
      (lowerProcedures other scope callee (procedures.map Procedure.gist)) := by
  induction procedures generalizing callee with
  | nil => exact .pure rfl
  | cons procedure procedures ih =>
      rw [List.map_cons, lowerProcedures, lowerProcedures]
      refine (lowerProcedure_gist same procedure scope).bind fun routine made equal => ?_
      exact (keep_tallies callee equal).andThen fun _ => ih _

theorem wholeDocument_gist (same : context.primitives = other.primitives) (document : Document) :
    Tallies Eq (wholeDocument context document) (wholeDocument other document.gist) := by
  refine (declareAll_tallies .root document.procedures).andThen fun declared => ?_
  exact lowerProcedures_gist same declared.2 declared.1 document.procedures

theorem mainOf_tallies {progress later : Progress} (tallies : progress.Tallies later) :
    ((mainOf progress).map Routine.unsourced).mapError Misuse.reason =
      ((mainOf later).map Routine.unsourced).mapError Misuse.reason := by
  have members := tallies.library
  have found := congrArg (Library.get? · 0) members
  simp only [Library.unsourced_get?] at found
  rw [mainOf, mainOf]
  cases first : Library.get? progress.library 0 with
  | none =>
      rw [first, Option.map_none, eq_comm, Option.map_eq_none_iff] at found
      rw [found]
  | some main =>
      rw [first, Option.map_some, eq_comm, Option.map_eq_some_iff] at found
      obtain ⟨another, second, equal⟩ := found
      obtain ⟨parameters, sequence⟩ := Routine.unsourced_inj equal
      rw [second]
      simp only [pure, Except.pure, Except.map, Except.mapError, Routine.unsourced, parameters,
        sequence, members]

theorem document_gist (same : context.primitives = other.primitives) (document : Document) :
    ((Lowering.document context document).map Routine.unsourced).mapError Misuse.reason =
      ((Lowering.document other document.gist).map Routine.unsourced).mapError Misuse.reason := by
  have unfolded (context : Context) (document : Document) : Lowering.document context document =
      (wholeDocument context document).run .start >>= fun result => mainOf result.2 := rfl
  have ends := wholeDocument_gist same document .start .start ⟨rfl, rfl, rfl⟩
  rw [unfolded, unfolded]
  generalize (wholeDocument context document).run .start = made,
    (wholeDocument other document.gist).run .start = result at ends
  cases ends with
  | makes _ tallies => exact mainOf_tallies tallies
  | refuses reason => exact congrArg Except.error reason

end Lowering

/-- What a document compiles to, but for the procedures that are stored in it, or the reason why it
cannot be compiled, is the same for each layout, in each text, and under each file name. -/
theorem Document.compile_layout {document other : Document} (same : document.gist = other.gist)
    (source text : Source) (primitives : List Identifier) :
    ((document.compile source primitives).map Routine.unsourced).mapError Diagnostic.reason =
      ((other.compile text primitives).map Routine.unsourced).mapError Diagnostic.reason := by
  have lowered (document : Document) (source : Source) :
      ((document.compile source primitives).map Routine.unsourced).mapError Diagnostic.reason =
        ((Lowering.document ⟨source.contents.toList, primitives⟩ document).map
          Routine.unsourced).mapError Misuse.reason := by
    rw [compile]
    cases Lowering.document ⟨source.contents.toList, primitives⟩ document with
    | error misuse => rfl
    | ok routine => rfl
  have gist (document : Document) (source : Source) :=
    @Lowering.document_gist ⟨source.contents.toList, primitives⟩ ⟨[], primitives⟩ rfl document
  rw [lowered, lowered, gist, gist, same]

/-- A document with comments, groupings, offsets, and a declaration behind its use. -/
def Document.spaced : Document where
  procedures := [⟨3, "main", ["x"], none, [
    .comment 10 "first", .blank 12,
    .execute 20 (.grouping 20 (.application 21 "late" (.reference 26 ["x"]))), .series 30,
    .declaration 40 ⟨40, "late", ["y"], none, [.execute 50 (.grouping 50 (.reference 51 ["y"]))]⟩]⟩]

/-- The same document without them. -/
def Document.tight : Document where
  procedures := [⟨0, "main", ["x"], none, [
    .declaration 1 ⟨2, "late", ["y"], none, [.execute 3 (.reference 4 ["y"])]⟩,
    .execute 5 (.application 6 "late" (.reference 7 ["x"]))]⟩]

theorem Document.compile_layout_spaced :
    spaced.gist = tight.gist ∧
    ((spaced.compile ⟨"main x", "a"⟩ []).map Routine.unsourced).mapError Diagnostic.reason =
      ((tight.compile ⟨"", "b"⟩ []).map Routine.unsourced).mapError Diagnostic.reason :=
  have same : spaced.gist = tight.gist := rfl
  ⟨same, compile_layout same ⟨"main x", "a"⟩ ⟨"", "b"⟩ []⟩

end Runbook
