import Runbook.Proofs.Syntax.LineEnds
import Runbook.Proofs.Lowering.Points

/-!
Line ends have no meaning for what is compiled.

Lowering a document whose offsets were carried over into another text keeps step with lowering the
document, if its names are found in the other text at the carried places. In the text with a
carriage return before each line feed they are: no list of names goes beyond its line.
-/
namespace Runbook

open Cursor Text Lowering

mutual

/-- The routine with the offsets in all stored procedures replaced. -/
def Routine.relocated (place : Nat → Nat) : Routine → Routine
  | ⟨procedure, parameters, sequence, library⟩ =>
    ⟨procedure.relocated place, parameters, sequence, relocatedLibrary place library⟩

def relocatedLibrary (place : Nat → Nat) : List (Callee × Routine) → List (Callee × Routine)
  | [] => []
  | (callee, routine) :: library =>
    (callee, routine.relocated place) :: relocatedLibrary place library

end

def Misuse.relocated (place : Nat → Nat) (misuse : Misuse) : Misuse :=
  ⟨place misuse.offset, misuse.reason⟩

def Use.relocated (place : Nat → Nat) : Use → Use
  | .applied offset name => .applied (place offset) name
  | .hole offset => .hole (place offset)
  | .read offset names => .read (place offset) names
  | .assigned offset targets => .assigned (place offset) targets
  | .header offset name parameters => .header (place offset) name parameters
  | .declared procedures => .declared (procedures.map (Procedure.relocated place))

section
variable (place : Nat → Nat)

@[simp] theorem Procedure.relocated_name (procedure : Procedure) :
    (procedure.relocated place).name = procedure.name := by
  cases procedure
  rfl

@[simp] theorem Procedure.relocated_offset (procedure : Procedure) :
    (procedure.relocated place).offset = place procedure.offset := by
  cases procedure
  rfl

theorem declarations_relocated (block : List Statement) :
    declarations (relocatedBlock place block) =
      (declarations block).map (Procedure.relocated place) := by
  induction block with
  | nil => rfl
  | cons statement block ih =>
      cases statement with
      | declaration offset procedure => exact congrArg (procedure.relocated place :: ·) ih
      | _ => exact ih

theorem Library.relocated_insert (library : Library) (callee : Callee) (routine : Routine) :
    relocatedLibrary place (library.insert callee routine) =
      insert (relocatedLibrary place library) callee (routine.relocated place) := by
  induction library with
  | nil => rfl
  | cons entry library ih =>
      obtain ⟨other, kept⟩ := entry
      rw [insert, relocatedLibrary, insert]
      split_ifs with same before
      · rw [relocatedLibrary]
      · rw [relocatedLibrary, relocatedLibrary]
      · rw [relocatedLibrary, ih]

theorem Library.relocated_get? (library : Library) (callee : Callee) :
    get? (relocatedLibrary place library) callee =
      (library.get? callee).map (Routine.relocated place) := by
  induction library with
  | nil => rfl
  | cons entry library ih =>
      obtain ⟨other, kept⟩ := entry
      rw [get?, relocatedLibrary, get?]
      split
      · rfl
      · exact ih

end

namespace Lowering

/-- The same has been made, but from the relocated procedures. -/
def Progress.relocated (place : Nat → Nat) (progress : Progress) : Progress :=
  { progress with library := relocatedLibrary place progress.library }

/-- A result with all of its offsets replaced. -/
def relocatedResult {α β : Type} (place : Nat → Nat) (image : α → β) :
    Except Misuse (α × Progress) → Except Misuse (β × Progress)
  | .ok (a, after) => .ok (image a, after.relocated place)
  | .error misuse => .error (misuse.relocated place)

/-- The other part gives what the part does, with all offsets replaced. -/
def Relocates {α β : Type} (place : Nat → Nat) (image : α → β) (part : Lowering α)
    (other : Lowering β) : Prop :=
  ∀ before : Progress,
    other.run (before.relocated place) = relocatedResult place image (part.run before)

namespace Relocates

variable {α β γ δ : Type} {place : Nat → Nat} {image : α → β} {later : γ → δ}

theorem pure (a : α) : Relocates place image (Pure.pure a) (Pure.pure (image a)) := fun _ => rfl

theorem refuse (offset : Nat) (reason : Reason) :
    Relocates place image (refuse offset reason) (Lowering.refuse (place offset) reason) :=
  fun _ => rfl

theorem bind {part : Lowering α} {other : Lowering β} {next : α → Lowering γ}
    {rest : β → Lowering δ} (first : Relocates place image part other)
    (follow : ∀ a, Relocates place later (next a) (rest (image a))) :
    Relocates place later (part >>= next) (other >>= rest) := by
  intro before
  rw [StateT.run_bind, StateT.run_bind, first before]
  cases part.run before with
  | error misuse => rfl
  | ok made => exact follow made.1 made.2

theorem get : Relocates place (Progress.relocated place) (MonadState.get : Lowering Progress)
    MonadState.get := fun _ => rfl

theorem set (progress : Progress) :
    Relocates place id (MonadStateOf.set progress : Lowering PUnit)
      (MonadStateOf.set (progress.relocated place)) := fun _ => rfl

end Relocates

variable {place : Nat → Nat} {context other : Context}

theorem fresh_relocates (identifier : Identifier) :
    Relocates place id (fresh identifier) (fresh identifier) := fun _ => rfl

theorem keep_relocates (callee : Callee) (routine : Routine) :
    Relocates place id (keep callee routine) (keep callee (routine.relocated place)) := by
  intro before
  have kept := Library.relocated_insert place before.library callee routine
  exact congrArg (fun library => Except.ok ((), { before with library })) kept.symm

theorem declareAll_go_relocates (progress : Progress) (scope : Scope) (next : Callee)
    (procedures : List Procedure) :
    Relocates place id (declareAll.go progress scope next procedures)
      (declareAll.go (progress.relocated place) scope next
        (procedures.map (Procedure.relocated place))) := by
  induction procedures generalizing scope next with
  | nil => exact (Relocates.set { progress with callees := next }).bind fun _ => .pure _
  | cons procedure procedures ih =>
      rw [List.map_cons, declareAll.go, declareAll.go, Procedure.relocated_name,
        Procedure.relocated_offset]
      split
      · exact .refuse _ _
      · exact ih _ _

theorem declareAll_relocates (scope : Scope) (procedures : List Procedure) :
    Relocates place id (declareAll scope procedures)
      (declareAll scope (procedures.map (Procedure.relocated place))) :=
  Relocates.get.bind fun progress =>
    declareAll_go_relocates progress scope progress.callees procedures

theorem bindTargets_relocates (scope : Scope) (targets : List Identifier) :
    Relocates place id (bindTargets scope targets) (bindTargets scope targets) := by
  induction targets generalizing scope with
  | nil => exact .pure _
  | cons target targets ih =>
      rw [bindTargets]
      refine (fresh_relocates target).bind fun name => ?_
      refine (ih _).bind fun bound => ?_
      exact .pure _

theorem target_relocates (same : context.primitives = other.primitives) (scope : Scope)
    (offset : Nat) (name : Identifier) :
    Relocates place id (target context scope offset name)
      (target other scope (place offset) name) := by
  rw [target, target, same]
  split
  · exact .pure _
  · split
    · exact .pure _
    · exact .refuse _ _

/-! Names are searched for in both texts. -/

/-- Names that are found one behind the other in the text are found at the carried places. -/
def Context.Carries (context other : Context) (place : Nat → Nat) (cursor start : Nat)
    (names : List Identifier) : Prop :=
  other.places start names = (context.places cursor names).map place

theorem Context.Carries.uncons {cursor start : Nat} {name : Identifier} {names : List Identifier}
    (carries : context.Carries other place cursor start (name :: names)) :
    other.locate start name = place (context.locate cursor name) ∧
      context.Carries other place (past (context.locate cursor name) name)
        (past (other.locate start name) name) names :=
  List.cons.inj carries

theorem bindParameters_relocates (scope : Scope) {cursor start : Nat}
    {parameters : List Identifier}
    (carries : context.Carries other place cursor start parameters) :
    Relocates place id (bindParameters context scope cursor parameters)
      (bindParameters other scope start parameters) := by
  induction parameters generalizing scope cursor start with
  | nil => exact .pure _
  | cons parameter parameters ih =>
      obtain ⟨found, others⟩ := carries.uncons
      rw [bindParameters, bindParameters]
      dsimp only
      split
      · rw [found]
        exact .refuse _ _
      · refine (fresh_relocates parameter).bind fun name => ?_
        refine (ih _ others).bind fun bound => ?_
        exact .pure _

theorem checkTargets_relocates (scope : Scope) (before : List Identifier) {cursor start : Nat}
    {targets : List Identifier} (carries : context.Carries other place cursor start targets) :
    Relocates place id (checkTargets context scope cursor before targets)
      (checkTargets other scope start before targets) := by
  induction targets generalizing cursor start before with
  | nil => exact .pure _
  | cons target targets ih =>
      obtain ⟨found, others⟩ := carries.uncons
      rw [checkTargets, checkTargets]
      split
      · rw [found]
        exact .refuse _ _
      · exact ih _ others

theorem lowerReads_relocates (scope : Scope) {cursor start : Nat} {identifiers : List Identifier}
    (carries : context.Carries other place cursor start identifiers) :
    Relocates place id (lowerReads context scope cursor identifiers)
      (lowerReads other scope start identifiers) := by
  induction identifiers generalizing cursor start with
  | nil => exact .pure _
  | cons identifier identifiers ih =>
      obtain ⟨found, others⟩ := carries.uncons
      rw [lowerReads, lowerReads]
      split
      · rw [found]
        exact .refuse _ _
      · refine (ih others).bind fun reads => ?_
        exact .pure _

/-- What the uses name is found in the other text, from where they were carried to, at the carried
places. -/
structure Context.Matches (context other : Context) (place : Nat → Nat)
    (uses : List (Vicinity × Use)) : Prop where
  primitives : context.primitives = other.primitives
  found : ∀ entry ∈ uses,
    other.found (entry.2.relocated place) = (context.found entry.2).map place

section
variable {uses others : List (Vicinity × Use)}

theorem Context.Matches.left (both : context.Matches other place (uses ++ others)) :
    context.Matches other place uses :=
  ⟨both.primitives, fun entry mem => both.found entry (List.mem_append_left _ mem)⟩

theorem Context.Matches.right (both : context.Matches other place (uses ++ others)) :
    context.Matches other place others :=
  ⟨both.primitives, fun entry mem => both.found entry (List.mem_append_right _ mem)⟩

theorem Context.Matches.head {around : Vicinity} {use : Use}
    (all : context.Matches other place ((around, use) :: uses)) :
    other.found (use.relocated place) = (context.found use).map place :=
  all.found _ List.mem_cons_self

theorem Context.Matches.tail {entry : Vicinity × Use}
    (all : context.Matches other place (entry :: uses)) : context.Matches other place uses :=
  ⟨all.primitives, fun other mem => all.found other (List.mem_cons_of_mem _ mem)⟩

end

/-! Each construct is lowered alike. -/

theorem inScope_relocates (scope : Scope) (block : Block)
    (stated : ∀ scope, Relocates place id (lowerStatements context scope block)
      (lowerStatements other scope (relocatedBlock place block)))
    (compiled : ∀ scope callee, Relocates place id (lowerBodies context scope callee block)
      (lowerBodies other scope callee (relocatedBlock place block))) :
    Relocates place id
      (inScope scope block (fun scope => lowerStatements context scope block)
        (fun scope first => lowerBodies context scope first block))
      (inScope scope (relocatedBlock place block)
        (fun scope => lowerStatements other scope (relocatedBlock place block))
        (fun scope first => lowerBodies other scope first (relocatedBlock place block))) := by
  rw [inScope, inScope, declarations_relocated]
  refine (declareAll_relocates scope (declarations block)).bind fun declared => ?_
  refine (stated declared.2).bind fun made => ?_
  exact (compiled made.2 declared.1).bind fun _ => .pure _

mutual

theorem lowerExpression_relocates {around : Vicinity} : ∀ (expression : Expression) (scope : Scope),
    context.Matches other place (expression.uses around) →
    Relocates place id (lowerExpression context scope expression)
      (lowerExpression other scope (expression.relocated place))
  | .application offset name argument, scope, uses => by
      rw [Expression.relocated, lowerExpression, lowerExpression]
      refine (target_relocates uses.primitives scope offset name).bind fun apply => ?_
      refine (lowerExpression_relocates argument scope uses.tail).bind fun entries => ?_
      exact .pure _
  | .unit _, scope, _ => .pure _
  | .text _ _, scope, _ => .pure _
  | .amount _ _, scope, _ => .pure _
  | .hole _, scope, _ => .refuse _ _
  | .tablet _ fields, scope, uses => by
      rw [Expression.relocated, lowerExpression, lowerExpression]
      refine (lowerFields_relocates fields scope uses).bind fun steps => ?_
      exact .pure _
  | .reference _ names, scope, uses => by
      rw [Expression.relocated, lowerExpression, lowerExpression]
      refine (lowerReads_relocates scope uses.head).bind fun reads => ?_
      exact .pure _
  | .operation _ operator left right, scope, uses => by
      rw [Expression.relocated, lowerExpression, lowerExpression]
      refine (lowerExpression_relocates left scope uses.left).bind fun first => ?_
      refine (lowerExpression_relocates right scope uses.right).bind fun second => ?_
      exact .pure _
  | .grouping _ inner, scope, uses => lowerExpression_relocates inner scope uses
  | .restriction _ setting block, scope, uses => by
      rw [Expression.relocated, lowerExpression, lowerExpression]
      exact inScope_relocates _ block
        (fun scope => lowerStatements_relocates block scope uses.tail)
        (fun scope callee => lowerBodies_relocates block scope callee uses.tail)

theorem lowerFields_relocates {around : Vicinity} :
    ∀ (fields : List (Label × Expression)) (scope : Scope),
    context.Matches other place (fieldsUses around fields) →
    Relocates place id (lowerFields context scope fields)
      (lowerFields other scope (relocatedFields place fields))
  | [], scope, _ => .pure _
  | (label, value) :: fields, scope, uses => by
      rw [relocatedFields, lowerFields, lowerFields]
      refine (lowerExpression_relocates value scope uses.left).bind fun entries => ?_
      refine (lowerFields_relocates fields scope uses.right).bind fun others => ?_
      exact .pure _

theorem lowerStatements_relocates {around : Vicinity} :
    ∀ (block : List Statement) (scope : Scope),
    context.Matches other place (blockUses around block) →
    Relocates place id (lowerStatements context scope block)
      (lowerStatements other scope (relocatedBlock place block))
  | [], scope, _ => .pure _
  | .assignment _ targets value :: block, scope, uses => by
      rw [relocatedBlock, Statement.relocated, lowerStatements, lowerStatements]
      refine (checkTargets_relocates scope [] uses.left.head).bind fun _ => ?_
      refine (lowerExpression_relocates value scope uses.left.tail).bind fun entries => ?_
      refine (bindTargets_relocates scope targets).bind fun bound => ?_
      refine (lowerStatements_relocates block bound.2 uses.right).bind fun others => ?_
      exact .pure _
  | .execute _ value :: block, scope, uses => by
      rw [relocatedBlock, Statement.relocated, lowerStatements, lowerStatements]
      refine (lowerExpression_relocates value scope uses.left).bind fun entries => ?_
      refine (lowerStatements_relocates block scope uses.right).bind fun others => ?_
      exact .pure _
  | .declaration _ _ :: block, scope, uses => lowerStatements_relocates block scope uses.right
  | .comment _ _ :: block, scope, uses => lowerStatements_relocates block scope uses.right
  | .blank _ :: block, scope, uses => lowerStatements_relocates block scope uses.right
  | .series _ :: block, scope, uses => lowerStatements_relocates block scope uses.right

theorem lowerBodies_relocates {around : Vicinity} :
    ∀ (block : List Statement) (scope : Scope) (callee : Callee),
    context.Matches other place (blockUses around block) →
    Relocates place id (lowerBodies context scope callee block)
      (lowerBodies other scope callee (relocatedBlock place block))
  | [], scope, callee, _ => .pure _
  | .declaration _ procedure :: block, scope, callee, uses => by
      rw [relocatedBlock, Statement.relocated, lowerBodies, lowerBodies]
      refine (lowerProcedure_relocates procedure scope uses.left).bind fun routine => ?_
      refine (keep_relocates callee routine).bind fun _ => ?_
      exact lowerBodies_relocates block scope (callee + 1) uses.right
  | .assignment _ _ _ :: block, scope, callee, uses =>
      lowerBodies_relocates block scope callee uses.right
  | .execute _ _ :: block, scope, callee, uses =>
      lowerBodies_relocates block scope callee uses.right
  | .comment _ _ :: block, scope, callee, uses =>
      lowerBodies_relocates block scope callee uses.right
  | .blank _ :: block, scope, callee, uses => lowerBodies_relocates block scope callee uses.right
  | .series _ :: block, scope, callee, uses => lowerBodies_relocates block scope callee uses.right

theorem lowerProcedure_relocates {names : List Identifier} :
    ∀ (procedure : Procedure) (scope : Scope),
    context.Matches other place (procedure.uses names) →
    Relocates place (Routine.relocated place) (lowerProcedure context scope procedure)
      (lowerProcedure other scope (procedure.relocated place))
  | ⟨_, name, parameters, signature, block⟩, scope, uses => by
      rw [Procedure.relocated, lowerProcedure, lowerProcedure]
      refine (bindParameters_relocates scope.body uses.head).bind fun bound => ?_
      refine (inScope_relocates bound.2 block
        (fun scope => lowerStatements_relocates block scope uses.tail.tail)
        (fun scope callee => lowerBodies_relocates block scope callee uses.tail.tail)).bind
        fun sequence => ?_
      exact .pure _

end

theorem lowerProcedures_relocates {names : List Identifier} (scope : Scope) (callee : Callee)
    (procedures : List Procedure)
    (uses : context.Matches other place (procedures.flatMap (Procedure.uses names))) :
    Relocates place id (lowerProcedures context scope callee procedures)
      (lowerProcedures other scope callee (procedures.map (Procedure.relocated place))) := by
  induction procedures generalizing callee with
  | nil => exact .pure _
  | cons procedure procedures ih =>
      rw [List.flatMap_cons] at uses
      rw [List.map_cons, lowerProcedures, lowerProcedures]
      refine (lowerProcedure_relocates procedure scope uses.left).bind fun routine => ?_
      exact (keep_relocates callee routine).bind fun _ => ih _ uses.right

theorem wholeDocument_relocates {document : Document}
    (uses : context.Matches other place document.uses) :
    Relocates place id (wholeDocument context document)
      (wholeDocument other (document.relocated place)) :=
  (declareAll_relocates .root document.procedures).bind fun declared =>
    lowerProcedures_relocates declared.2 declared.1 document.procedures uses.tail

theorem mainOf_relocated {progress : Progress} {routine : Routine}
    (found : mainOf progress = .ok routine) :
    mainOf (progress.relocated place) = .ok (routine.relocated place) := by
  obtain ⟨⟨procedure, parameters, sequence, library⟩, first, rfl⟩ := mainOf_eq_ok.mp found
  refine mainOf_eq_ok.mpr ⟨Routine.relocated place ⟨procedure, parameters, sequence, library⟩,
    ?_, ?_⟩
  · exact (Library.relocated_get? place progress.library 0).trans (congrArg (Option.map _) first)
  · rw [Routine.relocated, Routine.relocated]
    rfl

/-- Where the document's names are found at the carried places, lowering it relocated gives what
lowering it does, relocated. -/
theorem document_relocated {document : Document} (some : document.procedures ≠ [])
    (uses : context.Matches other place document.uses) :
    Lowering.document other (document.relocated place) =
      ((Lowering.document context document).map (Routine.relocated place)).mapError
        (Misuse.relocated place) := by
  have unfolded (context : Context) (document : Document) : Lowering.document context document =
      (wholeDocument context document).run .start >>= fun result => mainOf result.2 := rfl
  have same := wholeDocument_relocates uses .start
  rw [unfolded, unfolded]
  change (wholeDocument other (document.relocated place)).run .start = _ at same
  rw [same]
  cases result : (wholeDocument context document).run .start with
  | error misuse => rfl
  | ok made =>
      change mainOf (made.2.relocated place) =
        ((mainOf made.2).map (Routine.relocated place)).mapError (Misuse.relocated place)
      cases found : mainOf made.2 with
      | error misuse => exact absurd found (mainOf_ne_error some result)
      | ok routine => exact mainOf_relocated found

end Lowering

/-! What is found in a text is found in the text with carriage returns. -/

theorem Text.withReturns_of_not_mem {cs : List Char} (feedless : '\n' ∉ cs) :
    withReturns cs = cs := by
  induction cs with
  | nil => rfl
  | cons ch cs ih =>
      rw [withReturns_cons (List.ne_of_not_mem_cons feedless).symm,
        ih (List.not_mem_of_not_mem_cons feedless)]

namespace Cursor

variable {text : List Char} {primitives : List Identifier} {c e : Cursor text}
  {d : Cursor (withReturns text)}

theorem head?_of_atName (there : c.atName = true) : c.rest.head? ≠ some '\n' := by
  obtain ⟨ch, rest, here, begins⟩ := atName_iff.mp there
  rw [here]
  rintro ⟨⟩
  cases begins

/-- What parts a name from the place before it holds no line feed. -/
theorem Parts.feedless {gap : List Char} (between : gap ++ e.rest = c.rest)
    (separate : ∀ ch ∈ gap, isSeparator ch = true) (there : e.atName = true) :
    '\n' ∉ gap ∧ c.rest.head? ≠ some '\n' := by
  have feedless : '\n' ∉ gap := fun mem => Bool.false_ne_true (separate _ mem)
  refine ⟨feedless, ?_⟩
  rw [← between]
  cases gap with
  | nil => exact head?_of_atName there
  | cons ch gap =>
      rintro ⟨⟩
      exact feedless List.mem_cons_self

theorem Near.parts (near : c.Near d) (parts : c.Parts e) (there : e.atName = true) :
    ∃ last, e.Even last ∧ d.Parts last := by
  obtain ⟨gap, between, separate⟩ := parts
  obtain ⟨feedless, next⟩ := Parts.feedless between separate there
  obtain same | ⟨here, _⟩ := near
  · have passed : gap ++ withReturns e.rest = d.rest := by
      rw [same, ← between, withReturns_append, withReturns_of_not_mem feedless]
    exact ⟨d.past gap _ passed, .of_same rfl (head?_of_atName there), gap, passed, separate⟩
  · rw [here] at next
    exact absurd rfl next

/-- From near places the names of a list are found in their places. -/
theorem Lists.carries {names : List Identifier} {cursors : List (Cursor text)}
    (lists : c.Lists names cursors) (near : c.Near d) :
    Context.Carries ⟨text, primitives⟩ ⟨withReturns text, primitives⟩ (carried text) c.offset
      d.offset names := by
  induction lists generalizing d with
  | nil => rfl
  | @cons c e name names cursors parts spells _ ih =>
      obtain ⟨last, even, others⟩ := near.parts parts spells.there
      obtain ⟨same, after⟩ := even.near.name
      have here : Context.locate ⟨text, primitives⟩ c.offset e.name.1 = e.offset :=
        parts.locate_name spells.there
      have there : Context.locate ⟨withReturns text, primitives⟩ d.offset last.name.1 =
          last.offset := others.locate_name (even.near.atName.trans spells.there)
      rw [Context.Carries, Context.places, Context.places, List.map_cons, ← spells.same, here,
        ← same, there, past_name, even.offset, same, past_name]
      exact congrArg _ (ih after)

/-- A place behind which no line ends stands in both texts. -/
theorem exists_even (c : Cursor text) (next : c.rest.head? ≠ some '\n') :
    ∃ d : Cursor (withReturns text), d.rest = withReturns c.rest ∧ c.Even d := by
  obtain ⟨before, whole, _⟩ := c.stands
  have both : withReturns before ++ withReturns c.rest = withReturns text := by
    rw [← withReturns_append, whole]
  exact ⟨⟨_, _, _, both, rfl⟩, rfl, .of_same rfl next⟩

end Cursor

section
variable {text : List Char} {primitives : List Identifier}

theorem Text.ListsAt.carries {offset : Nat} {names : List Identifier} {places : List Nat}
    (lists : Text.ListsAt text offset names places) :
    Context.Carries ⟨text, primitives⟩ ⟨withReturns text, primitives⟩ (carried text) offset
      (carried text offset) names := by
  obtain ⟨c, cursors, rfl, lists, _⟩ := lists
  cases lists with
  | nil => rfl
  | cons parts spells rest =>
      obtain ⟨gap, between, separate⟩ := parts
      obtain ⟨d, _, even⟩ := c.exists_even (Parts.feedless between separate spells.there).2
      rw [← even.offset]
      exact Lists.carries (.cons ⟨gap, between, separate⟩ spells rest) even.near

/-- The parameters of a procedure are searched for from behind its name. -/
theorem Text.SpellsAt.carries {offset : Nat} {name : Identifier} {parameters : List Identifier}
    {places : List Nat} (spelled : Text.SpellsAt text offset name)
    (lists : Text.ListsAt text (past offset name) parameters places) :
    Context.Carries ⟨text, primitives⟩ ⟨withReturns text, primitives⟩ (carried text)
      (past offset name) (past (carried text offset) name) parameters := by
  obtain ⟨isName, before, after, whole, length, _⟩ := spelled
  obtain ⟨c, cursors, same, lists, _⟩ := lists
  have feedless : '\n' ∉ name.toList := fun mem => Bool.false_ne_true (isName.2 _ mem)
  let first : Cursor text := ⟨offset, name.toList ++ after, before, whole, length⟩
  obtain ⟨ch, letters, spelling, begins⟩ := isName.cons
  have next : first.rest.head? ≠ some '\n' := by
    change (name.toList ++ after).head? ≠ some '\n'
    rw [spelling]
    rintro ⟨⟩
    cases begins
  obtain ⟨d, there, even⟩ := first.exists_even next
  have passed : name.toList ++ withReturns after = d.rest := by
    rw [there, withReturns_append, withReturns_of_not_mem feedless]
  have here : c.rest = after := by
    have found := dropBytes?_offset c
    rw [same] at found
    exact Option.some.inj (found.symm.trans (dropBytes?_offset (first.past name.toList after rfl)))
  have near : c.Near (d.past name.toList (withReturns after) passed) := .same (by rw [here]; rfl)
  have offset : d.offset = carried text offset := even.offset
  rw [← same, ← offset]
  exact lists.carries near

theorem Use.Stands.found_carried {use : Use} {places : List Nat} (stands : use.Stands text places) :
    Context.found ⟨withReturns text, primitives⟩ (use.relocated (carried text)) =
      (Context.found ⟨text, primitives⟩ use).map (carried text) := by
  cases use with
  | applied offset name => rfl
  | hole offset => rfl
  | read offset names => exact stands.carries
  | assigned offset targets => exact stands.carries
  | header offset name parameters => exact stands.1.carries stands.2
  | declared procedures =>
      simp only [Use.relocated, Context.found, List.map_map]
      exact List.map_congr_left fun procedure _ => procedure.relocated_offset _

theorem UsesStand.matches {uses : List (Vicinity × Use)} (stand : UsesStand text uses) :
    Context.Matches ⟨text, primitives⟩ ⟨withReturns text, primitives⟩ (carried text) uses := by
  refine ⟨rfl, fun entry mem => ?_⟩
  obtain ⟨places, stands⟩ := stand entry mem
  exact stands.found_carried

end

/-- The source with a carriage return before each line feed. -/
def Source.withReturns (source : Source) : Source :=
  { source with contents := .ofList (Text.withReturns source.contents.toList) }

/-- The diagnostic at the place of the other source. -/
def Diagnostic.relocated (place : Nat → Nat) (other : Source) (diagnostic : Diagnostic) :
    Diagnostic := ⟨other, place diagnostic.offset, diagnostic.reason⟩

section
variable {source : Source} {primitives : List Identifier} {document : Document}

/-- A document that can be read is compiled alike with carriage returns. -/
theorem Document.compile_relocated (read : Document.read source.contents = .ok document) :
    (document.relocated (carried source.contents.toList)).compile source.withReturns primitives =
      ((document.compile source primitives).map
        (Routine.relocated (carried source.contents.toList))).mapError
          (Diagnostic.relocated (carried source.contents.toList) source.withReturns) := by
  obtain ⟨some, stand⟩ := Document.read_stand read
  have lowered := document_relocated some
    (stand.matches : Context.Matches ⟨source.contents.toList, primitives⟩ _ _ _)
  rw [compile, compile, Source.withReturns, String.toList_ofList, lowered]
  cases Lowering.document ⟨source.contents.toList, primitives⟩ document with
  | error misuse => rfl
  | ok routine => rfl

theorem Source.compile_relocated (parsed : Document.parse source.contents = .ok document) :
    source.withReturns.compile primitives =
      ((source.compile primitives).map
        (Routine.relocated (carried source.contents.toList))).mapError
          (Diagnostic.relocated (carried source.contents.toList) source.withReturns) := by
  have read := Document.parse_eq_ok.mp parsed
  have returned := (Document.parse_withReturns source.contents _).mpr ⟨document, parsed, rfl⟩
  rw [compile, compile, read, withReturns, Document.parse_eq_ok.mp returned]
  exact Document.compile_relocated read

/-- Only what can be read is compiled. -/
theorem Source.parse_of_compile {routine : Routine}
    (compiled : source.compile primitives = .ok routine) :
    ∃ document, Document.parse source.contents = .ok document := by
  rw [compile] at compiled
  split at compiled
  · exact ⟨_, Document.parse_eq_ok.mpr ‹_›⟩
  · cases compiled

end

/-- With a carriage return before each line feed a source is read as the same document and compiled
to the same routine, or refused for the same reason, with each offset carried to where its byte
stands then. -/
theorem Source.compile_withReturns (source : Source) (primitives : List Identifier) :
    let place := carried source.contents.toList
    (∀ document, Document.parse source.withReturns.contents = .ok document ↔
      ∃ other, Document.parse source.contents = .ok other ∧ document = other.relocated place) ∧
    (∀ routine, source.withReturns.compile primitives = .ok routine ↔
      ∃ other, source.compile primitives = .ok other ∧ routine = other.relocated place) ∧
    ∀ document, Document.parse source.contents = .ok document → ∀ diagnostic,
      source.withReturns.compile primitives = .error diagnostic ↔
        ∃ other, source.compile primitives = .error other ∧
          diagnostic = ⟨source.withReturns, place other.offset, other.reason⟩ := by
  refine ⟨Document.parse_withReturns source.contents, fun routine => ?_, ?_⟩
  · constructor
    · intro compiled
      obtain ⟨document, returned⟩ := parse_of_compile compiled
      obtain ⟨other, parsed, _⟩ := (Document.parse_withReturns source.contents _).mp returned
      rw [compile_relocated parsed] at compiled
      cases first : source.compile primitives with
      | error diagnostic =>
          rw [first] at compiled
          cases compiled
      | ok other =>
          rw [first] at compiled
          cases compiled
          exact ⟨other, rfl, rfl⟩
    · rintro ⟨other, compiled, rfl⟩
      obtain ⟨document, parsed⟩ := parse_of_compile compiled
      rw [compile_relocated parsed, compiled]
      rfl
  · intro document parsed diagnostic
    rw [compile_relocated parsed]
    cases source.compile primitives with
    | error other =>
        constructor
        · intro failed
          cases failed
          exact ⟨other, rfl, rfl⟩
        · rintro ⟨_, same, rfl⟩
          cases same
          rfl
    | ok routine =>
        constructor
        · intro failed
          cases failed
        · rintro ⟨_, same, _⟩
          cases same

theorem Source.compile_withReturns_teapot : ∃ document,
    Document.parse teapot.contents = .ok document ∧ teapot.withReturns.compile [] =
      .error ⟨teapot.withReturns, 27, .unknownVariable "tea"⟩ := by
  have parsed : Document.parse teapot.contents = .ok _ := rfl
  have failed : teapot.compile [] = .error ⟨teapot, 25, .unknownVariable "tea"⟩ := rfl
  exact ⟨_, parsed, ((compile_withReturns teapot []).2.2 _ parsed _).mpr ⟨_, failed, rfl⟩⟩

end Runbook
