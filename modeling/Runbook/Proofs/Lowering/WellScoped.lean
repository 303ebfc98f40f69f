import Runbook.Proofs.Lowering.Progress

/-!
Which documents compile.

A document is well scoped if every name in it means something where it stands, and no block gives
one name twice. Exactly the well scoped documents compile.
-/
namespace Runbook

/-- The names that have a meaning at a place of a runbook. -/
structure Vicinity where
  /-- The variables that the innermost block has bound before the place. In a procedure's own block
  they begin with the parameters. -/
  inner : List Identifier
  /-- The variables that the blocks around it in the same procedure have bound before the place. -/
  outer : List Identifier
  /-- The procedures that the blocks around the place declare anywhere, those of other procedures
  and the file's among them. -/
  procedures : List Identifier

/-- The names of the procedures that a block declares itself. -/
def declaredNames (block : Block) : List Identifier := (declarations block).map Procedure.name

namespace Vicinity

/-- Inside a restriction's block. -/
def enter (place : Vicinity) (block : Block) : Vicinity :=
  ⟨[], place.inner ++ place.outer, declaredNames block ++ place.procedures⟩

/-- After an assignment. -/
def bind (place : Vicinity) (targets : List Identifier) : Vicinity :=
  { place with inner := targets ++ place.inner }

end Vicinity

mutual

/-- Every name in the expression means something, and no part of it is still to be written. -/
def Expression.WellScoped (primitives : List Identifier) (place : Vicinity) : Expression → Prop
  | .application _ name argument =>
    (name ∈ place.procedures ∨ name ∈ primitives) ∧ argument.WellScoped primitives place
  | .unit _ | .text _ _ | .amount _ _ => True
  | .hole _ => False
  | .tablet _ fields => FieldsWellScoped primitives place fields
  | .reference _ names => ∀ name ∈ names, name ∈ place.inner ∨ name ∈ place.outer
  | .operation _ _ left right =>
    left.WellScoped primitives place ∧ right.WellScoped primitives place
  | .grouping _ inner => inner.WellScoped primitives place
  | .restriction _ _ block =>
    (declaredNames block).Nodup ∧ StatementsWellScoped primitives (place.enter block) block

def FieldsWellScoped (primitives : List Identifier) (place : Vicinity) :
    List (Label × Expression) → Prop
  | [] => True
  | (_, value) :: fields =>
    value.WellScoped primitives place ∧ FieldsWellScoped primitives place fields

/-- The statements are well scoped, each in the vicinity of those before it. -/
def StatementsWellScoped (primitives : List Identifier) (place : Vicinity) :
    List Statement → Prop
  | [] => True
  | .assignment _ targets value :: block =>
    (targets.Nodup ∧ ∀ target ∈ targets, target ∉ place.inner) ∧
      value.WellScoped primitives place ∧
      StatementsWellScoped primitives (place.bind targets) block
  | .execute _ value :: block =>
    value.WellScoped primitives place ∧ StatementsWellScoped primitives place block
  | .declaration _ procedure :: block =>
    procedure.WellScoped primitives place.procedures ∧ StatementsWellScoped primitives place block
  | .comment _ _ :: block | .blank _ :: block | .series _ :: block =>
    StatementsWellScoped primitives place block

/-- The procedure is well scoped where `procedures` are declared, be it called or not. -/
def Procedure.WellScoped (primitives procedures : List Identifier) : Procedure → Prop
  | ⟨_, _, parameters, _, block⟩ =>
    parameters.Nodup ∧ (declaredNames block).Nodup ∧
      StatementsWellScoped primitives ⟨parameters, [], declaredNames block ++ procedures⟩ block

end

/-- There is a procedure to begin with, and all are well scoped and of different names. -/
def Document.WellScoped (primitives : List Identifier) (document : Document) : Prop :=
  let names := document.procedures.map Procedure.name
  document.procedures ≠ [] ∧ names.Nodup ∧
    ∀ procedure ∈ document.procedures, procedure.WellScoped primitives names

/-- The scope gives meanings to the names of the vicinity and to no others. -/
structure Scope.Shows (scope : Scope) (place : Vicinity) : Prop where
  inner : ∀ name, scope.names.holds name = true ↔ name ∈ place.inner
  visible : ∀ name, (scope.names.get? name).isSome ↔ name ∈ place.inner ∨ name ∈ place.outer
  procedures : ∀ name, (scope.procedures.get? name).isSome ↔ name ∈ place.procedures

namespace Scope.Shows

variable {scope : Scope} {place : Vicinity}

theorem bindAll (shown : scope.Shows place) (names : List Name) :
    (scope.bindAll names).Shows (place.bind (names.map Name.identifier)) where
  inner name := by
    rw [holds_bindAll, shown.inner]
    simp only [Vicinity.bind, List.mem_append]
  visible name := by
    rw [isSome_bindAll, shown.visible]
    simp only [Vicinity.bind, List.mem_append, or_assoc]
  procedures name := by
    rw [bindAll_procedures, shown.procedures]
    simp only [Vicinity.bind]

theorem enter (shown : scope.Shows place) (setting : Setting) (first : Callee) (block : Block) :
    ((scope.restrict setting).declareAll first (declarations block)).Shows
      (place.enter block) where
  inner name := by simp [restrict, Vicinity.enter]
  visible name := by
    simp only [declareAll_names, restrict, Levels.get?_push, shown.visible, Vicinity.enter]
    simp
  procedures name := by
    rw [isSome_declareAll]
    simp only [restrict, Levels.get?_push, shown.procedures, Vicinity.enter, List.mem_append,
      declaredNames]

theorem body {procedures : List Identifier}
    (shown : ∀ name, (scope.procedures.get? name).isSome ↔ name ∈ procedures)
    (names : List Name) (first : Callee) (block : Block) :
    ((scope.body.bindAll names).declareAll first (declarations block)).Shows
      ⟨names.map Name.identifier, [], declaredNames block ++ procedures⟩ where
  inner name := by
    rw [declareAll_names, holds_bindAll]
    simp [Scope.body, Levels.empty, Levels.holds]
  visible name := by
    rw [declareAll_names, isSome_bindAll]
    simp [Scope.body]
  procedures name := by
    rw [isSome_declareAll, bindAll_procedures]
    simp only [Scope.body, Levels.get?_push, shown, List.mem_append, declaredNames]

end Scope.Shows

namespace Lowering

variable {context : Context}

def Succeeds {α : Type} (part : Lowering α) (before : Progress) : Prop :=
  ∃ result after, Makes part before result after

theorem reference_meant_iff {scope : Scope} {place : Vicinity} (shown : scope.Shows place)
    (identifiers : List Identifier) :
    (∃ names : List Name, identifiers.map scope.names.get? = names.map some) ↔
      ∀ identifier ∈ identifiers, identifier ∈ place.inner ∨ identifier ∈ place.outer := by
  induction identifiers with
  | nil => simp
  | cons identifier identifiers ih =>
      rw [List.forall_mem_cons, ← ih, ← shown.visible]
      constructor
      · rintro ⟨names, same⟩
        cases names with
        | nil => cases same
        | cons name names =>
            simp only [List.map_cons, List.cons.injEq] at same
            exact ⟨by rw [same.1]; rfl, names, same.2⟩
      · rintro ⟨found, names, same⟩
        obtain ⟨name, found⟩ := Option.isSome_iff_exists.mp found
        exact ⟨name :: names, by rw [List.map_cons, List.map_cons, found, same]⟩

/-- A block succeeds if its statements do and all bodies of its procedures. -/
theorem inScope_succeeds_iff {scope : Scope} {place : Vicinity} {block : Block}
    {before : Progress} (new : ∀ name, scope.procedures.holds name = false)
    (shown : ∀ first, (scope.declareAll first (declarations block)).Shows place)
    (statements : ∀ {inner : Scope} {before : Progress}, inner.Shows place →
      ((Succeeds (lowerStatements context inner block) before ∧
          ∀ procedure ∈ declarations block,
            procedure.WellScoped context.primitives place.procedures) ↔
        StatementsWellScoped context.primitives place block))
    (bodies : ∀ {inner : Scope} {callee : Callee} {before : Progress},
      (∀ name, (inner.procedures.get? name).isSome ↔ name ∈ place.procedures) →
      (Succeeds (lowerBodies context inner callee block) before ↔
        ∀ procedure ∈ declarations block,
          procedure.WellScoped context.primitives place.procedures)) :
    Succeeds (inScope scope block (fun scope => lowerStatements context scope block)
        (fun scope first => lowerBodies context scope first block)) before ↔
      (declaredNames block).Nodup ∧ StatementsWellScoped context.primitives place block := by
  have shown := shown before.callees
  rw [← @statements _ { before with callees := before.callees + (declarations block).length }
    shown]
  simp only [Succeeds, makes_inScope, new, implies_true, and_true, declaredNames]
  constructor
  · rintro ⟨sequence, after, distinct, inner, middle, made, rest⟩
    have same := lowerStatements_procedures made
    refine ⟨distinct, ⟨(sequence, inner), middle, made⟩, ?_⟩
    exact (bodies fun name => by rw [same]; exact shown.procedures name).mp ⟨(), after, rest⟩
  · rintro ⟨distinct, ⟨⟨sequence, inner⟩, middle, made⟩, wellScoped⟩
    have same := lowerStatements_procedures made
    obtain ⟨_, after, rest⟩ :=
      (bodies fun name => by rw [same]; exact shown.procedures name).mpr wellScoped
    exact ⟨sequence, after, distinct, inner, middle, made, rest⟩

mutual

theorem lowerExpression_succeeds_iff {scope : Scope} {place : Vicinity} (shown : scope.Shows place)
    (before : Progress) : ∀ expression : Expression,
      Succeeds (lowerExpression context scope expression) before ↔
        expression.WellScoped context.primitives place
  | .application offset name argument => by
      rw [Expression.WellScoped, ← lowerExpression_succeeds_iff shown before argument,
        ← shown.procedures]
      simp only [Succeeds, makes_application]
      constructor
      · rintro ⟨_, after, entries, made, ⟨callee, found, _⟩ | ⟨_, member, _⟩⟩
        · exact ⟨.inl (by rw [found]; rfl), entries, after, made⟩
        · exact ⟨.inr member, entries, after, made⟩
      · rintro ⟨meant, entries, after, made⟩
        cases found : scope.procedures.get? name with
        | some callee => exact ⟨_, after, entries, made, .inl ⟨callee, rfl, rfl⟩⟩
        | none =>
            have member := meant.resolve_left (by rw [found]; simp)
            exact ⟨_, after, entries, made, .inr ⟨rfl, member, rfl⟩⟩
  | .unit offset => by simp [Succeeds, lowerExpression, Expression.WellScoped]
  | .text offset text => by simp [Succeeds, lowerExpression, Expression.WellScoped]
  | .amount offset quantity => by simp [Succeeds, lowerExpression, Expression.WellScoped]
  | .hole offset => by simp [Succeeds, lowerExpression, Expression.WellScoped]
  | .tablet offset fields => by
      rw [Expression.WellScoped, ← lowerFields_succeeds_iff shown before fields]
      simp only [Succeeds, makes_tablet]
      constructor
      · rintro ⟨_, after, steps, made, _⟩
        exact ⟨steps, after, made⟩
      · rintro ⟨steps, after, made⟩
        exact ⟨_, after, steps, made, rfl⟩
  | .reference offset identifiers => by
      rw [Expression.WellScoped, ← reference_meant_iff shown]
      simp only [Succeeds, makes_reference]
      constructor
      · rintro ⟨_, _, names, meant, _⟩
        exact ⟨names, meant⟩
      · rintro ⟨names, meant⟩
        exact ⟨_, _, names, meant, rfl, rfl⟩
  | .operation offset operator left right => by
      rw [Expression.WellScoped, ← lowerExpression_succeeds_iff shown before left]
      simp only [Succeeds, makes_operation]
      constructor
      · rintro ⟨_, after, first, middle, second, made, rest, _⟩
        exact ⟨⟨first, middle, made⟩,
          (lowerExpression_succeeds_iff shown middle right).mp ⟨second, after, rest⟩⟩
      · rintro ⟨⟨first, middle, made⟩, wellScoped⟩
        obtain ⟨second, after, rest⟩ :=
          (lowerExpression_succeeds_iff shown middle right).mpr wellScoped
        exact ⟨_, after, first, middle, second, made, rest, rfl⟩
  | .grouping offset inner => by
      rw [Expression.WellScoped, ← lowerExpression_succeeds_iff shown before inner]
      rfl
  | .restriction offset setting block => by
      rw [Expression.WellScoped, lowerExpression]
      exact inScope_succeeds_iff (fun _ => rfl) (fun first => shown.enter setting first block)
        (fun shown => lowerStatements_succeeds_iff shown _ block)
        (fun shown => lowerBodies_succeeds_iff shown _ _ block)

theorem lowerFields_succeeds_iff {scope : Scope} {place : Vicinity} (shown : scope.Shows place)
    (before : Progress) : ∀ fields : List (Label × Expression),
      Succeeds (lowerFields context scope fields) before ↔
        FieldsWellScoped context.primitives place fields
  | [] => by simp [Succeeds, lowerFields, FieldsWellScoped]
  | (label, value) :: fields => by
      rw [FieldsWellScoped, ← lowerExpression_succeeds_iff shown before value]
      simp only [Succeeds, makes_field]
      constructor
      · rintro ⟨_, after, entries, middle, others, made, rest, _⟩
        exact ⟨⟨entries, middle, made⟩,
          (lowerFields_succeeds_iff shown middle fields).mp ⟨others, after, rest⟩⟩
      · rintro ⟨⟨entries, middle, made⟩, wellScoped⟩
        obtain ⟨others, after, rest⟩ :=
          (lowerFields_succeeds_iff shown middle fields).mpr wellScoped
        exact ⟨_, after, entries, middle, others, made, rest, rfl⟩

/-- Of a block's procedures only the declarations are met before its statements, so their bodies
stand beside the statements. -/
theorem lowerStatements_succeeds_iff {scope : Scope} {place : Vicinity}
    (shown : scope.Shows place) (before : Progress) : ∀ block : List Statement,
      (Succeeds (lowerStatements context scope block) before ∧
          ∀ procedure ∈ declarations block,
            procedure.WellScoped context.primitives place.procedures) ↔
        StatementsWellScoped context.primitives place block
  | [] => by simp [Succeeds, lowerStatements, StatementsWellScoped, declarations]
  | .assignment offset targets value :: block => by
      have new : (∀ target ∈ targets, scope.names.holds target = false) ↔
          ∀ target ∈ targets, target ∉ place.inner :=
        forall₂_congr fun target _ => by rw [← shown.inner, Bool.not_eq_true]
      have after (names : List Name) (numbered : names.map Name.identifier = targets)
          (before : Progress) :=
        lowerStatements_succeeds_iff (numbered ▸ shown.bindAll names) before block
      rw [StatementsWellScoped, ← lowerExpression_succeeds_iff shown before value]
      simp only [Succeeds, Prod.exists, makes_assignment, new, declarations]
      constructor
      · rintro ⟨⟨_, _, _, ok, entries, middle, names, others, made, rfl, rest, _⟩, wellScoped⟩
        exact ⟨ok, ⟨entries, middle, made⟩,
          (after _ (Name.number_identifiers _ _) _).mp ⟨⟨_, _, rest⟩, wellScoped⟩⟩
      · rintro ⟨ok, ⟨entries, middle, made⟩, wellScoped⟩
        obtain ⟨⟨_, _, rest⟩, bodies⟩ :=
          (after (Name.number middle.names targets) (Name.number_identifiers _ _)
            { middle with names := middle.names + targets.length }).mpr wellScoped
        exact ⟨⟨_, _, _, ok, entries, middle, _, _, made, rfl, rest, rfl⟩, bodies⟩
  | .execute offset value :: block => by
      rw [StatementsWellScoped, ← lowerExpression_succeeds_iff shown before value]
      simp only [Succeeds, Prod.exists, makes_execute, declarations]
      constructor
      · rintro ⟨⟨_, _, _, entries, middle, others, made, rest, _⟩, wellScoped⟩
        exact ⟨⟨entries, middle, made⟩,
          (lowerStatements_succeeds_iff shown middle block).mp ⟨⟨_, _, rest⟩, wellScoped⟩⟩
      · rintro ⟨⟨entries, middle, made⟩, wellScoped⟩
        obtain ⟨⟨⟨others, inner⟩, after, rest⟩, bodies⟩ :=
          (lowerStatements_succeeds_iff shown middle block).mpr wellScoped
        exact ⟨⟨_, _, _, entries, middle, others, made, rest, rfl⟩, bodies⟩
  | .declaration offset procedure :: block => by
      rw [StatementsWellScoped, ← lowerStatements_succeeds_iff shown before block]
      simp only [lowerStatements, declarations, List.forall_mem_cons]
      exact and_left_comm
  | .comment _ _ :: block => by
      rw [StatementsWellScoped, ← lowerStatements_succeeds_iff shown before block]
      rfl
  | .blank _ :: block => by
      rw [StatementsWellScoped, ← lowerStatements_succeeds_iff shown before block]
      rfl
  | .series _ :: block => by
      rw [StatementsWellScoped, ← lowerStatements_succeeds_iff shown before block]
      rfl

theorem lowerBodies_succeeds_iff {scope : Scope} {procedures : List Identifier}
    (shown : ∀ name, (scope.procedures.get? name).isSome ↔ name ∈ procedures)
    (callee : Callee) (before : Progress) : ∀ block : List Statement,
      Succeeds (lowerBodies context scope callee block) before ↔
        ∀ procedure ∈ declarations block,
          procedure.WellScoped context.primitives procedures
  | [] => by simp [Succeeds, lowerBodies, declarations]
  | .assignment _ _ _ :: block => lowerBodies_succeeds_iff shown callee before block
  | .execute _ _ :: block => lowerBodies_succeeds_iff shown callee before block
  | .declaration offset procedure :: block => by
      rw [declarations, List.forall_mem_cons,
        ← lowerProcedure_succeeds_iff shown before procedure]
      simp only [Succeeds, makes_declaration]
      constructor
      · rintro ⟨_, after, routine, middle, made, rest⟩
        exact ⟨⟨routine, middle, made⟩,
          (lowerBodies_succeeds_iff shown _ _ block).mp ⟨_, after, rest⟩⟩
      · rintro ⟨⟨routine, middle, made⟩, wellScoped⟩
        obtain ⟨_, after, rest⟩ := (lowerBodies_succeeds_iff shown (callee + 1)
          { middle with library := middle.library.insert callee routine } block).mpr wellScoped
        exact ⟨_, after, routine, middle, made, rest⟩
  | .comment _ _ :: block => lowerBodies_succeeds_iff shown callee before block
  | .blank _ :: block => lowerBodies_succeeds_iff shown callee before block
  | .series _ :: block => lowerBodies_succeeds_iff shown callee before block

theorem lowerProcedure_succeeds_iff {scope : Scope} {procedures : List Identifier}
    (shown : ∀ name, (scope.procedures.get? name).isSome ↔ name ∈ procedures)
    (before : Progress) : ∀ procedure : Procedure,
      Succeeds (lowerProcedure context scope procedure) before ↔
        procedure.WellScoped context.primitives procedures
  | ⟨offset, name, parameters, signature, block⟩ => by
      have inside : Succeeds (inScope (scope.body.bindAll (Name.number before.names parameters))
            block (fun scope => lowerStatements context scope block)
            (fun scope first => lowerBodies context scope first block))
            { before with names := before.names + parameters.length } ↔ _ :=
        inScope_succeeds_iff (fun _ => by rw [Scope.bindAll_procedures]; rfl)
          (fun first => by
            simpa only [Name.number_identifiers] using
              Scope.Shows.body shown (Name.number before.names parameters) first block)
          (fun shown => lowerStatements_succeeds_iff shown _ block)
          (fun shown => lowerBodies_succeeds_iff shown _ _ block)
      rw [Procedure.WellScoped, ← inside]
      simp only [Succeeds, makes_procedure]
      constructor
      · intro success
        obtain ⟨_, after, distinct, _, sequence, rfl, made, _⟩ := success
        exact ⟨distinct, sequence, after, made⟩
      · intro success
        obtain ⟨distinct, sequence, after, made⟩ := success
        exact ⟨_, after, distinct, _, sequence, rfl, made, rfl⟩

end

theorem lowerProcedures_succeeds_iff {scope : Scope} {names : List Identifier}
    (shown : ∀ name, (scope.procedures.get? name).isSome ↔ name ∈ names)
    (callee : Callee) (before : Progress) (procedures : List Procedure) :
    Succeeds (lowerProcedures context scope callee procedures) before ↔
      ∀ procedure ∈ procedures, procedure.WellScoped context.primitives names := by
  induction procedures generalizing callee before with
  | nil => simp [Succeeds, lowerProcedures]
  | cons procedure procedures ih =>
      rw [List.forall_mem_cons, ← lowerProcedure_succeeds_iff shown before procedure]
      simp only [Succeeds, makes_lowerProcedures]
      constructor
      · intro success
        obtain ⟨_, after, routine, middle, made, rest⟩ := success
        exact ⟨⟨routine, middle, made⟩, (ih _ _).mp ⟨_, after, rest⟩⟩
      · intro success
        obtain ⟨⟨routine, middle, made⟩, wellScoped⟩ := success
        obtain ⟨_, after, rest⟩ := (ih (callee + 1)
          { middle with library := middle.library.insert callee routine }).mpr wellScoped
        exact ⟨_, after, routine, middle, made, rest⟩

end Lowering

/-- Exactly the well scoped documents compile, whatever text they are taken to be. -/
theorem Document.compiles_iff_wellScoped (document : Document) (source : Source)
    (primitives : List Identifier) :
    (∃ routine, document.compile source primitives = .ok routine) ↔
      document.WellScoped primitives := by
  have shown (name : Identifier) :
      ((Scope.root.declareAll 0 document.procedures).procedures.get? name).isSome ↔
        name ∈ document.procedures.map Procedure.name := by
    rw [Scope.isSome_declareAll]
    simp [Scope.root]
  have compiled := @Lowering.lowerProcedures_succeeds_iff ⟨source.contents.toList, primitives⟩ _ _
    shown 0 ⟨0, document.procedures.length, []⟩ document.procedures
  simp only [Document.compile_eq_ok, Lowering.makes_document, WellScoped]
  rw [← compiled]
  constructor
  · intro success
    obtain ⟨routine, distinct, after, main, made, found, _⟩ := success
    refine ⟨fun empty => ?_, distinct, (), after, made⟩
    rw [empty] at made
    obtain ⟨_, rfl⟩ := Lowering.makes_pure.mp made
    cases found
  · intro success
    obtain ⟨nonempty, distinct, _, after, made⟩ := success
    have advances := Lowering.lowerProcedures_advances made (Nat.le_of_eq (Nat.zero_add _))
    have found : (after.library.get? 0).isSome := by
      have := List.length_pos_iff.mpr nonempty
      refine advances.compiled 0 (.inl ?_) (Nat.lt_of_lt_of_le this advances.callees)
      simpa only [List.mem_range'_1, Nat.zero_add, Nat.le_refl, true_and] using this
    obtain ⟨main, found⟩ := Option.isSome_iff_exists.mp found
    exact ⟨_, distinct, after, main, made, found, rfl⟩

end Runbook
