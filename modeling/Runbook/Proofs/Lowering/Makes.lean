import Runbook.Program.Lowering
import Mathlib.Data.List.Nodup
import Mathlib.Data.List.Forall2

/-!
What the parts of a lowering make.

`Makes part before result after` says that a part succeeds. Each small part has one lemma that says
when it does and what it gives, so that no later proof opens one; names and callees are numbered on
from those that were made before.
-/
namespace Runbook

/-- Names for identifiers, numbered from `first` on. -/
def Name.number (first : Nat) : List Identifier → List Name
  | [] => []
  | identifier :: identifiers => ⟨first, identifier⟩ :: number (first + 1) identifiers

@[simp] theorem Name.number_identifiers (first : Nat) (identifiers : List Identifier) :
    (number first identifiers).map Name.identifier = identifiers := by
  induction identifiers generalizing first with
  | nil => rfl
  | cons identifier identifiers ih => simp only [number, List.map_cons, ih]

theorem Name.number_indices (first : Nat) (identifiers : List Identifier) :
    (number first identifiers).map Name.index = List.range' first identifiers.length := by
  induction identifiers generalizing first with
  | nil => rfl
  | cons identifier identifiers ih => simp only [number, List.map_cons, ih, List.length_cons,
      List.range'_succ]

namespace Scope

def bindAll (scope : Scope) : List Name → Scope
  | [] => scope
  | name :: names => (scope.bind name.identifier name).bindAll names

/-- Declares procedures, numbered from `first` on. -/
def declareAll (scope : Scope) (first : Callee) : List Procedure → Scope
  | [] => scope
  | procedure :: procedures =>
    (scope.declare procedure.name first).declareAll (first + 1) procedures

@[simp] theorem bindAll_procedures (scope : Scope) (names : List Name) :
    (scope.bindAll names).procedures = scope.procedures := by
  induction names generalizing scope with
  | nil => rfl
  | cons name names ih => exact ih _

@[simp] theorem bindAll_setting (scope : Scope) (names : List Name) :
    (scope.bindAll names).setting = scope.setting := by
  induction names generalizing scope with
  | nil => rfl
  | cons name names ih => exact ih _

@[simp] theorem declareAll_names (scope : Scope) (first : Callee) (procedures : List Procedure) :
    (scope.declareAll first procedures).names = scope.names := by
  induction procedures generalizing scope first with
  | nil => rfl
  | cons procedure procedures ih => exact ih _ _

@[simp] theorem declareAll_setting (scope : Scope) (first : Callee)
    (procedures : List Procedure) :
    (scope.declareAll first procedures).setting = scope.setting := by
  induction procedures generalizing scope first with
  | nil => rfl
  | cons procedure procedures ih => exact ih _ _

theorem holds_bindAll (scope : Scope) (names : List Name) (asked : Identifier) :
    (scope.bindAll names).names.holds asked ↔
      asked ∈ names.map Name.identifier ∨ scope.names.holds asked := by
  induction names generalizing scope with
  | nil => simp [bindAll]
  | cons name names ih =>
      rw [bindAll, ih]
      simp only [bind, Levels.holds_bind, Bool.or_eq_true, beq_iff_eq, List.map_cons,
        List.mem_cons]
      tauto

theorem isSome_bindAll (scope : Scope) (names : List Name) (asked : Identifier) :
    ((scope.bindAll names).names.get? asked).isSome ↔
      asked ∈ names.map Name.identifier ∨ (scope.names.get? asked).isSome := by
  induction names generalizing scope with
  | nil => simp [bindAll]
  | cons name names ih =>
      rw [bindAll, ih]
      by_cases same : asked = name.identifier
      · simp [bind, Levels.get?_bind, same]
      · simp [bind, Levels.get?_bind, same]

theorem isSome_declareAll (scope : Scope) (first : Callee) (procedures : List Procedure)
    (asked : Identifier) :
    ((scope.declareAll first procedures).procedures.get? asked).isSome ↔
      asked ∈ procedures.map Procedure.name ∨ (scope.procedures.get? asked).isSome := by
  induction procedures generalizing scope first with
  | nil => simp [declareAll]
  | cons procedure procedures ih =>
      rw [declareAll, ih]
      by_cases same : asked = procedure.name
      · simp [declare, Levels.get?_bind, same]
      · simp [declare, Levels.get?_bind, same]

end Scope

namespace Lowering

/-- After `before`, the part gives the result and leaves `after`. -/
def Makes {α : Type} (part : Lowering α) (before : Progress) (result : α) (after : Progress) :
    Prop := part.run before = .ok (result, after)

section
variable {α β : Type} {before after : Progress}

@[simp] theorem makes_pure {a b : α} :
    Makes (pure a) before b after ↔ b = a ∧ after = before := by
  constructor
  · intro made
    cases made
    exact ⟨rfl, rfl⟩
  · rintro ⟨rfl, rfl⟩
    rfl

@[simp] theorem makes_bind {part : Lowering α} {next : α → Lowering β} {b : β} :
    Makes (part >>= next) before b after ↔
      ∃ a middle, Makes part before a middle ∧ Makes (next a) middle b after := by
  simp only [Makes, StateT.run_bind]
  cases part.run before with
  | error misuse =>
      constructor
      · intro made
        cases made
      · rintro ⟨a, middle, first, second⟩
        cases first
  | ok result =>
      constructor
      · intro made
        exact ⟨result.1, result.2, rfl, made⟩
      · rintro ⟨a, middle, first, second⟩
        cases first
        exact second

@[simp] theorem makes_map {part : Lowering α} {f : α → β} {b : β} :
    Makes (f <$> part) before b after ↔ ∃ a, Makes part before a after ∧ b = f a := by
  rw [map_eq_pure_bind]
  simp only [makes_bind, makes_pure]
  constructor
  · rintro ⟨a, middle, made, rfl, rfl⟩
    exact ⟨a, made, rfl⟩
  · rintro ⟨a, made, rfl⟩
    exact ⟨a, after, made, rfl, rfl⟩

@[simp] theorem makes_refuse {offset : Nat} {reason : Reason} {a : α} :
    ¬ Makes (refuse offset reason) before a after := by
  intro made
  cases made

@[simp] theorem makes_get {a : Progress} :
    Makes get before a after ↔ a = before ∧ after = before := makes_pure

@[simp] theorem makes_set {progress : Progress} {a : PUnit} :
    Makes (set progress) before a after ↔ after = progress := by
  constructor
  · intro made
    cases made
    rfl
  · rintro rfl
    rfl

@[simp] theorem makes_keep {callee : Callee} {routine : Routine} {a : PUnit} :
    Makes (keep callee routine) before a after ↔
      after = { before with library := before.library.insert callee routine } := by
  constructor
  · intro made
    cases made
    rfl
  · rintro rfl
    rfl

end

section
-- The proofs below would all wait for these equations. Here they are made beforehand.
attribute [local simp] lowerExpression lowerFields lowerStatements lowerBodies lowerProcedure
end

variable {context : Context} {scope : Scope} {before after : Progress}

@[simp] theorem makes_fresh {identifier : Identifier} {name : Name} :
    Makes (fresh identifier) before name after ↔
      name = ⟨before.names, identifier⟩ ∧ after = { before with names := before.names + 1 } := by
  simp only [fresh, makes_bind, makes_get, makes_set, makes_pure]
  constructor
  · rintro ⟨_, _, ⟨rfl, rfl⟩, _, _, rfl, rfl, rfl⟩
    exact ⟨rfl, rfl⟩
  · rintro ⟨rfl, rfl⟩
    exact ⟨_, _, ⟨rfl, rfl⟩, ⟨⟩, _, rfl, rfl, rfl⟩

theorem makes_declareAll_go {progress : Progress} {procedures : List Procedure}
    {inner : Scope} {next first : Callee} :
    Makes (declareAll.go progress scope next procedures) before (first, inner) after ↔
      ((procedures.map Procedure.name).Nodup ∧
        ∀ procedure ∈ procedures, scope.procedures.holds procedure.name = false) ∧
      first = progress.callees ∧ inner = scope.declareAll next procedures ∧
      after = { progress with callees := next + procedures.length } := by
  induction procedures generalizing scope next with
  | nil =>
      simp only [declareAll.go, makes_bind, makes_set, makes_pure, Prod.mk.injEq]
      simp [Scope.declareAll]
      tauto
  | cons procedure procedures ih =>
      rw [declareAll.go]
      cases held : scope.procedures.holds procedure.name with
      | true => simp [held]
      | false =>
          have length : next + 1 + procedures.length = next + (procedures.length + 1) := by
            rw [Nat.add_assoc, Nat.add_comm 1]
          simp only [Bool.false_eq_true, if_false, ih, Scope.declare, Levels.holds_bind,
            Bool.or_eq_false_iff, beq_eq_false_iff_ne, List.map_cons, List.nodup_cons,
            List.mem_map, not_exists, not_and, List.mem_cons, forall_eq_or_imp, held, true_and,
            Scope.declareAll, List.length_cons, length]
          constructor
          · rintro ⟨⟨distinct, new⟩, made⟩
            exact ⟨⟨⟨fun other member => (new other member).1, distinct⟩,
              fun other member => (new other member).2⟩, made⟩
          · rintro ⟨⟨⟨other, distinct⟩, new⟩, made⟩
            exact ⟨⟨distinct, fun procedure member => ⟨other procedure member,
              new procedure member⟩⟩, made⟩

theorem makes_declareAll {procedures : List Procedure} {first : Callee} {inner : Scope} :
    Makes (Lowering.declareAll scope procedures) before (first, inner) after ↔
      ((procedures.map Procedure.name).Nodup ∧
        ∀ procedure ∈ procedures, scope.procedures.holds procedure.name = false) ∧
      first = before.callees ∧ inner = scope.declareAll before.callees procedures ∧
      after = { before with callees := before.callees + procedures.length } := by
  simp only [Lowering.declareAll, makes_bind, makes_get]
  constructor
  · rintro ⟨_, _, ⟨rfl, rfl⟩, made⟩
    exact makes_declareAll_go.mp made
  · intro made
    exact ⟨before, before, ⟨rfl, rfl⟩, makes_declareAll_go.mpr made⟩

theorem makes_bindTargets {targets : List Identifier} {names : List Name} {inner : Scope} :
    Makes (bindTargets scope targets) before (names, inner) after ↔
      names = Name.number before.names targets ∧ inner = scope.bindAll names ∧
      after = { before with names := before.names + targets.length } := by
  induction targets generalizing before scope names inner after with
  | nil =>
      simp only [bindTargets, makes_pure, Prod.mk.injEq]
      simp only [Name.number, List.length_nil, Nat.add_zero, and_assoc]
      constructor
      · rintro ⟨rfl, rfl, rfl⟩
        exact ⟨rfl, rfl, rfl⟩
      · rintro ⟨rfl, rfl, rfl⟩
        exact ⟨rfl, rfl, rfl⟩
  | cons target targets ih =>
      simp only [bindTargets, makes_bind, makes_fresh, makes_pure, Prod.exists, ih,
        Prod.mk.injEq, Name.number, List.length_cons]
      constructor
      · rintro ⟨_, _, ⟨rfl, rfl⟩, _, _, _, ⟨rfl, rfl, rfl⟩, ⟨rfl, rfl⟩, rfl⟩
        exact ⟨rfl, rfl, by simp only [Nat.add_assoc, Nat.add_comm 1]⟩
      · rintro ⟨rfl, rfl, rfl⟩
        exact ⟨_, _, ⟨rfl, rfl⟩, _, _, _, ⟨rfl, rfl, rfl⟩, ⟨rfl, rfl⟩,
          by simp only [Nat.add_assoc, Nat.add_comm 1]⟩

/-- The parameters are bound as targets are, if they are new. -/
theorem makes_bindParameters {cursor : Nat} {parameters : List Identifier} {names : List Name}
    {inner : Scope} :
    Makes (bindParameters context scope cursor parameters) before (names, inner) after ↔
      (parameters.Nodup ∧ ∀ parameter ∈ parameters, scope.names.holds parameter = false) ∧
      Makes (bindTargets scope parameters) before (names, inner) after := by
  induction parameters generalizing before scope cursor names inner after with
  | nil => simp [bindParameters, bindTargets]
  | cons parameter parameters ih =>
      rw [bindParameters, bindTargets]
      cases held : scope.names.holds parameter with
      | true => simp [held]
      | false =>
          simp only [Bool.false_eq_true, if_false, makes_bind, Prod.exists, ih, makes_fresh]
          simp only [Scope.bind, Levels.holds_bind,
            Bool.or_eq_false_iff, beq_eq_false_iff_ne, List.nodup_cons, List.mem_cons,
            forall_eq_or_imp, held, true_and]
          constructor
          · rintro ⟨_, _, fresh, _, _, _, ⟨⟨distinct, new⟩, bound⟩, made⟩
            exact ⟨⟨⟨fun member => (new _ member).1 rfl, distinct⟩,
              fun other member => (new other member).2⟩, _, _, fresh, _, _, _, bound, made⟩
          · rintro ⟨⟨⟨other, distinct⟩, new⟩, _, _, fresh, _, _, _, bound, made⟩
            exact ⟨_, _, fresh, _, _, _, ⟨⟨distinct, fun parameter member =>
              ⟨fun same => other (same ▸ member), new parameter member⟩⟩, bound⟩, made⟩

theorem makes_checkTargets {cursor : Nat} {earlier targets : List Identifier} {a : Unit} :
    Makes (checkTargets context scope cursor earlier targets) before a after ↔
      (targets.Nodup ∧ ∀ target ∈ targets, scope.names.holds target = false ∧ target ∉ earlier) ∧
      after = before := by
  induction targets generalizing cursor earlier with
  | nil => simp [checkTargets]
  | cons target targets ih =>
      rw [checkTargets]
      by_cases held : scope.names.holds target ∨ target ∈ earlier
      · simp only [held, if_true, makes_refuse, false_iff]
        rintro ⟨⟨_, new⟩, _⟩
        have := new target List.mem_cons_self
        simp [this] at held
      · simp only [held, if_false, ih]
        simp only [not_or, Bool.not_eq_true] at held
        simp only [List.mem_cons, not_or, List.nodup_cons, forall_eq_or_imp, held,
          not_false_eq_true, and_self, true_and]
        refine and_congr_left fun _ => ?_
        constructor
        · rintro ⟨distinct, new⟩
          exact ⟨⟨fun member => (new _ member).2.1 rfl, distinct⟩,
            fun other member => ⟨(new other member).1, (new other member).2.2⟩⟩
        · rintro ⟨⟨other, distinct⟩, new⟩
          exact ⟨distinct, fun target member =>
            ⟨(new target member).1, fun same => other (same ▸ member), (new target member).2⟩⟩

theorem makes_lowerReads {cursor : Nat} {identifiers : List Identifier} {reads : List Step} :
    Makes (lowerReads context scope cursor identifiers) before reads after ↔
      (∃ names : List Name, identifiers.map scope.names.get? = names.map some ∧
        reads = names.map Step.read) ∧ after = before := by
  induction identifiers generalizing cursor reads after with
  | nil => simp [lowerReads]
  | cons identifier identifiers ih =>
      rw [lowerReads]
      cases found : scope.names.get? identifier with
      | none =>
          simp only [found, makes_refuse, false_iff, List.map_cons]
          rintro ⟨⟨names, same, _⟩, _⟩
          cases names <;> simp at same
      | some name =>
          simp only [makes_bind, ih, makes_pure, found, List.map_cons]
          constructor
          · rintro ⟨_, _, ⟨⟨names, same, rfl⟩, rfl⟩, rfl, rfl⟩
            exact ⟨⟨name :: names, by rw [same, List.map_cons], rfl⟩, rfl⟩
          · rintro ⟨⟨names, same, rfl⟩, rfl⟩
            cases names with
            | nil => cases same
            | cons other names =>
                simp only [List.map_cons, List.cons.injEq, Option.some.injEq] at same
                obtain ⟨rfl, same⟩ := same
                exact ⟨_, _, ⟨⟨names, same, rfl⟩, rfl⟩, rfl, rfl⟩

theorem makes_target {offset : Nat} {name : Identifier} {apply : Step → Step} :
    Makes (target context scope offset name) before apply after ↔
      ((∃ callee, scope.procedures.get? name = some callee ∧ apply = .call callee) ∨
        (scope.procedures.get? name = none ∧ name ∈ context.primitives ∧
          apply = .invoke name)) ∧ after = before := by
  rw [target]
  cases found : scope.procedures.get? name with
  | some callee => simp
  | none =>
      by_cases member : name ∈ context.primitives
      · simp [member]
      · simp [member]

/-! What is made of each construct. -/

theorem makes_application {offset : Nat} {name : Identifier} {argument : Expression}
    {sequence : Sequence} :
    Makes (lowerExpression context scope (.application offset name argument)) before sequence
        after ↔
      ∃ entries, Makes (lowerExpression context scope argument) before entries after ∧
        ((∃ callee, scope.procedures.get? name = some callee ∧
            sequence = [⟨scope.setting, .call callee entries.toStep⟩]) ∨
          (scope.procedures.get? name = none ∧ name ∈ context.primitives ∧
            sequence = [⟨scope.setting, .invoke name entries.toStep⟩])) := by
  simp only [lowerExpression, makes_bind, makes_target, makes_pure]
  constructor
  · rintro ⟨_, _, ⟨⟨callee, found, rfl⟩ | ⟨missing, member, rfl⟩, rfl⟩, entries, _, made, rfl, rfl⟩
    · exact ⟨entries, made, .inl ⟨callee, found, rfl⟩⟩
    · exact ⟨entries, made, .inr ⟨missing, member, rfl⟩⟩
  · rintro ⟨entries, made, ⟨callee, found, rfl⟩ | ⟨missing, member, rfl⟩⟩
    · exact ⟨_, before, ⟨.inl ⟨callee, found, rfl⟩, rfl⟩, entries, after, made, rfl, rfl⟩
    · exact ⟨_, before, ⟨.inr ⟨missing, member, rfl⟩, rfl⟩, entries, after, made, rfl, rfl⟩

theorem makes_tablet {offset : Nat} {fields : List (Label × Expression)} {sequence : Sequence} :
    Makes (lowerExpression context scope (.tablet offset fields)) before sequence after ↔
      ∃ steps, Makes (lowerFields context scope fields) before steps after ∧
        sequence = [⟨scope.setting, .literal (.tablet steps)⟩] := by
  simp only [lowerExpression, bind_pure_comp, makes_map]

theorem makes_reference {offset : Nat} {identifiers : List Identifier} {sequence : Sequence} :
    Makes (lowerExpression context scope (.reference offset identifiers)) before sequence after ↔
      ∃ names : List Name, identifiers.map scope.names.get? = names.map some ∧
        sequence = [⟨scope.setting, .tuple (names.map .read)⟩] ∧ after = before := by
  simp only [lowerExpression, bind_pure_comp, makes_map, makes_lowerReads]
  constructor
  · rintro ⟨_, ⟨⟨names, meant, rfl⟩, rfl⟩, rfl⟩
    exact ⟨names, meant, rfl, rfl⟩
  · rintro ⟨names, meant, rfl, rfl⟩
    exact ⟨_, ⟨⟨names, meant, rfl⟩, rfl⟩, rfl⟩

theorem makes_operation {offset : Nat} {operator : Operator} {left right : Expression}
    {sequence : Sequence} :
    Makes (lowerExpression context scope (.operation offset operator left right)) before sequence
        after ↔
      ∃ first middle second, Makes (lowerExpression context scope left) before first middle ∧
        Makes (lowerExpression context scope right) middle second after ∧
        sequence =
          [⟨scope.setting, .invoke operator.primitive (.tuple [first.toStep, second.toStep])⟩] := by
  simp only [lowerExpression, bind_pure_comp, makes_map, makes_bind]
  constructor
  · rintro ⟨first, middle, left, second, right, rfl⟩
    exact ⟨first, middle, second, left, right, rfl⟩
  · rintro ⟨first, middle, second, left, right, rfl⟩
    exact ⟨first, middle, left, second, right, rfl⟩

theorem makes_field {label : Label} {value : Expression} {fields : List (Label × Expression)}
    {steps : List (Label × Step)} :
    Makes (lowerFields context scope ((label, value) :: fields)) before steps after ↔
      ∃ entries middle others, Makes (lowerExpression context scope value) before entries middle ∧
        Makes (lowerFields context scope fields) middle others after ∧
        steps = (label, entries.toStep) :: others := by
  simp only [lowerFields, bind_pure_comp, makes_map, makes_bind]
  constructor
  · rintro ⟨entries, middle, first, others, rest, rfl⟩
    exact ⟨entries, middle, others, first, rest, rfl⟩
  · rintro ⟨entries, middle, others, first, rest, rfl⟩
    exact ⟨entries, middle, first, others, rest, rfl⟩

theorem makes_assignment {offset : Nat} {targets : List Identifier} {value : Expression}
    {block : Block} {sequence : Sequence} {inner : Scope} :
    Makes (lowerStatements context scope (.assignment offset targets value :: block)) before
        (sequence, inner) after ↔
      (targets.Nodup ∧ ∀ target ∈ targets, scope.names.holds target = false) ∧
      ∃ entries middle names others,
        Makes (lowerExpression context scope value) before entries middle ∧
        names = Name.number middle.names targets ∧
        Makes (lowerStatements context (scope.bindAll names) block)
          { middle with names := middle.names + targets.length } (others, inner) after ∧
        sequence = ⟨scope.setting, .bind names entries.toStep⟩ :: others := by
  simp only [lowerStatements, makes_bind, makes_checkTargets, makes_bindTargets, Prod.exists,
    makes_pure, Prod.mk.injEq, List.not_mem_nil, not_false_eq_true, and_true]
  constructor
  · rintro ⟨_, _, ⟨new, rfl⟩, entries, middle, first, names, _, _, ⟨numbered, rfl, rfl⟩, others,
      _, _, rest, ⟨rfl, rfl⟩, rfl⟩
    exact ⟨new, entries, middle, names, others, first, numbered, rest, rfl⟩
  · rintro ⟨new, entries, middle, names, others, first, numbered, rest, rfl⟩
    exact ⟨⟨⟩, before, ⟨new, rfl⟩, entries, middle, first, names, _, _, ⟨numbered, rfl, rfl⟩,
      others, inner, after, rest, ⟨rfl, rfl⟩, rfl⟩

theorem makes_execute {offset : Nat} {value : Expression} {block : Block} {sequence : Sequence}
    {inner : Scope} :
    Makes (lowerStatements context scope (.execute offset value :: block)) before
        (sequence, inner) after ↔
      ∃ entries middle others, Makes (lowerExpression context scope value) before entries middle ∧
        Makes (lowerStatements context scope block) middle (others, inner) after ∧
        sequence = entries ++ others := by
  simp only [lowerStatements, makes_bind, Prod.exists, makes_pure, Prod.mk.injEq]
  constructor
  · rintro ⟨entries, middle, first, others, _, _, rest, ⟨rfl, rfl⟩, rfl⟩
    exact ⟨entries, middle, others, first, rest, rfl⟩
  · rintro ⟨entries, middle, others, first, rest, rfl⟩
    exact ⟨entries, middle, first, others, inner, after, rest, ⟨rfl, rfl⟩, rfl⟩

/-- The statements of a block declare no procedure to the scope. -/
theorem lowerStatements_procedures {inner : Scope} {block : Block} {sequence : Sequence}
    (made : Makes (lowerStatements context scope block) before (sequence, inner) after) :
    inner.procedures = scope.procedures := by
  induction block generalizing scope sequence before after with
  | nil =>
      simp only [lowerStatements, makes_pure, Prod.mk.injEq] at made
      rw [made.1.2]
  | cons statement block ih =>
      cases statement with
      | assignment offset targets value =>
          obtain ⟨_, _, _, _, _, _, _, rest, _⟩ := makes_assignment.mp made
          rw [ih rest, Scope.bindAll_procedures]
      | execute offset value =>
          obtain ⟨_, _, _, _, rest, _⟩ := makes_execute.mp made
          exact ih rest
      | declaration offset procedure => exact ih made
      | comment offset text => exact ih made
      | blank offset => exact ih made
      | series offset => exact ih made

/-- The bodies of a block are those of its declarations. -/
theorem lowerBodies_declarations (scope : Scope) (callee : Callee) (block : List Statement) :
    lowerBodies context scope callee block =
      lowerProcedures context scope callee (declarations block) := by
  induction block generalizing callee with
  | nil => rfl
  | cons statement block ih =>
      cases statement with
      | declaration offset procedure =>
          rw [lowerBodies, declarations, lowerProcedures]
          simp only [ih]
      | _ => exact ih callee

theorem makes_declaration {offset : Nat} {procedure : Procedure} {block : Block}
    {callee : Callee} {a : Unit} :
    Makes (lowerBodies context scope callee (.declaration offset procedure :: block)) before a
        after ↔
      ∃ routine middle, Makes (lowerProcedure context scope procedure) before routine middle ∧
        Makes (lowerBodies context scope (callee + 1) block)
          { middle with library := middle.library.insert callee routine } a after := by
  simp only [lowerBodies, makes_bind, makes_keep]
  constructor
  · rintro ⟨routine, middle, made, _, _, rfl, rest⟩
    exact ⟨routine, middle, made, rest⟩
  · rintro ⟨routine, middle, made, rest⟩
    exact ⟨routine, middle, made, ⟨⟩, _, rfl, rest⟩

/-- A block in its own scope: declarations, statements, bodies. -/
theorem makes_inScope {block : Block} {statements : Scope → Lowering (Sequence × Scope)}
    {bodies : Scope → Callee → Lowering Unit} {sequence : Sequence} :
    Makes (inScope scope block statements bodies) before sequence after ↔
      (((declarations block).map Procedure.name).Nodup ∧
        ∀ procedure ∈ declarations block, scope.procedures.holds procedure.name = false) ∧
      ∃ inner middle,
        Makes (statements (scope.declareAll before.callees (declarations block)))
          { before with callees := before.callees + (declarations block).length }
          (sequence, inner) middle ∧
        Makes (bodies inner before.callees) middle () after := by
  simp only [inScope, makes_bind, makes_declareAll, makes_pure, Prod.exists]
  constructor
  · rintro ⟨_, _, _, ⟨new, rfl, rfl, rfl⟩, _, inner, middle, first, _, _, rest, rfl, rfl⟩
    exact ⟨new, inner, middle, first, rest⟩
  · rintro ⟨new, inner, middle, first, rest⟩
    exact ⟨_, _, _, ⟨new, rfl, rfl, rfl⟩, sequence, inner, middle, first, ⟨⟩, after, rest, rfl,
      rfl⟩

theorem makes_procedure {offset : Nat} {name : Identifier} {parameters : List Identifier}
    {signature : Option String} {block : Block} {routine : Routine} :
    Makes (lowerProcedure context scope ⟨offset, name, parameters, signature, block⟩) before
        routine after ↔
      parameters.Nodup ∧
      ∃ names sequence, names = Name.number before.names parameters ∧
        Makes (inScope (scope.body.bindAll names) block
            (fun scope => lowerStatements context scope block)
            (fun scope first => lowerBodies context scope first block))
          { before with names := before.names + parameters.length } sequence after ∧
        routine = ⟨⟨offset, name, parameters, signature, block⟩, names, sequence, []⟩ := by
  simp only [lowerProcedure, makes_bind, Prod.exists, makes_bindParameters, makes_bindTargets,
    makes_pure]
  constructor
  · rintro ⟨names, _, _, ⟨⟨distinct, _⟩, numbered, rfl, rfl⟩, sequence, _, made, rfl, rfl⟩
    exact ⟨distinct, names, sequence, numbered, made, rfl⟩
  · rintro ⟨distinct, names, sequence, numbered, made, rfl⟩
    exact ⟨names, _, _, ⟨⟨distinct, fun _ _ => rfl⟩, numbered, rfl, rfl⟩, sequence, after, made,
      rfl, rfl⟩

theorem makes_lowerProcedures {procedure : Procedure} {procedures : List Procedure}
    {callee : Callee} {a : Unit} :
    Makes (lowerProcedures context scope callee (procedure :: procedures)) before a after ↔
      ∃ routine middle, Makes (lowerProcedure context scope procedure) before routine middle ∧
        Makes (lowerProcedures context scope (callee + 1) procedures)
          { middle with library := middle.library.insert callee routine } a after := by
  simp only [lowerProcedures, makes_bind, makes_keep]
  constructor
  · rintro ⟨routine, middle, made, _, _, rfl, rest⟩
    exact ⟨routine, middle, made, rest⟩
  · rintro ⟨routine, middle, made, rest⟩
    exact ⟨routine, middle, made, ⟨⟩, _, rfl, rest⟩

def wholeDocument (context : Context) (document : Document) : Lowering Unit := do
  let (first, scope) ← Lowering.declareAll .root document.procedures
  lowerProcedures context scope first document.procedures

/-- The first procedure of a document, with what has been compiled. -/
def mainOf (progress : Progress) : Except Misuse Routine :=
  match Library.get? progress.library 0 with
  | some routine => pure { routine with library := progress.library }
  | none => throw ⟨0, .invalidSetup⟩

theorem mainOf_eq_ok {progress : Progress} {routine : Routine} :
    mainOf progress = .ok routine ↔ ∃ main, progress.library.get? 0 = some main ∧
      routine = { main with library := progress.library } := by
  rw [mainOf]
  cases progress.library.get? 0 with
  | none =>
      constructor
      · intro done
        cases done
      · intro found
        obtain ⟨main, found, _⟩ := found
        cases found
  | some main =>
      constructor
      · intro done
        cases done
        exact ⟨main, rfl, rfl⟩
      · intro found
        obtain ⟨_, found, rfl⟩ := found
        cases found
        rfl

theorem makes_wholeDocument {document : Document} {after : Progress} :
    Makes (wholeDocument context document) .start () after ↔
      (document.procedures.map Procedure.name).Nodup ∧
      Makes (lowerProcedures context (Scope.root.declareAll 0 document.procedures) 0
        document.procedures) ⟨0, document.procedures.length, []⟩ () after := by
  simp only [wholeDocument, makes_bind, makes_declareAll, Prod.exists]
  constructor
  · intro made
    obtain ⟨_, _, _, ⟨⟨distinct, _⟩, rfl, rfl, rfl⟩, part⟩ := made
    exact ⟨distinct, by simpa [Progress.start] using part⟩
  · intro made
    obtain ⟨distinct, part⟩ := made
    exact ⟨_, _, _, ⟨⟨distinct, fun _ _ => rfl⟩, rfl, rfl, rfl⟩,
      by simpa [Progress.start] using part⟩

/-- A document is compiled with its procedures declared in the root scope. -/
theorem makes_document {document : Document} {routine : Routine} :
    Lowering.document context document = .ok routine ↔
      (document.procedures.map Procedure.name).Nodup ∧
      ∃ after main,
        Makes (lowerProcedures context (Scope.root.declareAll 0 document.procedures) 0
          document.procedures) ⟨0, document.procedures.length, []⟩ () after ∧
        after.library.get? 0 = some main ∧ routine = { main with library := after.library } := by
  have unfolded : Lowering.document context document =
      (wholeDocument context document).run .start >>= fun result => mainOf result.2 := rfl
  have made (after : Progress) := @makes_wholeDocument context document after
  rw [unfolded]
  simp only [Makes] at made
  cases result : (wholeDocument context document).run .start with
  | error misuse =>
      simp only [result, reduceCtorEq, false_iff, not_and] at made
      constructor
      · intro done
        cases done
      · intro makes
        obtain ⟨distinct, after, _, part, _⟩ := makes
        exact absurd part (made after distinct)
  | ok pair =>
      simp only [result, Except.ok.injEq] at made
      change mainOf pair.2 = .ok routine ↔ _
      rw [mainOf_eq_ok]
      constructor
      · intro found
        obtain ⟨main, found, same⟩ := found
        obtain ⟨distinct, part⟩ := (made pair.2).mp rfl
        exact ⟨distinct, pair.2, main, part, found, same⟩
      · intro makes
        obtain ⟨distinct, after, main, part, found, same⟩ := makes
        obtain rfl := (made after).mpr ⟨distinct, part⟩
        exact ⟨main, found, same⟩

end Lowering

/-- Compiling is lowering in the text of the source. -/
theorem Document.compile_eq_ok {document : Document} {source : Source}
    {primitives : List Identifier} {routine : Routine} :
    document.compile source primitives = .ok routine ↔
      Lowering.document ⟨source.contents.toList, primitives⟩ document = .ok routine := by
  rw [Document.compile]
  cases Lowering.document ⟨source.contents.toList, primitives⟩ document with
  | error misuse => simp [Except.mapError]
  | ok made => simp [Except.mapError]

end Runbook
