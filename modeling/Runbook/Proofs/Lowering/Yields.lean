import Runbook.Proofs.Lowering.Members
import Runbook.Proofs.Lowering.Renumbering

/-!
Compiling, whatever the numbers.

The rules below compile a part of a document without counting: what it binds and declares gets any
numbers, and its yield lists them in the order in which they come up, with what its procedures are
compiled to. Compiling follows the rules, with numbers that go on from those that were given before;
and what the rules give for any numbers is compiled once these are put in order.
-/
namespace Runbook

/-- What a part of a document binds and declares, and what its procedures are compiled to. -/
structure Yield where
  names : List Name
  declared : List (Identifier × Callee)
  scripts : List (Callee × Script)

namespace Yield

def none : Yield := ⟨[], [], []⟩

def append (first rest : Yield) : Yield :=
  ⟨first.names ++ rest.names, first.declared ++ rest.declared, first.scripts ++ rest.scripts⟩

instance : Append Yield := ⟨append⟩

/-- The yield of names that are bound. -/
def bound (names : List Name) : Yield := ⟨names, [], []⟩

/-- The yield of procedures that are declared. -/
def declaring (declared : List (Identifier × Callee)) : Yield := ⟨[], declared, []⟩

/-- The yield of a procedure that is compiled. -/
def compiling (callee : Callee) (script : Script) : Yield := ⟨[], [], [(callee, script)]⟩

/-- The yield with other numbers. -/
def renumber (numbers : Renumbering) (yield : Yield) : Yield where
  names := yield.names.map numbers.name
  declared := yield.declared.map (Prod.map id numbers.callee)
  scripts := yield.scripts.map (Prod.map numbers.callee (Script.renumber numbers))

section
variable (first rest : Yield)

@[simp] theorem names_append : (first ++ rest).names = first.names ++ rest.names := rfl

@[simp] theorem declared_append : (first ++ rest).declared = first.declared ++ rest.declared := rfl

@[simp] theorem scripts_append : (first ++ rest).scripts = first.scripts ++ rest.scripts := rfl

theorem append_assoc (last : Yield) : (first ++ rest) ++ last = first ++ (rest ++ last) := by
  change Yield.mk _ _ _ = Yield.mk _ _ _
  simp only [names_append, declared_append, scripts_append, List.append_assoc]

theorem renumber_append (numbers : Renumbering) :
    (first ++ rest).renumber numbers = first.renumber numbers ++ rest.renumber numbers := by
  change Yield.mk _ _ _ = Yield.mk _ _ _
  simp only [names_append, declared_append, scripts_append, List.map_append, renumber]

end

/-- The names and the procedures are numbered on from these. -/
structure Starts (yield : Yield) (names callees : Nat) : Prop where
  names : yield.names.map Name.index = List.range' names yield.names.length
  declared : yield.declared.map Prod.snd = List.range' callees yield.declared.length

theorem numbered_append {α : Type} {number : α → Nat} {start : Nat} {items others : List α} :
    (items ++ others).map number = List.range' start (items ++ others).length ↔
      items.map number = List.range' start items.length ∧
        others.map number = List.range' (start + items.length) others.length := by
  rw [List.map_append, List.length_append, ← List.range'_append_1]
  constructor
  · intro same
    exact List.append_inj same (by rw [List.length_map, List.length_range'])
  · intro same
    rw [same.1, same.2]

theorem Starts.append {first rest : Yield} {names callees : Nat} :
    (first ++ rest).Starts names callees ↔ first.Starts names callees ∧
      rest.Starts (names + first.names.length) (callees + first.declared.length) := by
  constructor
  · intro starts
    obtain ⟨here, later⟩ := numbered_append.mp starts.names
    obtain ⟨also, after⟩ := numbered_append.mp starts.declared
    exact ⟨⟨here, also⟩, ⟨later, after⟩⟩
  · intro starts
    exact ⟨numbered_append.mpr ⟨starts.1.names, starts.2.names⟩,
      numbered_append.mpr ⟨starts.1.declared, starts.2.declared⟩⟩

/-- From `before` to `after`, the yield is what is bound, declared and compiled. -/
structure Fills (yield : Yield) (before after : Lowering.Progress) : Prop where
  starts : yield.Starts before.names before.callees
  names : after.names = before.names + yield.names.length
  callees : after.callees = before.callees + yield.declared.length
  library : ∃ added : List (Callee × Routine),
    added.map (Prod.map id Routine.script) = yield.scripts ∧
      after.library = before.library.insertAll added

namespace Fills

variable {first rest : Yield} {before middle after : Lowering.Progress}

theorem none (progress : Lowering.Progress) : Yield.none.Fills progress progress :=
  ⟨⟨rfl, rfl⟩, rfl, rfl, [], rfl, rfl⟩

theorem append (filled : first.Fills before middle) (later : rest.Fills middle after) :
    (first ++ rest).Fills before after where
  starts := by
    rw [Starts.append, ← filled.names, ← filled.callees]
    exact ⟨filled.starts, later.starts⟩
  names := by rw [later.names, filled.names, names_append, List.length_append, Nat.add_assoc]
  callees := by
    rw [later.callees, filled.callees, declared_append, List.length_append, Nat.add_assoc]
  library := by
    obtain ⟨added, scripts, made⟩ := filled.library
    obtain ⟨more, others, onto⟩ := later.library
    refine ⟨added ++ more, ?_, ?_⟩
    · rw [List.map_append, scripts, others, scripts_append]
    · rw [Library.insertAll_append, ← made, onto]

/-- What comes after a part goes on from where the part ends. -/
theorem onward (filled : first.Fills before middle)
    (starts : (first ++ rest).Starts before.names before.callees) :
    rest.Starts middle.names middle.callees := by
  rw [filled.names, filled.callees]
  exact (Starts.append.mp starts).2

theorem bound (progress : Lowering.Progress) (targets : List Identifier) :
    (bound (Name.number progress.names targets)).Fills progress
      { progress with names := progress.names + targets.length } := by
  have length := Name.number_length progress.names targets
  refine ⟨⟨?_, rfl⟩, congrArg (progress.names + ·) length.symm, rfl, [], rfl, rfl⟩
  exact length ▸ Name.number_indices progress.names targets

theorem declaring (progress : Lowering.Progress) (procedures : List Procedure) :
    (declaring (Scope.numbered progress.callees procedures)).Fills progress
      { progress with callees := progress.callees + procedures.length } := by
  have length := Scope.numbered_length progress.callees procedures
  refine ⟨⟨rfl, ?_⟩, rfl, congrArg (progress.callees + ·) length.symm, [], rfl, rfl⟩
  exact length ▸ Scope.numbered_callees progress.callees procedures

theorem compiling (progress : Lowering.Progress) (callee : Callee) (routine : Routine) :
    (compiling callee routine.script).Fills progress
      { progress with library := progress.library.insert callee routine } :=
  ⟨⟨rfl, rfl⟩, rfl, rfl, [(callee, routine)], rfl, rfl⟩

end Fills

end Yield

/-- Does the statement perform anything? -/
def Statement.performs : Statement → Bool
  | .assignment .. | .execute .. => true
  | _ => false

section
variable (primitives : List Identifier)

mutual

/-- The expression is compiled to the entries. -/
inductive Expression.Yields : Scope → Expression → Yield → Sequence → Prop
  | call {scope offset name argument yield entries callee} :
      scope.procedures.get? name = some callee →
      Expression.Yields scope argument yield entries →
      Expression.Yields scope (.application offset name argument) yield
        [⟨scope.setting, .call callee entries.toStep⟩]
  | invoke {scope offset name argument yield entries} :
      scope.procedures.get? name = none → name ∈ primitives →
      Expression.Yields scope argument yield entries →
      Expression.Yields scope (.application offset name argument) yield
        [⟨scope.setting, .invoke name entries.toStep⟩]
  | unit {scope offset} :
      Expression.Yields scope (.unit offset) .none [⟨scope.setting, .literal .unit⟩]
  | text {scope offset text} :
      Expression.Yields scope (.text offset text) .none [⟨scope.setting, .literal (.text text)⟩]
  | amount {scope offset quantity} :
      Expression.Yields scope (.amount offset quantity) .none
        [⟨scope.setting, .literal (.quantity quantity)⟩]
  | tablet {scope offset fields yield steps} : FieldsYield scope fields yield steps →
      Expression.Yields scope (.tablet offset fields) yield
        [⟨scope.setting, .literal (.tablet steps)⟩]
  | reference {scope offset identifiers} {names : List Name} :
      identifiers.map scope.names.get? = names.map some →
      Expression.Yields scope (.reference offset identifiers) .none
        [⟨scope.setting, .tuple (names.map .read)⟩]
  | operation {scope offset operator left right yield others first second} :
      Expression.Yields scope left yield first → Expression.Yields scope right others second →
      Expression.Yields scope (.operation offset operator left right) (yield ++ others)
        [⟨scope.setting, .invoke operator.primitive (.tuple [first.toStep, second.toStep])⟩]
  | grouping {scope offset inner yield entries} : Expression.Yields scope inner yield entries →
      Expression.Yields scope (.grouping offset inner) yield entries
  | restriction {scope offset setting block yield entries} :
      BlockYields (scope.restrict setting) block yield entries →
      Expression.Yields scope (.restriction offset setting block) yield entries

inductive FieldsYield : Scope → List (Label × Expression) → Yield → List (Label × Step) → Prop
  | nil {scope} : FieldsYield scope [] .none []
  | cons {scope label value fields yield others entries steps} :
      Expression.Yields scope value yield entries → FieldsYield scope fields others steps →
      FieldsYield scope ((label, value) :: fields) (yield ++ others)
        ((label, entries.toStep) :: steps)

/-- The statements that perform something are compiled to the entries. -/
inductive StatementsYield : Scope → List Statement → Yield → Sequence → Prop
  | nil {scope} : StatementsYield scope [] .none []
  | assignment {scope offset targets value block yield others entries names steps} :
      targets.Nodup → (∀ target ∈ targets, scope.names.holds target = false) →
      Expression.Yields scope value yield entries → names.map Name.identifier = targets →
      StatementsYield (scope.bindAll names) block others steps →
      StatementsYield scope (.assignment offset targets value :: block)
        (yield ++ (.bound names ++ others)) (⟨scope.setting, .bind names entries.toStep⟩ :: steps)
  | execute {scope offset value block yield others entries steps} :
      Expression.Yields scope value yield entries → StatementsYield scope block others steps →
      StatementsYield scope (.execute offset value :: block) (yield ++ others) (entries ++ steps)

/-- The block is compiled to the entries, in a scope of its own that declares its procedures. -/
inductive BlockYields : Scope → Block → Yield → Sequence → Prop
  | intro {scope inner block declared yield bodies entries} :
      declared.map Prod.fst = declaredNames block → (declaredNames block).Nodup →
      scope.Opens declared inner →
      StatementsYield inner (block.filter Statement.performs) yield entries →
      ProceduresYield inner.procedures declared (declarations block) bodies →
      BlockYields scope block (.declaring declared ++ (yield ++ bodies)) entries

/-- The procedures that are declared under those numbers are compiled where those of the table are
visible. -/
inductive ProceduresYield :
    Levels Callee → List (Identifier × Callee) → List Procedure → Yield → Prop
  | nil {visible} : ProceduresYield visible [] [] .none
  | cons {visible procedure callee declared procedures yield others script} :
      Procedure.Yields visible procedure yield script →
      ProceduresYield visible declared procedures others →
      ProceduresYield visible ((procedure.name, callee) :: declared) (procedure :: procedures)
        (yield ++ (.compiling callee script ++ others))

/-- The procedure is compiled to the script. -/
inductive Procedure.Yields : Levels Callee → Procedure → Yield → Script → Prop
  | intro {visible offset name parameters signature block names yield entries} :
      parameters.Nodup → names.map Name.identifier = parameters →
      BlockYields (Scope.bindAll ⟨.empty, visible.push, .inherit⟩ names) block yield entries →
      Procedure.Yields visible ⟨offset, name, parameters, signature, block⟩
        (.bound names ++ yield) ⟨name, names, entries⟩

end

end

namespace Lowering

variable {context : Context}

theorem lowerStatements_performs (scope : Scope) (block : List Statement) :
    lowerStatements context scope (block.filter Statement.performs) =
      lowerStatements context scope block := by
  induction block generalizing scope with
  | nil => rfl
  | cons statement block ih =>
      cases statement with
      | assignment offset targets value =>
          rw [List.filter_cons_of_pos (by rfl), lowerStatements, lowerStatements]
          simp only [ih]
      | execute offset value =>
          rw [List.filter_cons_of_pos (by rfl), lowerStatements, lowerStatements]
          simp only [ih]
      | _ => exact ih scope

/-! What is compiled follows the rules. -/

theorem inScope_yields {scope : Scope} {block : Block} {sequence : Sequence}
    {before after : Progress}
    (made : Makes (inScope scope block (fun scope => lowerStatements context scope block)
      (fun scope first => lowerBodies context scope first block)) before sequence after)
    (stated : ∀ {inner outer : Scope} {before after : Progress},
      Makes (lowerStatements context inner block) before (sequence, outer) after →
        ∃ yield, StatementsYield context.primitives inner (block.filter Statement.performs) yield
          sequence ∧ yield.Fills before after)
    (compiled : ∀ {inner : Scope} {callee : Callee} {before after : Progress},
      Makes (lowerBodies context inner callee block) before () after →
        ∃ yield, ProceduresYield context.primitives inner.procedures
          (Scope.numbered callee (declarations block)) (declarations block) yield ∧
            yield.Fills before after) :
    ∃ yield, BlockYields context.primitives scope block yield sequence ∧
      yield.Fills before after := by
  obtain ⟨⟨distinct, _⟩, inner, middle, first, rest⟩ := makes_inScope.mp made
  obtain ⟨yield, yields, fills⟩ := stated first
  obtain ⟨bodies, follow, filled⟩ := compiled rest
  rw [lowerStatements_procedures first] at follow
  refine ⟨_, .intro (Scope.numbered_names _ _) distinct
    (.declareAll scope before.callees distinct) yields follow, ?_⟩
  exact (Yield.Fills.declaring before (declarations block)).append (fills.append filled)

mutual

theorem lowerExpression_yields {scope : Scope} {before after : Progress} {sequence : Sequence} :
    ∀ expression : Expression,
      Makes (lowerExpression context scope expression) before sequence after →
        ∃ yield, expression.Yields context.primitives scope yield sequence ∧
          yield.Fills before after
  | .application offset name argument, made => by
      obtain ⟨entries, part, meant⟩ := makes_application.mp made
      obtain ⟨yield, yields, fills⟩ := lowerExpression_yields argument part
      rcases meant with ⟨callee, found, rfl⟩ | ⟨missing, member, rfl⟩
      · exact ⟨yield, .call found yields, fills⟩
      · exact ⟨yield, .invoke missing member yields, fills⟩
  | .unit offset, made => by
      obtain ⟨rfl, rfl⟩ := makes_pure.mp made
      exact ⟨.none, .unit, .none _⟩
  | .text offset text, made => by
      obtain ⟨rfl, rfl⟩ := makes_pure.mp made
      exact ⟨.none, .text, .none _⟩
  | .amount offset quantity, made => by
      obtain ⟨rfl, rfl⟩ := makes_pure.mp made
      exact ⟨.none, .amount, .none _⟩
  | .hole offset, made => absurd made makes_refuse
  | .tablet offset fields, made => by
      obtain ⟨steps, part, rfl⟩ := makes_tablet.mp made
      obtain ⟨yield, yields, fills⟩ := lowerFields_yields fields part
      exact ⟨yield, .tablet yields, fills⟩
  | .reference offset identifiers, made => by
      obtain ⟨names, meant, rfl, rfl⟩ := makes_reference.mp made
      exact ⟨.none, .reference meant, .none _⟩
  | .operation offset operator left right, made => by
      obtain ⟨first, middle, second, part, rest, rfl⟩ := makes_operation.mp made
      obtain ⟨yield, yields, fills⟩ := lowerExpression_yields left part
      obtain ⟨others, follow, filled⟩ := lowerExpression_yields right rest
      exact ⟨yield ++ others, .operation yields follow, fills.append filled⟩
  | .grouping offset inner, made => by
      obtain ⟨yield, yields, fills⟩ := lowerExpression_yields inner made
      exact ⟨yield, .grouping yields, fills⟩
  | .restriction offset setting block, made => by
      rw [lowerExpression] at made
      obtain ⟨yield, yields, fills⟩ := inScope_yields made (lowerStatements_yields block)
        (lowerBodies_yields block)
      exact ⟨yield, .restriction yields, fills⟩

theorem lowerFields_yields {scope : Scope} {before after : Progress}
    {steps : List (Label × Step)} : ∀ fields : List (Label × Expression),
      Makes (lowerFields context scope fields) before steps after →
        ∃ yield, FieldsYield context.primitives scope fields yield steps ∧
          yield.Fills before after
  | [], made => by
      obtain ⟨rfl, rfl⟩ := makes_pure.mp made
      exact ⟨.none, .nil, .none _⟩
  | (label, value) :: fields, made => by
      obtain ⟨entries, middle, steps, part, rest, rfl⟩ := makes_field.mp made
      obtain ⟨yield, yields, fills⟩ := lowerExpression_yields value part
      obtain ⟨others, follow, filled⟩ := lowerFields_yields fields rest
      exact ⟨yield ++ others, .cons yields follow, fills.append filled⟩

theorem lowerStatements_yields {scope outer : Scope} {before after : Progress}
    {sequence : Sequence} : ∀ block : List Statement,
      Makes (lowerStatements context scope block) before (sequence, outer) after →
        ∃ yield, StatementsYield context.primitives scope (block.filter Statement.performs) yield
          sequence ∧ yield.Fills before after
  | [], made => by
      simp only [lowerStatements, makes_pure, Prod.mk.injEq] at made
      obtain ⟨⟨rfl, _⟩, rfl⟩ := made
      exact ⟨.none, .nil, .none _⟩
  | .assignment offset targets value :: block, made => by
      obtain ⟨⟨distinct, new⟩, entries, middle, names, steps, part, rfl, rest, rfl⟩ :=
        makes_assignment.mp made
      obtain ⟨yield, yields, fills⟩ := lowerExpression_yields value part
      obtain ⟨others, follow, filled⟩ := lowerStatements_yields block rest
      exact ⟨_, .assignment distinct new yields (Name.number_identifiers _ _) follow,
        fills.append ((Yield.Fills.bound middle targets).append filled)⟩
  | .execute offset value :: block, made => by
      obtain ⟨entries, middle, steps, part, rest, rfl⟩ := makes_execute.mp made
      obtain ⟨yield, yields, fills⟩ := lowerExpression_yields value part
      obtain ⟨others, follow, filled⟩ := lowerStatements_yields block rest
      exact ⟨yield ++ others, .execute yields follow, fills.append filled⟩
  | .declaration _ _ :: block, made => lowerStatements_yields block made
  | .comment _ _ :: block, made => lowerStatements_yields block made
  | .blank _ :: block, made => lowerStatements_yields block made
  | .series _ :: block, made => lowerStatements_yields block made

theorem lowerBodies_yields {scope : Scope} {callee : Callee} {before after : Progress} :
    ∀ block : List Statement, Makes (lowerBodies context scope callee block) before () after →
      ∃ yield, ProceduresYield context.primitives scope.procedures
        (Scope.numbered callee (declarations block)) (declarations block) yield ∧
          yield.Fills before after
  | [], made => by
      obtain ⟨_, rfl⟩ := makes_pure.mp made
      exact ⟨.none, .nil, .none _⟩
  | .declaration offset procedure :: block, made => by
      obtain ⟨routine, middle, part, rest⟩ := makes_declaration.mp made
      obtain ⟨yield, yields, fills⟩ := lowerProcedure_yields procedure part
      obtain ⟨others, follow, filled⟩ := lowerBodies_yields block rest
      exact ⟨_, .cons yields follow,
        fills.append ((Yield.Fills.compiling middle callee routine).append filled)⟩
  | .assignment _ _ _ :: block, made => lowerBodies_yields block made
  | .execute _ _ :: block, made => lowerBodies_yields block made
  | .comment _ _ :: block, made => lowerBodies_yields block made
  | .blank _ :: block, made => lowerBodies_yields block made
  | .series _ :: block, made => lowerBodies_yields block made

theorem lowerProcedure_yields {scope : Scope} {before after : Progress} {routine : Routine} :
    ∀ procedure : Procedure,
      Makes (lowerProcedure context scope procedure) before routine after →
        ∃ yield, procedure.Yields context.primitives scope.procedures yield routine.script ∧
          yield.Fills before after
  | ⟨offset, name, parameters, signature, block⟩, made => by
      obtain ⟨distinct, names, sequence, rfl, part, rfl⟩ := makes_procedure.mp made
      obtain ⟨yield, yields, fills⟩ := inScope_yields part (lowerStatements_yields block)
        (lowerBodies_yields block)
      exact ⟨_, .intro distinct (Name.number_identifiers _ _) yields,
        (Yield.Fills.bound before parameters).append fills⟩

end

/-! What the rules give is compiled, once its numbers are in order. -/

variable {numbers : Renumbering}

/-- Procedures are declared with their numbers in order. -/
theorem declaring_fills {scope other inner : Scope} {procedures : List Procedure}
    {declared : List (Identifier × Callee)} {progress : Progress}
    (names : declared.map Prod.fst = procedures.map Procedure.name)
    (distinct : (procedures.map Procedure.name).Nodup) (opens : scope.Opens declared inner)
    (renumbers : scope.Renumbers numbers other)
    (starts : ((Yield.declaring declared).renumber numbers).Starts progress.names
      progress.callees) :
    declared.map (Prod.map id numbers.callee) = Scope.numbered progress.callees procedures ∧
      ((Yield.declaring declared).renumber numbers).Fills progress
        { progress with callees := progress.callees + procedures.length } ∧
      inner.Renumbers numbers (other.declareAll progress.callees procedures) := by
  have order : declared.map (Prod.map id numbers.callee) =
      Scope.numbered progress.callees procedures := by
    apply Scope.numbered_unique
    · rw [List.map_map]
      exact names
    · exact starts.declared
  refine ⟨order, ?_, ?_⟩
  · change (Yield.declaring (declared.map (Prod.map id numbers.callee))).Fills _ _
    rw [order]
    exact .declaring progress procedures
  · apply renumbers.opens opens
    rw [order]
    exact .declareAll other progress.callees distinct

theorem inScope_makes {scope other inner : Scope} {block : Block}
    {declared : List (Identifier × Callee)} {within bodies : Yield} {sequence : Sequence}
    {before : Progress} (names : declared.map Prod.fst = declaredNames block)
    (distinct : (declaredNames block).Nodup) (opens : scope.Opens declared inner)
    (renumbers : scope.Renumbers numbers other)
    (fresh : ∀ name, other.procedures.holds name = false)
    (starts : ((Yield.declaring declared ++ (within ++ bodies)).renumber numbers).Starts
      before.names before.callees)
    (stated : ∀ {other : Scope} {before : Progress}, inner.Renumbers numbers other →
      (within.renumber numbers).Starts before.names before.callees →
        ∃ outer after,
          Makes (lowerStatements context other (block.filter Statement.performs)) before
            (sequence.map (Entry.renumber numbers), outer) after ∧
              (within.renumber numbers).Fills before after)
    (compiled : ∀ {other : Scope} {callee : Callee} {before : Progress},
      (∀ name, other.procedures.get? name = (inner.procedures.get? name).map numbers.callee) →
      (bodies.renumber numbers).Starts before.names before.callees →
      declared.map (Prod.map id numbers.callee) = Scope.numbered callee (declarations block) →
        ∃ after, Makes (lowerProcedures context other callee (declarations block)) before () after ∧
          (bodies.renumber numbers).Fills before after) :
    ∃ after, Makes (inScope other block (fun scope => lowerStatements context scope block)
        (fun scope first => lowerBodies context scope first block)) before
          (sequence.map (Entry.renumber numbers)) after ∧
        ((Yield.declaring declared ++ (within ++ bodies)).renumber numbers).Fills before after := by
  rw [Yield.renumber_append, Yield.renumber_append] at starts ⊢
  obtain ⟨order, declares, opened⟩ := declaring_fills names distinct opens renumbers
    (Yield.Starts.append.mp starts).1
  have onward := declares.onward starts
  obtain ⟨outer, middle, made, fills⟩ := stated opened (Yield.Starts.append.mp onward).1
  have visible (name : Identifier) :
      outer.procedures.get? name = (inner.procedures.get? name).map numbers.callee := by
    rw [lowerStatements_procedures made]
    exact opened.procedures name
  obtain ⟨after, built, filled⟩ := compiled visible (fills.onward onward) order
  rw [lowerStatements_performs] at made
  rw [← lowerBodies_declarations] at built
  exact ⟨after, makes_inScope.mpr ⟨⟨distinct, fun _ _ => fresh _⟩, outer, middle, made, built⟩,
    declares.append (fills.append filled)⟩

theorem bound_fills {names : List Name} {progress : Progress}
    (starts : ((Yield.bound names).renumber numbers).Starts progress.names progress.callees) :
    names.map numbers.name = Name.number progress.names (names.map Name.identifier) ∧
      ((Yield.bound names).renumber numbers).Fills progress
        { progress with names := progress.names + (names.map Name.identifier).length } := by
  have numbered : names.map numbers.name =
      Name.number progress.names (names.map Name.identifier) := by
    rw [← numbers.name_identifiers]
    exact (Name.number_unique starts.names).symm
  refine ⟨numbered, ?_⟩
  change (Yield.bound (names.map numbers.name)).Fills _ _
  rw [numbered]
  exact .bound progress (names.map Name.identifier)

theorem reads_makes {scope other : Scope} {identifiers : List Identifier} {names : List Name}
    (renumbers : scope.Renumbers numbers other)
    (meant : identifiers.map scope.names.get? = names.map some) :
    identifiers.map other.names.get? = (names.map numbers.name).map some := by
  have mapped := congrArg (List.map (Option.map numbers.name)) meant
  rw [List.map_map, List.map_map] at mapped
  rw [List.map_map]
  refine Eq.trans (List.map_congr_left fun identifier _ => ?_) mapped
  exact renumbers.names identifier

mutual

theorem yields_makes : ∀ {expression : Expression} {scope : Scope} {yield : Yield}
    {sequence : Sequence}, expression.Yields context.primitives scope yield sequence →
    ∀ {other : Scope} {before : Progress}, scope.Renumbers numbers other →
      (yield.renumber numbers).Starts before.names before.callees →
        ∃ after, Makes (lowerExpression context other expression) before
          (sequence.map (Entry.renumber numbers)) after ∧
            (yield.renumber numbers).Fills before after
  | _, _, _, _, .call found argument, other, before, renumbers, starts => by
      obtain ⟨after, made, fills⟩ := yields_makes argument renumbers starts
      have called := (renumbers.procedures _).trans (congrArg (Option.map numbers.callee) found)
      refine ⟨after, makes_application.mpr ⟨_, made, .inl ⟨_, called, ?_⟩⟩, fills⟩
      rw [Sequence.toStep_renumber, renumbers.setting]
      rfl
  | _, _, _, _, .invoke missing member argument, other, before, renumbers, starts => by
      obtain ⟨after, made, fills⟩ := yields_makes argument renumbers starts
      refine ⟨after, makes_application.mpr ⟨_, made, .inr ⟨?_, member, ?_⟩⟩, fills⟩
      · rw [renumbers.procedures, missing, Option.map_none]
      · rw [Sequence.toStep_renumber, renumbers.setting]
        rfl
  | _, _, _, _, .unit, other, before, renumbers, starts => by
      refine ⟨before, makes_pure.mpr ⟨?_, rfl⟩, .none before⟩
      rw [renumbers.setting]
      rfl
  | _, _, _, _, .text, other, before, renumbers, starts => by
      refine ⟨before, makes_pure.mpr ⟨?_, rfl⟩, .none before⟩
      rw [renumbers.setting]
      rfl
  | _, _, _, _, .amount, other, before, renumbers, starts => by
      refine ⟨before, makes_pure.mpr ⟨?_, rfl⟩, .none before⟩
      rw [renumbers.setting]
      rfl
  | _, _, _, _, .tablet fields, other, before, renumbers, starts => by
      obtain ⟨after, made, fills⟩ := fieldsYield_makes fields renumbers starts
      refine ⟨after, makes_tablet.mpr ⟨_, made, ?_⟩, fills⟩
      rw [renumbers.setting]
      rfl
  | _, _, _, _, .reference meant, other, before, renumbers, starts => by
      refine ⟨before, makes_reference.mpr ⟨_, reads_makes renumbers meant, ?_, rfl⟩, .none before⟩
      rw [renumbers.setting, ← reads_renumber]
      rfl
  | _, _, _, _, .operation left right, other, before, renumbers, starts => by
      rw [Yield.renumber_append] at starts ⊢
      obtain ⟨middle, first, fills⟩ :=
        yields_makes left renumbers (Yield.Starts.append.mp starts).1
      obtain ⟨after, second, filled⟩ := yields_makes right renumbers (fills.onward starts)
      refine ⟨after, makes_operation.mpr ⟨_, middle, _, first, second, ?_⟩, fills.append filled⟩
      rw [Sequence.toStep_renumber, Sequence.toStep_renumber, renumbers.setting]
      rfl
  | _, _, _, _, .grouping inner, other, before, renumbers, starts =>
      yields_makes inner renumbers starts
  | _, _, _, _, @Expression.Yields.restriction _ _ _ setting _ _ _ block, other, before, renumbers,
      starts => by
      rw [lowerExpression]
      exact blockYields_makes block (renumbers.restrict setting) (fun _ => rfl) starts

theorem fieldsYield_makes : ∀ {fields : List (Label × Expression)} {scope : Scope} {yield : Yield}
    {steps : List (Label × Step)}, FieldsYield context.primitives scope fields yield steps →
    ∀ {other : Scope} {before : Progress}, scope.Renumbers numbers other →
      (yield.renumber numbers).Starts before.names before.callees →
        ∃ after, Makes (lowerFields context other fields) before
          (stepFieldsRenumber numbers steps) after ∧ (yield.renumber numbers).Fills before after
  | _, _, _, _, .nil, other, before, renumbers, starts =>
      ⟨before, makes_pure.mpr ⟨rfl, rfl⟩, .none before⟩
  | _, _, _, _, .cons value fields, other, before, renumbers, starts => by
      rw [Yield.renumber_append] at starts ⊢
      obtain ⟨middle, first, fills⟩ :=
        yields_makes value renumbers (Yield.Starts.append.mp starts).1
      obtain ⟨after, rest, filled⟩ := fieldsYield_makes fields renumbers (fills.onward starts)
      refine ⟨after, makes_field.mpr ⟨_, middle, _, first, rest, ?_⟩, fills.append filled⟩
      rw [Sequence.toStep_renumber]
      rfl

theorem statementsYield_makes : ∀ {block : List Statement} {scope : Scope} {yield : Yield}
    {sequence : Sequence}, StatementsYield context.primitives scope block yield sequence →
    ∀ {other : Scope} {before : Progress}, scope.Renumbers numbers other →
      (yield.renumber numbers).Starts before.names before.callees →
        ∃ outer after, Makes (lowerStatements context other block) before
          (sequence.map (Entry.renumber numbers), outer) after ∧
            (yield.renumber numbers).Fills before after
  | _, _, _, _, .nil, other, before, renumbers, starts =>
      ⟨other, before, makes_pure.mpr ⟨rfl, rfl⟩, .none before⟩
  | _, _, _, _, @StatementsYield.assignment _ _ _ _ _ _ _ _ _ names _ distinct new value same rest,
      other, before, renumbers, starts => by
      rw [Yield.renumber_append, Yield.renumber_append] at starts ⊢
      obtain ⟨middle, first, fills⟩ :=
        yields_makes value renumbers (Yield.Starts.append.mp starts).1
      have onward := fills.onward starts
      obtain ⟨numbered, binds⟩ := bound_fills (Yield.Starts.append.mp onward).1
      obtain ⟨outer, after, made, filled⟩ := statementsYield_makes rest (renumbers.bindAll names)
        (binds.onward onward)
      subst same
      refine ⟨outer, after, makes_assignment.mpr ⟨⟨distinct, fun target member => ?_⟩, _, middle, _,
        _, first, numbered, made, ?_⟩, fills.append (binds.append filled)⟩
      · rw [renumbers.holds, new target member]
      · rw [Sequence.toStep_renumber, renumbers.setting]
        rfl
  | _, _, _, _, .execute value rest, other, before, renumbers, starts => by
      rw [Yield.renumber_append] at starts ⊢
      obtain ⟨middle, first, fills⟩ :=
        yields_makes value renumbers (Yield.Starts.append.mp starts).1
      obtain ⟨outer, after, made, filled⟩ :=
        statementsYield_makes rest renumbers (fills.onward starts)
      rw [List.map_append]
      exact ⟨outer, after, makes_execute.mpr ⟨_, middle, _, first, made, rfl⟩, fills.append filled⟩

theorem blockYields_makes : ∀ {block : Block} {scope : Scope} {yield : Yield}
    {sequence : Sequence}, BlockYields context.primitives scope block yield sequence →
    ∀ {other : Scope} {before : Progress}, scope.Renumbers numbers other →
      (∀ name, other.procedures.holds name = false) →
      (yield.renumber numbers).Starts before.names before.callees →
        ∃ after, Makes (inScope other block (fun scope => lowerStatements context scope block)
            (fun scope first => lowerBodies context scope first block)) before
              (sequence.map (Entry.renumber numbers)) after ∧
            (yield.renumber numbers).Fills before after
  | _, _, _, _, .intro names distinct opens states follow, _, _, renumbers, fresh, starts =>
      inScope_makes names distinct opens renumbers fresh starts (statementsYield_makes states)
        (proceduresYield_makes follow)

theorem proceduresYield_makes : ∀ {procedures : List Procedure} {visible : Levels Callee}
    {declared : List (Identifier × Callee)} {yield : Yield},
    ProceduresYield context.primitives visible declared procedures yield →
    ∀ {other : Scope} {callee : Callee} {before : Progress},
      (∀ name, other.procedures.get? name = (visible.get? name).map numbers.callee) →
      (yield.renumber numbers).Starts before.names before.callees →
      declared.map (Prod.map id numbers.callee) = Scope.numbered callee procedures →
        ∃ after, Makes (lowerProcedures context other callee procedures) before () after ∧
          (yield.renumber numbers).Fills before after
  | _, _, _, _, .nil, other, callee, before, seen, starts, order =>
      ⟨before, makes_pure.mpr ⟨rfl, rfl⟩, .none before⟩
  | _, _, _, _, @ProceduresYield.cons _ _ _ given _ _ _ _ script procedure rest, other, callee,
      before, seen, starts, order => by
      rw [Yield.renumber_append, Yield.renumber_append] at starts ⊢
      rw [List.map_cons, Scope.numbered, List.cons.injEq] at order
      obtain ⟨routine, middle, first, same, fills⟩ :=
        procedureYields_makes procedure seen (Yield.Starts.append.mp starts).1
      have keeps : ((Yield.compiling given script).renumber numbers).Fills middle
          { middle with library := middle.library.insert callee routine } := by
        change (Yield.compiling (numbers.callee given) (script.renumber numbers)).Fills _ _
        rw [← same, (Prod.mk.inj order.1).2]
        exact .compiling middle callee routine
      obtain ⟨after, made, filled⟩ := proceduresYield_makes rest seen
        (keeps.onward (fills.onward starts)) order.2
      exact ⟨after, makes_lowerProcedures.mpr ⟨routine, middle, first, made⟩,
        fills.append (keeps.append filled)⟩

theorem procedureYields_makes : ∀ {procedure : Procedure} {visible : Levels Callee}
    {yield : Yield} {script : Script},
    procedure.Yields context.primitives visible yield script →
    ∀ {other : Scope} {before : Progress},
      (∀ name, other.procedures.get? name = (visible.get? name).map numbers.callee) →
      (yield.renumber numbers).Starts before.names before.callees →
        ∃ routine after, Makes (lowerProcedure context other procedure) before routine after ∧
          routine.script = script.renumber numbers ∧ (yield.renumber numbers).Fills before after
  | _, _, _, _, @Procedure.Yields.intro _ visible _ _ _ _ _ names _ _ distinct same block, other,
      before, seen, starts => by
      rw [Yield.renumber_append] at starts ⊢
      obtain ⟨numbered, binds⟩ := bound_fills (Yield.Starts.append.mp starts).1
      have body : Scope.Renumbers numbers ⟨.empty, visible.push, .inherit⟩ other.body :=
        ⟨fun _ => rfl, fun _ => rfl, seen, rfl⟩
      have fresh (name : Identifier) :
          (other.body.bindAll (names.map numbers.name)).procedures.holds name = false := by
        rw [Scope.bindAll_procedures]
        rfl
      obtain ⟨after, made, filled⟩ := blockYields_makes block (body.bindAll names) fresh
        (binds.onward starts)
      subst same
      exact ⟨_, after, makes_procedure.mpr ⟨distinct, _, _, numbered, made, rfl⟩, rfl,
        binds.append filled⟩

end

theorem lowerProcedures_yields {scope : Scope} {callee : Callee} {procedures : List Procedure}
    {before after : Progress}
    (made : Makes (lowerProcedures context scope callee procedures) before () after) :
    ∃ yield, ProceduresYield context.primitives scope.procedures
      (Scope.numbered callee procedures) procedures yield ∧ yield.Fills before after := by
  induction procedures generalizing callee before with
  | nil =>
      obtain ⟨_, rfl⟩ := makes_pure.mp made
      exact ⟨.none, .nil, .none _⟩
  | cons procedure procedures ih =>
      obtain ⟨routine, middle, part, rest⟩ := makes_lowerProcedures.mp made
      obtain ⟨yield, yields, fills⟩ := lowerProcedure_yields procedure part
      obtain ⟨others, follow, filled⟩ := ih rest
      exact ⟨_, .cons yields follow,
        fills.append ((Yield.Fills.compiling middle callee routine).append filled)⟩

end Lowering

/-! Each procedure that is declared is compiled once. -/

/-- The scripts are those of the procedures that are declared here, and of those that are owed. -/
def Yield.Owes (owed : List Callee) (yield : Yield) : Prop :=
  (yield.scripts.map Prod.fst).Perm (owed ++ yield.declared.map Prod.snd)

theorem Yield.Owes.append {owed others : List Callee} {first rest : Yield}
    (owes : first.Owes owed) (more : rest.Owes others) : (first ++ rest).Owes (owed ++ others) := by
  rw [Owes, scripts_append, declared_append, List.map_append, List.map_append]
  refine (List.Perm.append owes more).trans (List.perm_iff_count.mpr fun callee => ?_)
  simp only [List.count_append]
  omega

theorem Yield.Owes.declaring {declared : List (Identifier × Callee)} {yield : Yield}
    (owes : yield.Owes (declared.map Prod.snd)) : (Yield.declaring declared ++ yield).Owes [] := by
  rw [Owes, declared_append, List.map_append]
  exact owes

section
variable {primitives : List Identifier}

mutual

theorem Expression.Yields.owes : ∀ {expression : Expression} {scope : Scope} {yield : Yield}
    {sequence : Sequence}, expression.Yields primitives scope yield sequence → yield.Owes []
  | _, _, _, _, .call _ argument => argument.owes
  | _, _, _, _, .invoke _ _ argument => argument.owes
  | _, _, _, _, .unit => .nil
  | _, _, _, _, .text => .nil
  | _, _, _, _, .amount => .nil
  | _, _, _, _, .tablet fields => fields.owes
  | _, _, _, _, .reference _ => .nil
  | _, _, _, _, .operation left right => left.owes.append right.owes
  | _, _, _, _, .grouping inner => inner.owes
  | _, _, _, _, .restriction block => block.owes

theorem FieldsYield.owes : ∀ {fields : List (Label × Expression)} {scope : Scope} {yield : Yield}
    {steps : List (Label × Step)}, FieldsYield primitives scope fields yield steps → yield.Owes []
  | _, _, _, _, .nil => .nil
  | _, _, _, _, .cons value fields => value.owes.append fields.owes

theorem StatementsYield.owes : ∀ {block : List Statement} {scope : Scope} {yield : Yield}
    {sequence : Sequence}, StatementsYield primitives scope block yield sequence → yield.Owes []
  | _, _, _, _, .nil => .nil
  | _, _, _, _, .assignment _ _ value _ rest => value.owes.append rest.owes
  | _, _, _, _, .execute value rest => value.owes.append rest.owes

theorem BlockYields.owes : ∀ {block : Block} {scope : Scope} {yield : Yield}
    {sequence : Sequence}, BlockYields primitives scope block yield sequence → yield.Owes []
  | _, _, _, _, .intro _ _ _ states follow => .declaring (states.owes.append follow.owes)

theorem ProceduresYield.owes : ∀ {procedures : List Procedure} {visible : Levels Callee}
    {declared : List (Identifier × Callee)} {yield : Yield},
    ProceduresYield primitives visible declared procedures yield →
      yield.Owes (declared.map Prod.snd)
  | _, _, _, _, .nil => .nil
  | _, _, _, _, @ProceduresYield.cons _ _ _ callee _ _ _ _ script procedure rest => by
      have compiled : (Yield.compiling callee script).Owes [callee] := .refl _
      exact procedure.owes.append (compiled.append rest.owes)

theorem Procedure.Yields.owes : ∀ {procedure : Procedure} {visible : Levels Callee}
    {yield : Yield} {script : Script},
    procedure.Yields primitives visible yield script → yield.Owes []
  | _, _, _, _, .intro _ _ block => block.owes

end

end

end Runbook
