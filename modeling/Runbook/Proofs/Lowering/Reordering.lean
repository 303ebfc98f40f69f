import Runbook.Proofs.Lowering.Yields

/-!
The order of declarations.

Documents are reorderings of each other if they differ in the order in which blocks declare their
procedures, at any depth, and in the order of the file's procedures after the first. A reordering is
compiled, and to the same but for the numbers of names and procedures.
-/
namespace Runbook

mutual

/-- The expressions differ in the order of declarations, and in offsets. -/
inductive Expression.Reorders : Expression → Expression → Prop
  | application {offset place name argument other} : Expression.Reorders argument other →
      Expression.Reorders (.application offset name argument) (.application place name other)
  | unit {offset place} : Expression.Reorders (.unit offset) (.unit place)
  | text {offset place text} : Expression.Reorders (.text offset text) (.text place text)
  | amount {offset place quantity} :
      Expression.Reorders (.amount offset quantity) (.amount place quantity)
  | hole {offset place} : Expression.Reorders (.hole offset) (.hole place)
  | tablet {offset place fields others} : FieldsReorder fields others →
      Expression.Reorders (.tablet offset fields) (.tablet place others)
  | reference {offset place names} :
      Expression.Reorders (.reference offset names) (.reference place names)
  | operation {offset place operator left right first second} :
      Expression.Reorders left first → Expression.Reorders right second →
      Expression.Reorders (.operation offset operator left right)
        (.operation place operator first second)
  | grouping {offset place inner other} : Expression.Reorders inner other →
      Expression.Reorders (.grouping offset inner) (.grouping place other)
  | restriction {offset place setting block other} :
      StatementsReorder (block.filter Statement.performs) (other.filter Statement.performs) →
      ProceduresReorder (declarations block) (declarations other) →
      Expression.Reorders (.restriction offset setting block) (.restriction place setting other)

inductive FieldsReorder : List (Label × Expression) → List (Label × Expression) → Prop
  | nil : FieldsReorder [] []
  | cons {label value other fields others} : Expression.Reorders value other →
      FieldsReorder fields others →
      FieldsReorder ((label, value) :: fields) ((label, other) :: others)

/-- The statements that perform something stand in the same order. -/
inductive StatementsReorder : List Statement → List Statement → Prop
  | nil : StatementsReorder [] []
  | assignment {offset place targets value other block others} : Expression.Reorders value other →
      StatementsReorder block others →
      StatementsReorder (.assignment offset targets value :: block)
        (.assignment place targets other :: others)
  | execute {offset place value other block others} : Expression.Reorders value other →
      StatementsReorder block others →
      StatementsReorder (.execute offset value :: block) (.execute place other :: others)

/-- The procedures stand in another order. -/
inductive ProceduresReorder : List Procedure → List Procedure → Prop
  | nil : ProceduresReorder [] []
  | cons {procedure other procedures others} : Procedure.Reorders procedure other →
      ProceduresReorder procedures others →
      ProceduresReorder (procedure :: procedures) (other :: others)
  | swap {first second procedures} :
      ProceduresReorder (first :: second :: procedures) (second :: first :: procedures)
  | trans {procedures others last} : ProceduresReorder procedures others →
      ProceduresReorder others last → ProceduresReorder procedures last

inductive Procedure.Reorders : Procedure → Procedure → Prop
  | intro {offset place name parameters signature block other} :
      StatementsReorder (block.filter Statement.performs) (other.filter Statement.performs) →
      ProceduresReorder (declarations block) (declarations other) →
      Procedure.Reorders ⟨offset, name, parameters, signature, block⟩
        ⟨place, name, parameters, signature, other⟩

end

/-- The documents begin with the same procedure, and the others stand in another order. -/
inductive Document.Reorders : Document → Document → Prop
  | intro {first other : Procedure} {procedures others : List Procedure} :
      first.Reorders other → ProceduresReorder procedures others →
      Document.Reorders ⟨first :: procedures⟩ ⟨other :: others⟩

mutual

theorem Expression.Reorders.refl : ∀ expression : Expression, expression.Reorders expression
  | .application _ _ argument => .application (Expression.Reorders.refl argument)
  | .unit _ => .unit
  | .text _ _ => .text
  | .amount _ _ => .amount
  | .hole _ => .hole
  | .tablet _ fields => .tablet (FieldsReorder.refl fields)
  | .reference _ _ => .reference
  | .operation _ _ left right =>
      .operation (Expression.Reorders.refl left) (Expression.Reorders.refl right)
  | .grouping _ inner => .grouping (Expression.Reorders.refl inner)
  | .restriction _ _ block =>
      .restriction (StatementsReorder.refl block) (ProceduresReorder.ofDeclarations block)

theorem FieldsReorder.refl : ∀ fields : List (Label × Expression), FieldsReorder fields fields
  | [] => .nil
  | (_, value) :: fields => .cons (Expression.Reorders.refl value) (FieldsReorder.refl fields)

theorem StatementsReorder.refl : ∀ block : List Statement,
    StatementsReorder (block.filter Statement.performs) (block.filter Statement.performs)
  | [] => .nil
  | .assignment _ _ value :: block =>
      .assignment (Expression.Reorders.refl value) (StatementsReorder.refl block)
  | .execute _ value :: block =>
      .execute (Expression.Reorders.refl value) (StatementsReorder.refl block)
  | .declaration _ _ :: block | .comment _ _ :: block | .blank _ :: block | .series _ :: block =>
      StatementsReorder.refl block

theorem ProceduresReorder.ofDeclarations : ∀ block : List Statement,
    ProceduresReorder (declarations block) (declarations block)
  | [] => .nil
  | .declaration _ procedure :: block =>
      .cons (Procedure.Reorders.refl procedure) (ProceduresReorder.ofDeclarations block)
  | .assignment _ _ _ :: block | .execute _ _ :: block | .comment _ _ :: block
  | .blank _ :: block | .series _ :: block => ProceduresReorder.ofDeclarations block

theorem Procedure.Reorders.refl : ∀ procedure : Procedure, procedure.Reorders procedure
  | ⟨_, _, _, _, block⟩ =>
      .intro (StatementsReorder.refl block) (ProceduresReorder.ofDeclarations block)

end

/-- Any permutation is a reordering. -/
theorem ProceduresReorder.of_perm {procedures others : List Procedure}
    (perm : procedures.Perm others) : ProceduresReorder procedures others := by
  induction perm with
  | nil => exact .nil
  | cons procedure perm ih => exact .cons (.refl procedure) ih
  | swap first second procedures => exact .swap
  | trans first second ih later => exact .trans ih later

/-- A procedure whose block declares the same procedures in another order. -/
theorem Procedure.Reorders.of_perm {block other : Block} (offset place : Nat) (name : Identifier)
    (parameters : List Identifier) (signature : Option String)
    (same : block.filter Statement.performs = other.filter Statement.performs)
    (perm : (declarations block).Perm (declarations other)) :
    Procedure.Reorders ⟨offset, name, parameters, signature, block⟩
      ⟨place, name, parameters, signature, other⟩ :=
  .intro (same ▸ .refl block) (.of_perm perm)

/-- A document whose procedures after the first stand in another order. -/
theorem Document.Reorders.of_perm (first : Procedure) {procedures others : List Procedure}
    (perm : procedures.Perm others) : Reorders ⟨first :: procedures⟩ ⟨first :: others⟩ :=
  .intro (.refl first) (.of_perm perm)

theorem Procedure.Reorders.name {procedure other : Procedure}
    (reorders : procedure.Reorders other) : other.name = procedure.name := by
  cases reorders
  rfl

/-- The yields have the same in other orders. -/
structure Yield.Rearranges (yield other : Yield) : Prop where
  names : yield.names.Perm other.names
  declared : yield.declared.Perm other.declared
  scripts : yield.scripts.Perm other.scripts

namespace Yield.Rearranges

variable {first second third fourth : Yield}

theorem refl (yield : Yield) : yield.Rearranges yield := ⟨.refl _, .refl _, .refl _⟩

theorem trans (here : first.Rearranges second) (there : second.Rearranges third) :
    first.Rearranges third :=
  ⟨here.names.trans there.names, here.declared.trans there.declared,
    here.scripts.trans there.scripts⟩

theorem append (here : first.Rearranges second) (there : third.Rearranges fourth) :
    (first ++ third).Rearranges (second ++ fourth) :=
  ⟨here.names.append there.names, here.declared.append there.declared,
    here.scripts.append there.scripts⟩

/-- What comes first may come second. -/
theorem exchange (first second third : Yield) :
    (first ++ (second ++ third)).Rearranges (second ++ (first ++ third)) := by
  have exchanged {α : Type} (first second third : List α) :
      (first ++ (second ++ third)).Perm (second ++ (first ++ third)) := by
    rw [← List.append_assoc, ← List.append_assoc]
    exact List.perm_append_comm.append_right third
  exact ⟨exchanged _ _ _, exchanged _ _ _, exchanged _ _ _⟩

end Yield.Rearranges

section
variable {primitives : List Identifier}

theorem ProceduresYield.names {visible : Levels Callee} {declared : List (Identifier × Callee)}
    {procedures : List Procedure} {yield : Yield} :
    ProceduresYield primitives visible declared procedures yield →
      declared.map Prod.fst = procedures.map Procedure.name
  | .nil => rfl
  | .cons _ rest => congrArg (_ :: ·) rest.names

/-- Procedures that are declared as others are have distinct names if the others do. -/
theorem ProceduresYield.distinct {visible within : Levels Callee}
    {declared given : List (Identifier × Callee)} {procedures others : List Procedure}
    {yield more : Yield} (yields : ProceduresYield primitives visible declared procedures yield)
    (follow : ProceduresYield primitives within given others more) (perm : given.Perm declared)
    (distinct : (procedures.map Procedure.name).Nodup) :
    (others.map Procedure.name).Nodup := by
  rw [← yields.names] at distinct
  rw [← follow.names]
  exact (perm.map Prod.fst).nodup_iff.mpr distinct

theorem blockYields_reorder {scope : Scope} {block other : Block} {yield : Yield}
    {sequence : Sequence}
    (stated : ∀ {scope : Scope} {yield : Yield} {sequence : Sequence},
      StatementsYield primitives scope (block.filter Statement.performs) yield sequence →
        ∃ more, StatementsYield primitives scope (other.filter Statement.performs) more sequence ∧
          more.Rearranges yield)
    (compiled : ∀ {visible : Levels Callee} {declared : List (Identifier × Callee)}
      {yield : Yield}, ProceduresYield primitives visible declared (declarations block) yield →
        ∃ others more, ProceduresYield primitives visible others (declarations other) more ∧
          others.Perm declared ∧ more.Rearranges yield)
    (yields : BlockYields primitives scope block yield sequence) :
    ∃ more, BlockYields primitives scope other more sequence ∧ more.Rearranges yield := by
  cases yields with
  | @intro _ _ _ declared _ _ _ _ distinct opens states follow =>
      obtain ⟨inside, acts, same⟩ := stated states
      obtain ⟨others, bodies, declares, perm, also⟩ := compiled follow
      have unique : (declaredNames other).Nodup := follow.distinct declares perm distinct
      refine ⟨_, .intro declares.names unique (opens.perm perm) acts declares, ?_⟩
      have declaring : (Yield.declaring others).Rearranges (.declaring declared) :=
        ⟨.refl _, perm, .refl _⟩
      exact declaring.append (same.append also)

mutual

theorem Expression.Reorders.yields : ∀ {expression other : Expression},
    expression.Reorders other → ∀ {scope : Scope} {yield : Yield} {sequence : Sequence},
      expression.Yields primitives scope yield sequence →
        ∃ more, other.Yields primitives scope more sequence ∧ more.Rearranges yield
  | _, _, .application argument, _, _, _, yields => by
      cases yields with
      | call found part =>
          obtain ⟨more, yields, same⟩ := argument.yields part
          exact ⟨more, .call found yields, same⟩
      | invoke missing member part =>
          obtain ⟨more, yields, same⟩ := argument.yields part
          exact ⟨more, .invoke missing member yields, same⟩
  | _, _, .unit, _, _, _, yields => by
      cases yields
      exact ⟨.none, .unit, .refl _⟩
  | _, _, .text, _, _, _, yields => by
      cases yields
      exact ⟨.none, .text, .refl _⟩
  | _, _, .amount, _, _, _, yields => by
      cases yields
      exact ⟨.none, .amount, .refl _⟩
  | _, _, .hole, _, _, _, yields => by cases yields
  | _, _, .tablet fields, _, _, _, yields => by
      cases yields with
      | tablet part =>
          obtain ⟨more, yields, same⟩ := fields.yields part
          exact ⟨more, .tablet yields, same⟩
  | _, _, .reference, _, _, _, yields => by
      cases yields with
      | reference meant => exact ⟨.none, .reference meant, .refl _⟩
  | _, _, .operation left right, _, _, _, yields => by
      cases yields with
      | operation first second =>
          obtain ⟨more, yields, same⟩ := left.yields first
          obtain ⟨others, follow, also⟩ := right.yields second
          exact ⟨more ++ others, .operation yields follow, same.append also⟩
  | _, _, .grouping inner, _, _, _, yields => by
      cases yields with
      | grouping part =>
          obtain ⟨more, yields, same⟩ := inner.yields part
          exact ⟨more, .grouping yields, same⟩
  | _, _, .restriction statements procedures, _, _, _, yields => by
      cases yields with
      | restriction block =>
          obtain ⟨more, yields, same⟩ :=
            blockYields_reorder statements.yields procedures.yields block
          exact ⟨more, .restriction yields, same⟩

theorem FieldsReorder.yields : ∀ {fields others : List (Label × Expression)},
    FieldsReorder fields others → ∀ {scope : Scope} {yield : Yield} {steps : List (Label × Step)},
      FieldsYield primitives scope fields yield steps →
        ∃ more, FieldsYield primitives scope others more steps ∧ more.Rearranges yield
  | _, _, .nil, _, _, _, yields => by
      cases yields
      exact ⟨.none, .nil, .refl _⟩
  | _, _, .cons value fields, _, _, _, yields => by
      cases yields with
      | cons first rest =>
          obtain ⟨more, yields, same⟩ := value.yields first
          obtain ⟨others, follow, also⟩ := fields.yields rest
          exact ⟨more ++ others, .cons yields follow, same.append also⟩

theorem StatementsReorder.yields : ∀ {block others : List Statement},
    StatementsReorder block others → ∀ {scope : Scope} {yield : Yield} {sequence : Sequence},
      StatementsYield primitives scope block yield sequence →
        ∃ more, StatementsYield primitives scope others more sequence ∧ more.Rearranges yield
  | _, _, .nil, _, _, _, yields => by
      cases yields
      exact ⟨.none, .nil, .refl _⟩
  | _, _, .assignment value block, _, _, _, yields => by
      cases yields with
      | assignment distinct new first names rest =>
          obtain ⟨more, yields, same⟩ := value.yields first
          obtain ⟨others, follow, also⟩ := block.yields rest
          exact ⟨_, .assignment distinct new yields names follow,
            same.append ((Yield.Rearranges.refl _).append also)⟩
  | _, _, .execute value block, _, _, _, yields => by
      cases yields with
      | execute first rest =>
          obtain ⟨more, yields, same⟩ := value.yields first
          obtain ⟨others, follow, also⟩ := block.yields rest
          exact ⟨more ++ others, .execute yields follow, same.append also⟩

theorem ProceduresReorder.yields : ∀ {procedures others : List Procedure},
    ProceduresReorder procedures others → ∀ {visible : Levels Callee}
      {declared : List (Identifier × Callee)} {yield : Yield},
      ProceduresYield primitives visible declared procedures yield →
        ∃ given more, ProceduresYield primitives visible given others more ∧
          given.Perm declared ∧ more.Rearranges yield
  | _, _, .nil, _, _, _, yields => by
      cases yields
      exact ⟨[], .none, .nil, .refl _, .refl _⟩
  | _, _, .cons procedure procedures, _, _, _, yields => by
      cases yields with
      | cons first rest =>
          obtain ⟨more, yields, same⟩ := procedure.yields first
          obtain ⟨given, others, follow, perm, also⟩ := procedures.yields rest
          rw [← procedure.name]
          exact ⟨_, _, .cons yields follow, perm.cons _,
            same.append ((Yield.Rearranges.refl _).append also)⟩
  | _, _, .swap, _, _, _, yields => by
      cases yields with
      | cons first rest =>
          cases rest with
          | cons second rest =>
              refine ⟨_, _, .cons second (.cons first rest), .swap _ _ _, ?_⟩
              simpa only [Yield.append_assoc] using Yield.Rearranges.exchange (_ ++ _) (_ ++ _) _
  | _, _, .trans first second, _, _, _, yields => by
      obtain ⟨given, more, yields, perm, same⟩ := first.yields yields
      obtain ⟨last, others, follow, also, equal⟩ := second.yields yields
      exact ⟨last, others, follow, also.trans perm, equal.trans same⟩

theorem Procedure.Reorders.yields : ∀ {procedure other : Procedure},
    procedure.Reorders other → ∀ {visible : Levels Callee} {yield : Yield} {script : Script},
      procedure.Yields primitives visible yield script →
        ∃ more, other.Yields primitives visible more script ∧ more.Rearranges yield
  | _, _, .intro statements procedures, _, _, _, yields => by
      cases yields with
      | intro distinct names block =>
          obtain ⟨more, yields, same⟩ :=
            blockYields_reorder statements.yields procedures.yields block
          exact ⟨_, .intro distinct names yields, (Yield.Rearranges.refl _).append same⟩

end

end

namespace Library

theorem get?_eq_some {library : Library} {callee : Callee} {routine : Routine}
    (distinct : (library.map Prod.fst).Nodup) :
    library.get? callee = some routine ↔ (callee, routine) ∈ library := by
  induction library with
  | nil => simp [get?]
  | cons entry library ih =>
      obtain ⟨other, kept⟩ := entry
      rw [List.map_cons, List.nodup_cons] at distinct
      rw [get?, List.mem_cons, Prod.mk.injEq]
      by_cases same : callee = other
      · rw [if_pos same, Option.some.injEq]
        constructor
        · intro equal
          exact .inl ⟨same, equal.symm⟩
        · intro member
          rcases member with equal | member
          · exact equal.2.symm
          · rw [same] at member
            exact absurd (List.mem_map_of_mem member) distinct.1
      · simp [same, ih distinct.2]

theorem get?_insertAll {added : List (Callee × Routine)} {callee : Callee} {routine : Routine}
    (distinct : (added.map Prod.fst).Nodup) :
    (insertAll [] added).get? callee = some routine ↔ (callee, routine) ∈ added := by
  have perm : (insertAll [] added).Perm added := @insertAll_perm [] added distinct
  rw [get?_eq_some ((perm.map Prod.fst).nodup_iff.mpr distinct), perm.mem_iff]

theorem script_insertAll {added : List (Callee × Routine)} {callee : Callee} {script : Script}
    (distinct : (added.map Prod.fst).Nodup) :
    ((insertAll [] added).get? callee).map Routine.script = some script ↔
      (callee, script) ∈ added.map (Prod.map id Routine.script) := by
  rw [Option.map_eq_some_iff, List.mem_map]
  constructor
  · rintro ⟨routine, found, rfl⟩
    exact ⟨(callee, routine), (get?_insertAll distinct).mp found, rfl⟩
  · rintro ⟨⟨other, routine⟩, member, same⟩
    rw [Prod.map, Prod.mk.injEq] at same
    obtain ⟨rfl, rfl⟩ := same
    exact ⟨routine, (get?_insertAll distinct).mpr member, rfl⟩

theorem Renumbers.of_perm {numbers : Renumbering} {added others : List (Callee × Routine)}
    (injective : Function.Injective numbers.callee) (distinct : (added.map Prod.fst).Nodup)
    (perm : (others.map (Prod.map id Routine.script)).Perm
      ((added.map (Prod.map id Routine.script)).map
        (Prod.map numbers.callee (Script.renumber numbers)))) :
    Renumbers numbers (insertAll [] added) (insertAll [] others) := by
  have unique : (others.map Prod.fst).Nodup := by
    have keys := perm.map Prod.fst
    simp only [List.map_map] at keys
    refine keys.nodup_iff.mpr ?_
    have moved := distinct.map injective
    rwa [List.map_map] at moved
  intro callee
  have twice : ((insertAll [] added).get? callee).map
      (fun routine => routine.script.renumber numbers) =
        (((insertAll [] added).get? callee).map Routine.script).map (Script.renumber numbers) := by
    rw [Option.map_map]
    rfl
  apply Option.ext
  intro script
  rw [script_insertAll unique, perm.mem_iff, List.mem_map, twice, Option.map_eq_some_iff]
  constructor
  · rintro ⟨⟨other, found⟩, member, same⟩
    rw [Prod.map, Prod.mk.injEq] at same
    obtain ⟨key, rfl⟩ := same
    exact ⟨found, (script_insertAll distinct).mpr (injective key ▸ member), rfl⟩
  · rintro ⟨found, there, rfl⟩
    exact ⟨(callee, found), (script_insertAll distinct).mp there, rfl⟩

end Library

namespace Yield

/-- What a yield has in another order, it has in order under other numbers. -/
theorem Rearranges.exists_renumbering {yield other : Yield} (same : yield.Rearranges other)
    (starts : other.Starts 0 0) : ∃ numbers : Renumbering, Function.Injective numbers.index ∧
      Function.Injective numbers.callee ∧ (yield.renumber numbers).Starts 0 0 := by
  have names := same.names.map Name.index
  have declared := same.declared.map Prod.snd
  rw [starts.names, ← List.range_eq_range'] at names
  rw [starts.declared, ← List.range_eq_range'] at declared
  obtain ⟨index, first, indices⟩ := exists_inOrder names
  obtain ⟨callee, second, callees⟩ := exists_inOrder declared
  refine ⟨⟨index, callee⟩, first, second, ⟨?_, ?_⟩⟩
  · rw [renumber, List.length_map, same.names.length_eq, ← List.range_eq_range', ← indices,
      List.map_map, List.map_map]
    rfl
  · rw [renumber, List.length_map, same.declared.length_eq, ← List.range_eq_range', ← callees,
      List.map_map, List.map_map]
    rfl

/-- Libraries that are filled with one yield in two orders. -/
theorem Fills.renumbers {yield other : Yield} {numbers : Renumbering}
    {after last : Lowering.Progress} (fills : yield.Fills .start after)
    (filled : (other.renumber numbers).Fills .start last) (same : other.Rearranges yield)
    (owes : yield.Owes []) (apart : Function.Injective numbers.callee) :
    Library.Renumbers numbers after.library last.library := by
  obtain ⟨added, scripts, built⟩ := fills.library
  obtain ⟨others, moved, rebuilt⟩ := filled.library
  have distinct : (added.map Prod.fst).Nodup := by
    have keys : added.map Prod.fst = yield.scripts.map Prod.fst := by
      rw [← scripts, List.map_map]
      rfl
    rw [keys]
    refine owes.nodup_iff.mpr ?_
    rw [List.nil_append, fills.starts.declared]
    exact List.nodup_range'
  rw [built, rebuilt]
  apply Library.Renumbers.of_perm apart distinct
  rw [moved, scripts]
  exact same.scripts.map _

end Yield

/-- The first of the procedures keeps its number. -/
theorem ProceduresYield.reorder {primitives : List Identifier} {visible : Levels Callee}
    {first other : Procedure} {procedures others : List Procedure}
    {declared : List (Identifier × Callee)} {yield : Yield} (begins : first.Reorders other)
    (reorder : ProceduresReorder procedures others)
    (yields : ProceduresYield primitives visible declared (first :: procedures) yield) :
    ∃ given more, ProceduresYield primitives visible given (other :: others) more ∧
      given.head? = declared.head? ∧ given.Perm declared ∧ more.Rearranges yield := by
  cases yields with
  | cons part rest =>
      obtain ⟨more, yields, same⟩ := begins.yields part
      obtain ⟨given, bodies, follow, perm, also⟩ := reorder.yields rest
      rw [← begins.name]
      exact ⟨_, _, .cons yields follow, rfl, perm.cons _,
        same.append ((Yield.Rearranges.refl _).append also)⟩

namespace Lowering

variable {context : Context}

/-- What the procedures of a file yield, with their declarations. -/
theorem document_yields {procedures : List Procedure} {after : Progress}
    (made : Makes (lowerProcedures context (Scope.root.declareAll 0 procedures) 0 procedures)
      ⟨0, procedures.length, []⟩ () after) :
    ∃ yield, ProceduresYield context.primitives (Scope.root.declareAll 0 procedures).procedures
      (Scope.numbered 0 procedures) procedures yield ∧
        (Yield.declaring (Scope.numbered 0 procedures) ++ yield).Fills .start after := by
  obtain ⟨yield, yields, fills⟩ := lowerProcedures_yields made
  refine ⟨yield, yields, (Yield.Fills.declaring .start procedures).append ?_⟩
  simpa [Progress.start] using fills

/-- The procedures of a file are compiled with the numbers that put their yield in order. -/
theorem document_makes {numbers : Renumbering} {inner : Scope} {procedures : List Procedure}
    {declared : List (Identifier × Callee)} {yield : Yield}
    (distinct : (procedures.map Procedure.name).Nodup) (opens : Scope.root.Opens declared inner)
    (yields : ProceduresYield context.primitives inner.procedures declared procedures yield)
    (starts : ((Yield.declaring declared ++ yield).renumber numbers).Starts 0 0) :
    declared.map (Prod.map id numbers.callee) = Scope.numbered 0 procedures ∧
      ∃ after, Makes (lowerProcedures context (Scope.root.declareAll 0 procedures) 0 procedures)
          ⟨0, procedures.length, []⟩ () after ∧
        ((Yield.declaring declared ++ yield).renumber numbers).Fills .start after := by
  rw [Yield.renumber_append] at starts ⊢
  have first : ((Yield.declaring declared).renumber numbers).Starts Progress.start.names
      Progress.start.callees := (Yield.Starts.append.mp starts).1
  obtain ⟨order, declares, opened⟩ :=
    declaring_fills yields.names distinct opens (.root numbers) first
  obtain ⟨after, made, fills⟩ :=
    proceduresYield_makes yields opened.procedures (declares.onward starts) order
  refine ⟨order, after, ?_, declares.append fills⟩
  simpa [Progress.start] using made

/-- The procedure that the file begins with has number 0 in each order. -/
theorem keeps_first {numbers : Renumbering} {given : List (Identifier × Callee)}
    {first other : Procedure} {procedures others : List Procedure}
    (head : given.head? = (Scope.numbered 0 (first :: procedures)).head?)
    (order : given.map (Prod.map id numbers.callee) = Scope.numbered 0 (other :: others)) :
    numbers.callee 0 = 0 := by
  cases given with
  | nil => cases head
  | cons entry given =>
      have number : entry.2 = 0 := congrArg Prod.snd (Option.some.inj head)
      rw [List.map_cons, Scope.numbered, List.cons.injEq] at order
      rw [← number]
      exact (congrArg Prod.snd order.1).trans number.symm

/-- A reordering of a document is compiled to the same with other numbers. -/
theorem document_reorders {elsewhere : Context} {document other : Document} {routine : Routine}
    (same : elsewhere.primitives = context.primitives) (reorders : document.Reorders other)
    (made : Lowering.document context document = .ok routine) :
    ∃ numbers again, Lowering.document elsewhere other = .ok again ∧
      routine.Renumbers numbers again := by
  obtain ⟨distinct, after, main, part, found, rfl⟩ := makes_document.mp made
  obtain ⟨yield, yields, fills⟩ := document_yields part
  cases reorders with
  | @intro first other procedures others begins reorder =>
      rw [← same] at yields
      obtain ⟨given, more, follow, head, perm, also⟩ :=
        ProceduresYield.reorder begins reorder yields
      have whole : (Yield.declaring given ++ more).Rearranges
          (.declaring (Scope.numbered 0 (first :: procedures)) ++ yield) :=
        Yield.Rearranges.append ⟨.refl _, perm, .refl _⟩ also
      obtain ⟨numbers, injective, apart, starts⟩ := whole.exists_renumbering fills.starts
      have distinct' := yields.distinct follow perm distinct
      obtain ⟨order, last, again, filled⟩ := document_makes distinct'
        ((Scope.Opens.declareAll .root 0 distinct).perm perm) follow starts
      have members := fills.renumbers filled whole (.declaring yields.owes) apart
      have there := members 0
      rw [keeps_first head order, found, Option.map_some, Option.map_eq_some_iff] at there
      obtain ⟨main', found', script⟩ := there
      exact ⟨numbers, _, makes_document.mpr ⟨distinct', last, main', again, found', rfl⟩,
        injective, script, members⟩

end Lowering

end Runbook
