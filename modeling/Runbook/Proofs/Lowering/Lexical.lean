import Runbook.Proofs.Lowering.Progress

/-!
What names compile to.

The rules below compile a tree without a table: a name means what the innermost block around it
gives it. `Lowers` relates a construct to its steps where the blocks around it have bound certain
names and declare certain procedures; blocks that are closed before the place, stand beside it or in
another procedure are not around it. What compiling makes of a document follows these rules.
-/
namespace Runbook

/-- In the innermost of the blocks that has items of the key, the item is the only one. -/
inductive Innermost {α : Type} (key : α → Identifier) : List (List α) → Identifier → α → Prop
  | here {block : List α} {blocks : List (List α)} {item : α} :
      item ∈ block → (∀ other ∈ block, key other = key item → other = item) →
      Innermost key (block :: blocks) (key item) item
  | around {block : List α} {blocks : List (List α)} {identifier : Identifier} {item : α} :
      (∀ other ∈ block, key other ≠ identifier) → Innermost key blocks identifier item →
      Innermost key (block :: blocks) identifier item

/-- A declared procedure and the number that it got. -/
abbrev Declared := Procedure × Callee

def Declared.name (declared : Declared) : Identifier := declared.1.name

/-- What is around a place of a runbook. -/
structure Surroundings where
  /-- The names that the innermost block has bound before the place, after the parameters if it is a
  procedure's own block. -/
  inner : List Name
  /-- The names that the blocks around it in the same procedure have bound before it. -/
  outer : List (List Name)
  /-- The procedures that the blocks around the place declare, the innermost block first, and last
  those of the file. -/
  declared : List (List Declared)
  setting : Setting

namespace Surroundings

/-- The variable that the identifier means. -/
def Means (around : Surroundings) : Identifier → Name → Prop :=
  Innermost Name.identifier (around.inner :: around.outer)

/-- The number of the procedure that the name means. -/
def Calls (around : Surroundings) (name : Identifier) (callee : Callee) : Prop :=
  ∃ procedure, Innermost Declared.name around.declared name (procedure, callee)

/-- No block around declares a procedure of the name. -/
def Undeclared (around : Surroundings) (name : Identifier) : Prop :=
  ∀ block ∈ around.declared, ∀ declared ∈ block, Declared.name declared ≠ name

/-- After the binding of names. -/
def bind (around : Surroundings) (names : List Name) : Surroundings :=
  { around with inner := around.inner ++ names }

/-- In a restriction's block, which declares procedures of its own. -/
def restrict (around : Surroundings) (setting : Setting) (declared : List Declared) :
    Surroundings where
  inner := []
  outer := around.inner :: around.outer
  declared := declared :: around.declared
  setting := match setting with
    | .inherit => around.setting
    | other => other

end Surroundings

section
variable (library : Library) (primitives : List Identifier)

mutual

/-- The expression compiles to the entries. -/
inductive Expression.Lowers : Surroundings → Expression → Sequence → Prop
  | call {around offset name argument entries callee} :
      around.Calls name callee → Expression.Lowers around argument entries →
      Expression.Lowers around (.application offset name argument)
        [⟨around.setting, .call callee entries.toStep⟩]
  | invoke {around offset name argument entries} :
      around.Undeclared name → name ∈ primitives → Expression.Lowers around argument entries →
      Expression.Lowers around (.application offset name argument)
        [⟨around.setting, .invoke name entries.toStep⟩]
  | unit {around offset} :
      Expression.Lowers around (.unit offset) [⟨around.setting, .literal .unit⟩]
  | text {around offset text} :
      Expression.Lowers around (.text offset text) [⟨around.setting, .literal (.text text)⟩]
  | amount {around offset quantity} :
      Expression.Lowers around (.amount offset quantity)
        [⟨around.setting, .literal (.quantity quantity)⟩]
  | tablet {around offset fields steps} : FieldsLower around fields steps →
      Expression.Lowers around (.tablet offset fields)
        [⟨around.setting, .literal (.tablet steps)⟩]
  | reference {around offset identifiers names} :
      List.Forall₂ around.Means identifiers names →
      Expression.Lowers around (.reference offset identifiers)
        [⟨around.setting, .tuple (names.map .read)⟩]
  | operation {around offset operator left right first second} :
      Expression.Lowers around left first → Expression.Lowers around right second →
      Expression.Lowers around (.operation offset operator left right)
        [⟨around.setting, .invoke operator.primitive (.tuple [first.toStep, second.toStep])⟩]
  | grouping {around offset inner entries} : Expression.Lowers around inner entries →
      Expression.Lowers around (.grouping offset inner) entries
  | restriction {around offset setting block declared entries} :
      BlockLowers (around.restrict setting declared) block declared entries →
      Expression.Lowers around (.restriction offset setting block) entries

inductive FieldsLower : Surroundings → List (Label × Expression) → List (Label × Step) → Prop
  | nil {around} : FieldsLower around [] []
  | cons {around label value fields entries steps} :
      Expression.Lowers around value entries → FieldsLower around fields steps →
      FieldsLower around ((label, value) :: fields) ((label, entries.toStep) :: steps)

/-- The statements compile to the entries, each where those before it have bound their names. -/
inductive StatementsLower : Surroundings → List Statement → Sequence → Prop
  | nil {around} : StatementsLower around [] []
  | assignment {around offset targets value block entries names others} :
      Expression.Lowers around value entries → names.map Name.identifier = targets →
      StatementsLower (around.bind names) block others →
      StatementsLower around (.assignment offset targets value :: block)
        (⟨around.setting, .bind names entries.toStep⟩ :: others)
  | execute {around offset value block entries others} :
      Expression.Lowers around value entries → StatementsLower around block others →
      StatementsLower around (.execute offset value :: block) (entries ++ others)
  | declaration {around offset procedure block entries} : StatementsLower around block entries →
      StatementsLower around (.declaration offset procedure :: block) entries
  | comment {around offset text block entries} : StatementsLower around block entries →
      StatementsLower around (.comment offset text :: block) entries
  | blank {around offset block entries} : StatementsLower around block entries →
      StatementsLower around (.blank offset :: block) entries
  | series {around offset block entries} : StatementsLower around block entries →
      StatementsLower around (.series offset :: block) entries

/-- The block compiles to the entries, and each procedure that it declares to the routine of its
number. -/
inductive BlockLowers : Surroundings → Block → List Declared → Sequence → Prop
  | intro {around block declared entries} : declared.map Prod.fst = declarations block →
      (declared.map Prod.snd).Nodup → StatementsLower around block entries →
      BodiesLower around.declared declared → BlockLowers around block declared entries

/-- The library has the routines that declared procedures compile to, under their numbers. -/
inductive BodiesLower : List (List Declared) → List Declared → Prop
  | nil {around} : BodiesLower around []
  | cons {around procedure callee routine declared} : library.get? callee = some routine →
      Procedure.Lowers around procedure routine → BodiesLower around declared →
      BodiesLower around ((procedure, callee) :: declared)

/-- The procedure compiles to the routine. It sees the procedures around it and no variable. -/
inductive Procedure.Lowers : List (List Declared) → Procedure → Routine → Prop
  | intro {around procedure names declared entries} :
      names.map Name.identifier = procedure.parameters →
      BlockLowers ⟨names, [], declared :: around, .inherit⟩ procedure.block declared entries →
      Procedure.Lowers around procedure ⟨procedure, names, entries, []⟩

end

end

/-- Binds the values of items under their keys. -/
def Levels.bindEach {α β : Type} (key : α → Identifier) (value : α → β) (levels : Levels β) :
    List α → Levels β
  | [] => levels
  | item :: items => (levels.bind (key item) (value item)).bindEach key value items

/-- The tables say of a name what the innermost block says of it; the innermost table has the names
of the innermost block. -/
structure Levels.Agree {α β : Type} (key : α → Identifier) (value : α → β) (levels : Levels β)
    (blocks : List (List α)) : Prop where
  found : ∀ name meaning, levels.get? name = some meaning →
    ∃ item, Innermost key blocks name item ∧ value item = meaning
  missing : ∀ name, levels.get? name = none → ∀ block ∈ blocks, ∀ item ∈ block, key item ≠ name
  held : ∀ name, levels.holds name = true ↔ ∃ item ∈ blocks.headD [], key item = name

namespace Levels.Agree

variable {α β : Type} {key : α → Identifier} {value : α → β} {levels : Levels β}
  {block : List α} {blocks : List (List α)}

theorem empty : Agree key value (.empty : Levels β) [[]] where
  found name meaning found := by cases found
  missing name _ block member item inside := by
    obtain rfl := List.mem_singleton.mp member
    cases inside
  held name := by
    constructor
    · intro held
      cases held
    · intro held
      obtain ⟨item, inside, _⟩ := held
      cases inside

theorem push (agree : Agree key value levels blocks) :
    Agree key value levels.push ([] :: blocks) where
  found name meaning found := by
    obtain ⟨item, innermost, same⟩ := agree.found name meaning found
    exact ⟨item, .around (fun _ member => by cases member) innermost, same⟩
  missing name missing block member := by
    rcases List.mem_cons.mp member with rfl | member
    · intro item inside
      cases inside
    · exact agree.missing name missing block member
  held name := by simp

theorem bind (agree : Agree key value levels (block :: blocks)) {item : α}
    (new : levels.holds (key item) = false) :
    Agree key value (levels.bind (key item) (value item)) ((block ++ [item]) :: blocks) where
  found name meaning found := by
    have other (earlier : α) (member : earlier ∈ block) : key earlier ≠ key item := fun same => by
      have := (agree.held (key item)).mpr ⟨earlier, member, same⟩
      rw [new] at this
      cases this
    rw [get?_bind] at found
    by_cases same : name = key item
    · rw [if_pos same, Option.some.injEq] at found
      subst same
      refine ⟨item, .here (List.mem_append_right _ List.mem_cons_self) ?_, found⟩
      intro earlier member equal
      rcases List.mem_append.mp member with member | member
      · exact absurd equal (other earlier member)
      · exact List.mem_singleton.mp member
    · rw [if_neg same] at found
      obtain ⟨earlier, innermost, equal⟩ := agree.found name meaning found
      refine ⟨earlier, ?_, equal⟩
      cases innermost with
      | here member only =>
          refine .here (List.mem_append_left _ member) fun another inside equal => ?_
          rcases List.mem_append.mp inside with inside | inside
          · exact only another inside equal
          · rw [List.mem_singleton.mp inside] at equal
            exact absurd equal.symm same
      | around apart innermost =>
          refine .around (fun another inside => ?_) innermost
          rcases List.mem_append.mp inside with inside | inside
          · exact apart another inside
          · rw [List.mem_singleton.mp inside]
            exact Ne.symm same
  missing name missing other member earlier inside := by
    rw [get?_bind] at missing
    by_cases same : name = key item
    · rw [if_pos same] at missing
      cases missing
    · rw [if_neg same] at missing
      rcases List.mem_cons.mp member with rfl | member
      · rcases List.mem_append.mp inside with inside | inside
        · exact agree.missing name missing block List.mem_cons_self earlier inside
        · rw [List.mem_singleton.mp inside]
          exact Ne.symm same
      · exact agree.missing name missing other (List.mem_cons_of_mem _ member) earlier inside
  held name := by
    rw [holds_bind]
    have := agree.held name
    simp only [List.headD_cons] at this ⊢
    simp only [Bool.or_eq_true, beq_iff_eq, this, List.mem_append, List.mem_singleton, or_and_right,
      exists_or, exists_eq_left]
    rw [or_comm, eq_comm]

theorem bindEach {items : List α} (agree : Agree key value levels (block :: blocks))
    (distinct : (items.map key).Nodup) (new : ∀ item ∈ items, levels.holds (key item) = false) :
    Agree key value (levels.bindEach key value items) ((block ++ items) :: blocks) := by
  induction items generalizing levels block with
  | nil => simpa only [Levels.bindEach, List.append_nil] using agree
  | cons item items ih =>
      rw [List.map_cons, List.nodup_cons] at distinct
      have bound := agree.bind (new item List.mem_cons_self)
      have rest := ih bound distinct.2 fun other member => by
        rw [holds_bind, new other (List.mem_cons_of_mem _ member), Bool.or_false,
          beq_eq_false_iff_ne]
        intro same
        exact distinct.1 (same ▸ List.mem_map_of_mem member)
      simpa only [Levels.bindEach, List.append_assoc, List.singleton_append] using rest

end Levels.Agree

/-- The scope is that of a place with the surroundings. -/
structure Scope.Agrees (scope : Scope) (around : Surroundings) : Prop where
  names : Levels.Agree Name.identifier id scope.names (around.inner :: around.outer)
  procedures : Levels.Agree Declared.name Prod.snd scope.procedures around.declared
  setting : scope.setting = around.setting

/-- Procedures with their numbers from `first` on. -/
def Declared.number (first : Callee) : List Procedure → List Declared
  | [] => []
  | procedure :: procedures => (procedure, first) :: number (first + 1) procedures

theorem Declared.number_procedures (first : Callee) (procedures : List Procedure) :
    (number first procedures).map Prod.fst = procedures := by
  induction procedures generalizing first with
  | nil => rfl
  | cons procedure procedures ih => simp only [number, List.map_cons, ih]

theorem Declared.number_names (first : Callee) (procedures : List Procedure) :
    (number first procedures).map Declared.name = procedures.map Procedure.name := by
  rw [← number_procedures first procedures, List.map_map, number_procedures]
  rfl

theorem Declared.number_callees (first : Callee) (procedures : List Procedure) :
    (number first procedures).map Prod.snd = List.range' first procedures.length := by
  induction procedures generalizing first with
  | nil => rfl
  | cons procedure procedures ih => simp only [number, List.map_cons, ih, List.length_cons,
      List.range'_succ]

namespace Scope

theorem bindAll_names (scope : Scope) (names : List Name) :
    (scope.bindAll names).names = scope.names.bindEach Name.identifier id names := by
  induction names generalizing scope with
  | nil => rfl
  | cons name names ih => exact ih _

theorem declareAll_procedures (scope : Scope) (first : Callee) (procedures : List Procedure) :
    (scope.declareAll first procedures).procedures =
      scope.procedures.bindEach Declared.name Prod.snd (Declared.number first procedures) := by
  induction procedures generalizing scope first with
  | nil => rfl
  | cons procedure procedures ih => exact ih _ _

variable {scope : Scope} {around : Surroundings}

theorem Agrees.means (agrees : scope.Agrees around) {identifiers : List Identifier}
    {names : List Name} (meant : identifiers.map scope.names.get? = names.map some) :
    List.Forall₂ around.Means identifiers names := by
  induction identifiers generalizing names with
  | nil =>
      cases names with
      | nil => exact .nil
      | cons name names => cases meant
  | cons identifier identifiers ih =>
      cases names with
      | nil => cases meant
      | cons name names =>
          rw [List.map_cons, List.map_cons, List.cons.injEq] at meant
          obtain ⟨_, innermost, rfl⟩ := agrees.names.found identifier name meant.1
          exact .cons innermost (ih meant.2)

theorem Agrees.bindAll {names : List Name} (agrees : scope.Agrees around)
    (distinct : (names.map Name.identifier).Nodup)
    (new : ∀ name ∈ names, scope.names.holds name.identifier = false) :
    (scope.bindAll names).Agrees (around.bind names) where
  names := by
    rw [bindAll_names]
    exact agrees.names.bindEach distinct new
  procedures := by
    rw [bindAll_procedures]
    exact agrees.procedures
  setting := by
    rw [bindAll_setting]
    exact agrees.setting

/-- The tables after the declarations of a block that is just entered. -/
theorem declareAll_agree {declared : List (List Declared)} {procedures : List Procedure}
    (agree : Levels.Agree Declared.name Prod.snd scope.procedures declared) (first : Callee)
    (distinct : (procedures.map Procedure.name).Nodup) (inside : Scope)
    (entered : inside.procedures = scope.procedures.push) :
    Levels.Agree Declared.name Prod.snd (inside.declareAll first procedures).procedures
      (Declared.number first procedures :: declared) := by
  rw [declareAll_procedures, entered]
  exact agree.push.bindEach (by rwa [Declared.number_names]) fun _ _ => Levels.holds_push _ _

theorem Agrees.restrict (agrees : scope.Agrees around) (setting : Setting)
    {procedures : List Procedure} (distinct : (procedures.map Procedure.name).Nodup)
    (first : Callee) :
    ((scope.restrict setting).declareAll first procedures).Agrees
      (around.restrict setting (Declared.number first procedures)) where
  names := by
    rw [declareAll_names]
    exact agrees.names.push
  procedures := declareAll_agree agrees.procedures first distinct _ rfl
  setting := by
    rw [declareAll_setting]
    cases setting with
    | inherit => exact agrees.setting
    | role name => rfl
    | place name => rfl

theorem body_agrees {declared : List (List Declared)}
    (agree : Levels.Agree Declared.name Prod.snd scope.procedures declared) {names : List Name}
    (unique : (names.map Name.identifier).Nodup) {procedures : List Procedure}
    (distinct : (procedures.map Procedure.name).Nodup) (first : Callee) :
    ((scope.body.bindAll names).declareAll first procedures).Agrees
      ⟨names, [], Declared.number first procedures :: declared, .inherit⟩ where
  names := by
    rw [declareAll_names, bindAll_names]
    exact Levels.Agree.empty.bindEach unique fun _ _ => rfl
  procedures := declareAll_agree agree first distinct _ (bindAll_procedures _ _)
  setting := by
    rw [declareAll_setting, bindAll_setting]
    rfl

end Scope

namespace Lowering

/-- The library has the routines that were still to be compiled before and are compiled after. -/
def Settled (library : Library) (owed : List Nat) (before after : Progress) : Prop :=
  ∀ callee : Nat, before.Open owed callee → callee < after.callees →
    library.get? callee = after.library.get? callee

variable {context : Context} {library : Library}

theorem Settled.split {owed others : List Nat} {made more : List Name}
    {before middle after : Progress} (settled : Settled library (owed ++ others) before after)
    (first : before.Advances middle owed made) (second : middle.Advances after others more)
    (apart : owed.Disjoint others) (declared : ∀ callee ∈ others, callee < before.callees) :
    Settled library owed before middle ∧ Settled library others middle after := by
  constructor
  · intro callee opened below
    have new : callee ∉ others := fun member => opened.elim (fun owed => apart owed member)
      (Nat.not_le_of_lt (declared callee member))
    rw [settled callee (opened.imp_left (List.mem_append_left _))
      (Nat.lt_of_lt_of_le below second.callees), second.kept callee new (.inl below)]
  · intro callee opened below
    exact settled callee (opened.imp (List.mem_append_right _) (Nat.le_trans first.callees)) below

/-- Parts that leave nothing to be compiled follow one another. -/
theorem Settled.append {made more : List Name} {before middle after : Progress}
    (settled : Settled library [] before after) (first : before.Advances middle [] made)
    (second : middle.Advances after [] more) :
    Settled library [] before middle ∧ Settled library [] middle after :=
  settled.split first second (List.disjoint_nil_left _) (by simp)

theorem Settled.keep {routine : Routine} {callee count : Nat} {before middle after : Progress}
    (settled : Settled library (List.range' callee (count + 1)) before after)
    (first : before.Advances middle [] routine.binders)
    (rest : callee + 1 + count ≤ middle.callees →
      Progress.Advances { middle with library := middle.library.insert callee routine } after
        (List.range' (callee + 1) count) [])
    (declared : callee + (count + 1) ≤ before.callees) :
    library.get? callee = some routine ∧ Settled library [] before middle ∧
      Settled library (List.range' (callee + 1) count)
        { middle with library := middle.library.insert callee routine } after := by
  have := first.callees
  rw [List.range'_succ, ← List.singleton_append] at settled
  obtain ⟨earlier, later⟩ := settled.split (first.keep (by omega)) (rest (by omega))
    (by simp only [List.singleton_disjoint, List.mem_range'_1]; omega)
    (by simp only [List.mem_range'_1]; omega)
  refine ⟨?_, ?_, later⟩
  · have kept := earlier callee (.inl List.mem_cons_self) (by simp only; omega)
    rwa [Library.get?_insert, if_pos rfl] at kept
  · intro other opened below
    have opened := opened.resolve_left List.not_mem_nil
    have kept := earlier other (.inr opened) below
    rwa [Library.get?_insert, if_neg (Nat.ne_of_gt (by omega))] at kept

theorem inScope_lowers {scope : Scope} {around : Surroundings} {block : Block}
    {sequence : Sequence} {before after : Progress}
    (made : Makes (inScope scope block (fun scope => lowerStatements context scope block)
      (fun scope first => lowerBodies context scope first block)) before sequence after)
    (settled : Settled library [] before after)
    (agrees : ((declarations block).map Procedure.name).Nodup →
      (scope.declareAll before.callees (declarations block)).Agrees around)
    (stated : ∀ {outer inner : Scope} {before after : Progress}, outer.Agrees around →
      Makes (lowerStatements context outer block) before (sequence, inner) after →
        Settled library [] before after →
        StatementsLower library context.primitives around block sequence)
    (compiled : ∀ {inner : Scope} {callee : Nat} {before after : Progress},
      Levels.Agree Declared.name Prod.snd inner.procedures around.declared →
      Makes (lowerBodies context inner callee block) before () after →
        callee + (declarations block).length ≤ before.callees →
        Settled library (List.range' callee (declarations block).length) before after →
        BodiesLower library context.primitives around.declared
          (Declared.number callee (declarations block))) :
    BlockLowers library context.primitives around block
      (Declared.number before.callees (declarations block)) sequence := by
  obtain ⟨⟨distinct, _⟩, inner, middle, first, rest⟩ := makes_inScope.mp made
  have agrees := agrees distinct
  have advances := lowerStatements_advances block first
  have bodies := lowerBodies_advances block rest advances.callees
  have settled : Settled library ([] ++ List.range' before.callees (declarations block).length)
      { before with callees := before.callees + (declarations block).length } after := by
    intro callee opened below
    refine settled callee (.inr ?_) below
    simp only [Progress.Open, List.nil_append, List.mem_range'_1] at opened
    omega
  obtain ⟨left, right⟩ := settled.split advances bodies (List.disjoint_nil_left _)
    (by simp only [List.mem_range'_1]; omega)
  refine .intro (Declared.number_procedures _ _) ?_ (stated agrees first left) ?_
  · rw [Declared.number_callees]
    exact List.nodup_range'
  · refine compiled ?_ rest advances.callees right
    rw [lowerStatements_procedures first]
    exact agrees.procedures

mutual

theorem lowerExpression_lowers {scope : Scope} {around : Surroundings} {before after : Progress}
    {sequence : Sequence} (agrees : scope.Agrees around) : ∀ expression : Expression,
      Makes (lowerExpression context scope expression) before sequence after →
      Settled library [] before after →
        expression.Lowers library context.primitives around sequence
  | .application offset name argument, made, settled => by
      obtain ⟨entries, part, meant⟩ := makes_application.mp made
      have lowers := lowerExpression_lowers agrees argument part settled
      rw [agrees.setting] at meant
      rcases meant with ⟨callee, found, rfl⟩ | ⟨missing, member, rfl⟩
      · obtain ⟨⟨procedure, _⟩, innermost, rfl⟩ := agrees.procedures.found name callee found
        exact .call ⟨procedure, innermost⟩ lowers
      · exact .invoke (agrees.procedures.missing name missing) member lowers
  | .unit offset, made, _ => by
      obtain ⟨rfl, _⟩ := makes_pure.mp made
      rw [agrees.setting]
      exact .unit
  | .text offset text, made, _ => by
      obtain ⟨rfl, _⟩ := makes_pure.mp made
      rw [agrees.setting]
      exact .text
  | .amount offset quantity, made, _ => by
      obtain ⟨rfl, _⟩ := makes_pure.mp made
      rw [agrees.setting]
      exact .amount
  | .hole offset, made, _ => absurd made makes_refuse
  | .tablet offset fields, made, settled => by
      obtain ⟨steps, part, rfl⟩ := makes_tablet.mp made
      rw [agrees.setting]
      exact .tablet (lowerFields_lowers agrees fields part settled)
  | .reference offset identifiers, made, _ => by
      obtain ⟨names, meant, rfl, _⟩ := makes_reference.mp made
      rw [agrees.setting]
      exact .reference (agrees.means meant)
  | .operation offset operator left right, made, settled => by
      obtain ⟨first, middle, second, part, rest, rfl⟩ := makes_operation.mp made
      obtain ⟨earlier, later⟩ := settled.append (lowerExpression_advances left part)
        (lowerExpression_advances right rest)
      rw [agrees.setting]
      exact .operation (lowerExpression_lowers agrees left part earlier)
        (lowerExpression_lowers agrees right rest later)
  | .grouping offset inner, made, settled =>
      .grouping (lowerExpression_lowers agrees inner made settled)
  | .restriction offset setting block, made, settled => by
      rw [lowerExpression] at made
      exact .restriction (inScope_lowers made settled
        (fun distinct => agrees.restrict setting distinct before.callees)
        (fun agrees => lowerStatements_lowers agrees block)
        (fun agree => lowerBodies_lowers agree block))

theorem lowerFields_lowers {scope : Scope} {around : Surroundings} {before after : Progress}
    {steps : List (Label × Step)} (agrees : scope.Agrees around) :
    ∀ fields : List (Label × Expression),
      Makes (lowerFields context scope fields) before steps after →
      Settled library [] before after →
        FieldsLower library context.primitives around fields steps
  | [], made, _ => by
      obtain ⟨rfl, _⟩ := makes_pure.mp made
      exact .nil
  | (label, value) :: fields, made, settled => by
      obtain ⟨entries, middle, others, part, rest, rfl⟩ := makes_field.mp made
      obtain ⟨earlier, later⟩ := settled.append (lowerExpression_advances value part)
        (lowerFields_advances fields rest)
      exact .cons (lowerExpression_lowers agrees value part earlier)
        (lowerFields_lowers agrees fields rest later)

theorem lowerStatements_lowers {scope inner : Scope} {around : Surroundings}
    {before after : Progress} {sequence : Sequence} (agrees : scope.Agrees around) :
    ∀ block : List Statement,
      Makes (lowerStatements context scope block) before (sequence, inner) after →
      Settled library [] before after →
        StatementsLower library context.primitives around block sequence
  | [], made, _ => by
      simp only [lowerStatements, makes_pure, Prod.mk.injEq] at made
      rw [made.1.1]
      exact .nil
  | .assignment offset targets value :: block, made, settled => by
      obtain ⟨⟨distinct, new⟩, entries, middle, names, others, part, rfl, rest, rfl⟩ :=
        makes_assignment.mp made
      have bound := Progress.Advances.bind middle targets
      obtain ⟨earlier, later⟩ := settled.append
        ((lowerExpression_advances value part).append bound) (lowerStatements_advances block rest)
      have same := Name.number_identifiers middle.names targets
      have held : ∀ name ∈ Name.number middle.names targets,
          scope.names.holds name.identifier = false := fun name member =>
        new _ (same ▸ List.mem_map_of_mem member)
      rw [agrees.setting]
      exact .assignment (lowerExpression_lowers agrees value part earlier) same
        (lowerStatements_lowers (agrees.bindAll (same.symm ▸ distinct) held) block rest later)
  | .execute offset value :: block, made, settled => by
      obtain ⟨entries, middle, others, part, rest, rfl⟩ := makes_execute.mp made
      obtain ⟨earlier, later⟩ := settled.append (lowerExpression_advances value part)
        (lowerStatements_advances block rest)
      exact .execute (lowerExpression_lowers agrees value part earlier)
        (lowerStatements_lowers agrees block rest later)
  | .declaration _ _ :: block, made, settled =>
      .declaration (lowerStatements_lowers agrees block made settled)
  | .comment _ _ :: block, made, settled =>
      .comment (lowerStatements_lowers agrees block made settled)
  | .blank _ :: block, made, settled =>
      .blank (lowerStatements_lowers agrees block made settled)
  | .series _ :: block, made, settled =>
      .series (lowerStatements_lowers agrees block made settled)

theorem lowerBodies_lowers {scope : Scope} {declared : List (List Declared)} {callee : Nat}
    {before after : Progress}
    (agree : Levels.Agree Declared.name Prod.snd scope.procedures declared) :
    ∀ block : List Statement,
      Makes (lowerBodies context scope callee block) before () after →
      callee + (declarations block).length ≤ before.callees →
      Settled library (List.range' callee (declarations block).length) before after →
        BodiesLower library context.primitives declared
          (Declared.number callee (declarations block))
  | [], _, _, _ => .nil
  | .assignment _ _ _ :: block, made, below, settled =>
      lowerBodies_lowers agree block made below settled
  | .execute _ _ :: block, made, below, settled =>
      lowerBodies_lowers agree block made below settled
  | .declaration offset procedure :: block, made, below, settled => by
      obtain ⟨routine, middle, part, rest⟩ := makes_declaration.mp made
      obtain ⟨found, inside, others⟩ := settled.keep (lowerProcedure_advances procedure part)
        (lowerBodies_advances block rest) below
      have := (lowerProcedure_advances procedure part).callees
      rw [declarations, List.length_cons] at below
      exact .cons found (lowerProcedure_lowers agree procedure part inside)
        (lowerBodies_lowers agree block rest (by simp only; omega) others)
  | .comment _ _ :: block, made, below, settled =>
      lowerBodies_lowers agree block made below settled
  | .blank _ :: block, made, below, settled =>
      lowerBodies_lowers agree block made below settled
  | .series _ :: block, made, below, settled =>
      lowerBodies_lowers agree block made below settled

theorem lowerProcedure_lowers {scope : Scope} {declared : List (List Declared)}
    {before after : Progress} {routine : Routine}
    (agree : Levels.Agree Declared.name Prod.snd scope.procedures declared) :
    ∀ procedure : Procedure,
      Makes (lowerProcedure context scope procedure) before routine after →
      Settled library [] before after →
        procedure.Lowers library context.primitives declared routine
  | ⟨offset, name, parameters, signature, block⟩, made, settled => by
      obtain ⟨distinct, names, sequence, rfl, part, rfl⟩ := makes_procedure.mp made
      have same := Name.number_identifiers before.names parameters
      have unique := same.symm ▸ distinct
      refine .intro same (inScope_lowers part ?_ (fun distinct =>
          Scope.body_agrees agree unique distinct before.callees)
        (fun agrees => lowerStatements_lowers agrees block)
        (fun agree => lowerBodies_lowers agree block))
      exact settled

end

theorem lowerProcedures_lowers {scope : Scope} {declared : List (List Declared)}
    {procedures : List Procedure} {callee : Nat} {before after : Progress}
    (agree : Levels.Agree Declared.name Prod.snd scope.procedures declared)
    (made : Makes (lowerProcedures context scope callee procedures) before () after)
    (below : callee + procedures.length ≤ before.callees)
    (settled : Settled library (List.range' callee procedures.length) before after) :
    BodiesLower library context.primitives declared (Declared.number callee procedures) := by
  induction procedures generalizing callee before with
  | nil => exact .nil
  | cons procedure procedures ih =>
      obtain ⟨routine, middle, part, rest⟩ := makes_lowerProcedures.mp made
      obtain ⟨found, inside, others⟩ := settled.keep (lowerProcedure_advances procedure part)
        (lowerProcedures_advances rest) below
      have := (lowerProcedure_advances procedure part).callees
      rw [List.length_cons] at below
      exact .cons found (lowerProcedure_lowers agree procedure part inside)
        (ih rest (by simp only; omega) others)

end Lowering

/-- What a document compiles to: its procedures see one another, the routine is the first one's with
the library of all, and no two binders in it share a name. -/
structure Document.Lowers (primitives : List Identifier) (document : Document) (routine : Routine) :
    Prop where
  bodies : ∃ declared : List Declared, declared.map Prod.fst = document.procedures ∧
    (declared.map Prod.snd).Nodup ∧ (declared.map Declared.name).Nodup ∧
    BodiesLower routine.library primitives [declared] declared ∧
    ∃ first ∈ declared.head?, ∃ main, Library.get? routine.library first.2 = some main ∧
      routine = { main with library := routine.library }
  distinct : (Library.binders routine.library).Nodup

/-- Names compile to what their innermost binder or declaration made. -/
theorem Document.compile_lexical {document : Document} {source : Source}
    {primitives : List Identifier} {routine : Routine}
    (compiled : document.compile source primitives = .ok routine) :
    document.Lowers primitives routine := by
  rw [compile_eq_ok] at compiled
  obtain ⟨distinct, after, main, made, found, rfl⟩ := Lowering.makes_document.mp compiled
  have agree : Levels.Agree Declared.name Prod.snd
      (Scope.root.declareAll 0 document.procedures).procedures
      [Declared.number 0 document.procedures] := by
    rw [Scope.declareAll_procedures]
    exact Levels.Agree.empty.bindEach (by rwa [Declared.number_names]) fun _ _ => rfl
  constructor
  · refine ⟨Declared.number 0 document.procedures, Declared.number_procedures _ _, ?_, ?_, ?_, ?_⟩
    · rw [Declared.number_callees]
      exact List.nodup_range'
    · rwa [Declared.number_names]
    · exact Lowering.lowerProcedures_lowers agree made (Nat.le_of_eq (Nat.zero_add _))
        fun _ _ _ => rfl
    · cases procedures : document.procedures with
      | nil =>
          rw [procedures] at made
          obtain ⟨_, rfl⟩ := Lowering.makes_pure.mp made
          cases found
      | cons procedure others => exact ⟨(procedure, 0), rfl, main, found, rfl⟩
  · obtain ⟨last, same, advances⟩ := Lowering.document_advances (Lowering.makes_document.mpr
      ⟨distinct, after, main, made, found, rfl⟩)
    have numbered := advances.numbered fun _ _ => rfl
    rw [same] at numbered
    exact (numbered.nodup_iff.mpr List.nodup_range').of_map

/-- A restriction binds the name of a parameter again, to what a procedure makes of the parameter
that is declared after it under the name of a primitive. -/
def Document.shadowing : Document where
  procedures := [⟨0, "main", ["x"], none, [
    .execute 0 (.restriction 0 (.role "cook") [
      .assignment 0 ["x"] (.application 0 "task" (.reference 0 ["x"])),
      .execute 0 (.reference 0 ["x"])]),
    .execute 0 (.reference 0 ["x"]),
    .declaration 0 ⟨0, "task", ["y"], none, [.execute 0 (.reference 0 ["y"])]⟩]⟩]

theorem Document.compile_lexical_shadowing : ∃ routine,
    shadowing.compile ⟨"", ""⟩ ["task"] = .ok routine ∧
    routine.sequence = [
      ⟨.role "cook", .bind [⟨1, "x"⟩] (.call 1 (.tuple [.read ⟨0, "x"⟩]))⟩,
      ⟨.role "cook", .tuple [.read ⟨1, "x"⟩]⟩,
      ⟨.inherit, .tuple [.read ⟨0, "x"⟩]⟩] ∧
    shadowing.Lowers ["task"] routine :=
  ⟨_, rfl, rfl, @compile_lexical _ ⟨"", ""⟩ _ _ rfl⟩

end Runbook
