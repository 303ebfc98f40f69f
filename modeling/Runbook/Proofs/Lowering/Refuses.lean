import Runbook.Proofs.Lowering.WellScoped

/-!
Why a lowering fails.

The uses of a runbook are the names that its constructs give or ask for, each with what has a
meaning there. A lowering fails at a use that is wrong: its name is unknown, or is given twice. It
says so at the place where the text, searched from the use on, has the name.
-/
namespace Runbook

/-- Names that a construct gives or asks for, and where it begins. -/
inductive Use where
  | applied (offset : Nat) (name : Identifier)
  | hole (offset : Nat)
  | read (offset : Nat) (names : List Identifier)
  | assigned (offset : Nat) (targets : List Identifier)
  /-- The parameters behind the name of a procedure. -/
  | header (offset : Nat) (name : Identifier) (parameters : List Identifier)
  /-- The procedures of a block, or of the file. -/
  | declared (procedures : List Procedure)

/-- What has a meaning after the statement. -/
def Vicinity.after (place : Vicinity) : Statement → Vicinity
  | .assignment _ targets _ => place.bind targets
  | _ => place

mutual

/-- The uses in the expression, each where it stands. -/
def Expression.uses (place : Vicinity) : Expression → List (Vicinity × Use)
  | .application offset name argument => (place, .applied offset name) :: argument.uses place
  | .unit _ | .text _ _ | .amount _ _ => []
  | .hole offset => [(place, .hole offset)]
  | .tablet _ fields => fieldsUses place fields
  | .reference offset names => [(place, .read offset names)]
  | .operation _ _ left right => left.uses place ++ right.uses place
  | .grouping _ inner => inner.uses place
  | .restriction _ _ block =>
    let inside := place.enter block
    (inside, .declared (declarations block)) :: blockUses inside block

def fieldsUses (place : Vicinity) : List (Label × Expression) → List (Vicinity × Use)
  | [] => []
  | (_, value) :: fields => value.uses place ++ fieldsUses place fields

def Statement.uses (place : Vicinity) : Statement → List (Vicinity × Use)
  | .assignment offset targets value => (place, .assigned offset targets) :: value.uses place
  | .execute _ value => value.uses place
  | .declaration _ procedure => procedure.uses place.procedures
  | .comment _ _ | .blank _ | .series _ => []

def blockUses (place : Vicinity) : List Statement → List (Vicinity × Use)
  | [] => []
  | statement :: block => statement.uses place ++ blockUses (place.after statement) block

/-- The uses in a procedure that is declared beside `procedures`. -/
def Procedure.uses (procedures : List Identifier) : Procedure → List (Vicinity × Use)
  | ⟨offset, name, parameters, _, block⟩ =>
    let inside : Vicinity := ⟨parameters, [], declaredNames block ++ procedures⟩
    (inside, .header offset name parameters) :: (inside, .declared (declarations block)) ::
      blockUses inside block

end

def Document.uses (document : Document) : List (Vicinity × Use) :=
  let names := document.procedures.map Procedure.name
  (⟨[], [], names⟩, .declared document.procedures) ::
    document.procedures.flatMap (Procedure.uses names)

/-- A name of the list is bad behind those before it; the misuse is at its place. -/
def Blames (bad : List Identifier → Identifier → Prop) (reason : Identifier → Reason)
    (names : List Identifier) (places : List Nat) (misuse : Misuse) : Prop :=
  ∃ index name place, names[index]? = some name ∧ places[index]? = some place ∧
    bad (names.take index) name ∧ misuse = ⟨place, reason name⟩

/-- The use whose names stand at the places is wrong, as the misuse says. -/
def Use.Wrong (primitives : List Identifier) (around : Vicinity) (places : List Nat)
    (misuse : Misuse) : Use → Prop
  | .applied offset name =>
    (name ∉ around.procedures ∧ name ∉ primitives) ∧ misuse = ⟨offset, .unknownProcedure name⟩
  | .hole offset => misuse = ⟨offset, .hole⟩
  | .read _ names =>
    Blames (fun _ name => name ∉ around.inner ∧ name ∉ around.outer) .unknownVariable names places
      misuse
  | .assigned _ targets =>
    Blames (fun before target => target ∈ around.inner ∨ target ∈ before) .variableInUse targets
      places misuse
  | .header _ _ parameters =>
    Blames (fun before parameter => parameter ∈ before) .variableInUse parameters places misuse
  | .declared procedures =>
    Blames (fun before name => name ∈ before) .procedureDeclared (procedures.map Procedure.name)
      places misuse

section
variable {bad worse : List Identifier → Identifier → Prop} {reason : Identifier → Reason}
  {name : Identifier} {names : List Identifier} {place : Nat} {places : List Nat} {misuse : Misuse}

theorem Blames.head (isBad : bad [] name) :
    Blames bad reason (name :: names) (place :: places) ⟨place, reason name⟩ :=
  ⟨0, name, place, rfl, rfl, isBad, rfl⟩

theorem Blames.tail (blames : Blames bad reason names places misuse)
    (also : ∀ before other, bad before other → worse (name :: before) other) :
    Blames worse reason (name :: names) (place :: places) misuse := by
  obtain ⟨index, other, found, named, stands, isBad, same⟩ := blames
  exact ⟨index + 1, other, found, named, stands, also _ _ isBad, same⟩

end

namespace Lowering

/-- Where the names are found one behind the other from `offset` on. -/
def Context.places (context : Context) (offset : Nat) : List Identifier → List Nat
  | [] => []
  | name :: names =>
    let place := context.locate offset name
    place :: context.places (past place name) names

/-- Where the names of the use are found. -/
def Context.found (context : Context) : Use → List Nat
  | .applied offset _ => [offset]
  | .hole _ => []
  | .read offset names | .assigned offset names => context.places offset names
  | .header offset name parameters => context.places (past offset name) parameters
  | .declared procedures => procedures.map Procedure.offset

/-- One of the uses is wrong, as the misuse says. -/
def Context.Refutes (context : Context) (uses : List (Vicinity × Use)) (misuse : Misuse) : Prop :=
  ∃ around use, (around, use) ∈ uses ∧
    use.Wrong context.primitives around (context.found use) misuse

section
variable {context : Context} {misuse : Misuse} {uses others : List (Vicinity × Use)}

theorem Context.Refutes.mono (refutes : context.Refutes uses misuse)
    (sub : ∀ entry ∈ uses, entry ∈ others) : context.Refutes others misuse := by
  obtain ⟨around, use, mem, wrong⟩ := refutes
  exact ⟨around, use, sub _ mem, wrong⟩

theorem Context.Refutes.left (refutes : context.Refutes uses misuse) :
    context.Refutes (uses ++ others) misuse :=
  refutes.mono fun _ => List.mem_append_left _

theorem Context.Refutes.right (refutes : context.Refutes others misuse) :
    context.Refutes (uses ++ others) misuse :=
  refutes.mono fun _ => List.mem_append_right _

theorem Context.Refutes.tail {entry : Vicinity × Use} (refutes : context.Refutes uses misuse) :
    context.Refutes (entry :: uses) misuse :=
  refutes.mono fun _ => List.mem_cons_of_mem _

theorem Context.Refutes.head {around : Vicinity} {use : Use}
    (wrong : use.Wrong context.primitives around (context.found use) misuse) :
    context.Refutes ((around, use) :: uses) misuse :=
  ⟨around, use, List.mem_cons_self, wrong⟩

end

/-- After `before`, the part fails with the misuse. -/
def Fails {α : Type} (part : Lowering α) (before : Progress) (misuse : Misuse) : Prop :=
  part.run before = .error misuse

section
variable {α β : Type} {before : Progress} {misuse : Misuse}

theorem not_fails_of_makes {part : Lowering α} {a : α} {after : Progress}
    (made : Makes part before a after) : ¬ Fails part before misuse := by
  intro fails
  cases made.symm.trans fails

@[simp] theorem fails_pure {a : α} : ¬ Fails (pure a) before misuse := nofun

@[simp] theorem fails_refuse {offset : Nat} {reason : Reason} :
    Fails (refuse offset reason : Lowering α) before misuse ↔ misuse = ⟨offset, reason⟩ := by
  constructor
  · intro fails
    cases fails
    rfl
  · rintro rfl
    rfl

@[simp] theorem fails_bind {part : Lowering α} {next : α → Lowering β} :
    Fails (part >>= next) before misuse ↔ Fails part before misuse ∨
      ∃ a middle, Makes part before a middle ∧ Fails (next a) middle misuse := by
  simp only [Fails, Makes, StateT.run_bind]
  cases part.run before with
  | error other =>
      constructor
      · intro fails
        cases fails
        exact .inl rfl
      · rintro (fails | ⟨a, middle, made, _⟩)
        · cases fails
          rfl
        · cases made
  | ok result =>
      constructor
      · intro fails
        exact .inr ⟨result.1, result.2, rfl, fails⟩
      · rintro (fails | ⟨a, middle, made, fails⟩)
        · cases fails
        · cases made
          exact fails

@[simp] theorem fails_map {part : Lowering α} {f : α → β} :
    Fails (f <$> part) before misuse ↔ Fails part before misuse := by
  rw [map_eq_pure_bind, fails_bind]
  refine or_iff_left ?_
  rintro ⟨a, middle, _, fails⟩
  exact fails_pure fails

end

variable {context : Context} {scope : Scope} {before : Progress} {misuse : Misuse}

theorem fails_declareAll_go {progress : Progress} {procedures : List Procedure} {next : Callee}
    (fails : Fails (declareAll.go progress scope next procedures) before misuse) :
    Blames (fun before name => scope.procedures.holds name = true ∨ name ∈ before)
      .procedureDeclared (procedures.map Procedure.name) (procedures.map Procedure.offset)
      misuse := by
  induction procedures generalizing scope next with
  | nil => cases fails
  | cons procedure procedures ih =>
      rw [declareAll.go] at fails
      split at fails
      · rename_i held
        rw [fails_refuse.mp fails]
        exact .head (.inl held)
      · refine (ih fails).tail fun others name bad => ?_
        rw [Scope.declare, Levels.holds_bind, Bool.or_eq_true, beq_iff_eq, or_assoc] at bad
        rw [List.mem_cons]
        exact or_left_comm.mp bad

theorem fails_declareAll {around : Vicinity} {procedures : List Procedure}
    (new : ∀ name, scope.procedures.holds name = false)
    (fails : Fails (Lowering.declareAll scope procedures) before misuse) :
    (Use.declared procedures).Wrong context.primitives around
      (context.found (.declared procedures)) misuse := by
  simp only [Lowering.declareAll, fails_bind] at fails
  obtain none | ⟨_, _, _, fails⟩ := fails
  · cases none
  · obtain ⟨index, name, place, named, stands, bad, same⟩ := fails_declareAll_go fails
    refine ⟨index, name, place, named, stands, bad.resolve_left ?_, same⟩
    rw [new]
    exact Bool.false_ne_true

theorem fails_bindParameters {cursor : Nat} {parameters : List Identifier}
    (fails : Fails (bindParameters context scope cursor parameters) before misuse) :
    Blames (fun before name => scope.names.holds name = true ∨ name ∈ before) .variableInUse
      parameters (context.places cursor parameters) misuse := by
  induction parameters generalizing before scope cursor with
  | nil => cases fails
  | cons parameter parameters ih =>
      rw [bindParameters] at fails
      dsimp only at fails
      split at fails
      · rename_i held
        rw [fails_refuse.mp fails]
        exact .head (.inl held)
      · simp only [fails_bind] at fails
        obtain none | ⟨name, _, _, fails | ⟨_, _, _, none⟩⟩ := fails
        · cases none
        · refine (ih fails).tail fun others other bad => ?_
          rw [Scope.bind, Levels.holds_bind, Bool.or_eq_true, beq_iff_eq, or_assoc] at bad
          rw [List.mem_cons]
          exact or_left_comm.mp bad
        · cases none

theorem fails_checkTargets {cursor : Nat} {earlier targets : List Identifier}
    (fails : Fails (checkTargets context scope cursor earlier targets) before misuse) :
    Blames (fun before name => scope.names.holds name = true ∨ name ∈ earlier ∨ name ∈ before)
      .variableInUse targets (context.places cursor targets) misuse := by
  induction targets generalizing cursor earlier with
  | nil => cases fails
  | cons target targets ih =>
      rw [checkTargets] at fails
      split at fails
      · rename_i held
        rw [fails_refuse.mp fails]
        exact .head (held.imp_right .inl)
      · refine (ih fails).tail fun others other bad => bad.imp_right fun given => ?_
        rw [List.mem_cons, or_assoc] at given
        rw [List.mem_cons]
        exact or_left_comm.mp given

theorem fails_lowerReads {cursor : Nat} {identifiers : List Identifier}
    (fails : Fails (lowerReads context scope cursor identifiers) before misuse) :
    Blames (fun _ name => scope.names.get? name = none) .unknownVariable identifiers
      (context.places cursor identifiers) misuse := by
  induction identifiers generalizing cursor before with
  | nil => cases fails
  | cons identifier identifiers ih =>
      rw [lowerReads] at fails
      split at fails
      · rename_i missing
        rw [fails_refuse.mp fails]
        exact .head missing
      · simp only [fails_bind] at fails
        obtain fails | ⟨_, _, _, none⟩ := fails
        · exact (ih fails).tail fun _ _ => id
        · cases none

theorem fails_target {around : Vicinity} (shown : scope.Shows around) {offset : Nat}
    {name : Identifier} (fails : Fails (target context scope offset name) before misuse) :
    (Use.applied offset name).Wrong context.primitives around
      (context.found (.applied offset name)) misuse := by
  rw [target] at fails
  split at fails
  · cases fails
  · rename_i missing
    split at fails
    · cases fails
    · rename_i absent
      refine ⟨⟨?_, by simpa using absent⟩, fails_refuse.mp fails⟩
      rw [← shown.procedures, missing]
      intro same
      cases same

/-- A block fails for its declarations, its statements or the bodies of its procedures. -/
theorem fails_inScope {around : Vicinity} {block : Block}
    (new : ∀ name, scope.procedures.holds name = false)
    (shown : ∀ first, (scope.declareAll first (declarations block)).Shows around)
    (statements : ∀ {inner : Scope} {before : Progress}, inner.Shows around →
      Fails (lowerStatements context inner block) before misuse →
        context.Refutes (blockUses around block) misuse)
    (bodies : ∀ {inner : Scope} {callee : Callee} {before : Progress},
      (∀ name, (inner.procedures.get? name).isSome ↔ name ∈ around.procedures) →
      Fails (lowerBodies context inner callee block) before misuse →
        context.Refutes (blockUses around block) misuse)
    (fails : Fails (inScope scope block (fun scope => lowerStatements context scope block)
      (fun scope first => lowerBodies context scope first block)) before misuse) :
    context.Refutes ((around, .declared (declarations block)) :: blockUses around block)
      misuse := by
  simp only [inScope, fails_bind] at fails
  obtain fails | ⟨⟨first, declared⟩, middle, made, fails⟩ := fails
  · exact .head (fails_declareAll new fails)
  obtain ⟨_, _, rfl, _⟩ := makes_declareAll.mp made
  have shown := shown before.callees
  refine .tail ?_
  obtain fails | ⟨⟨sequence, inner⟩, last, made, fails⟩ := fails
  · exact statements shown fails
  · obtain fails | ⟨_, _, _, none⟩ := fails
    · refine bodies (fun name => ?_) fails
      rw [lowerStatements_procedures made]
      exact shown.procedures name
    · cases none

mutual

theorem fails_lowerExpression {scope : Scope} {around : Vicinity} (shown : scope.Shows around)
    {before : Progress} : ∀ expression : Expression,
      Fails (lowerExpression context scope expression) before misuse →
        context.Refutes (expression.uses around) misuse
  | .application offset name argument, fails => by
      simp only [lowerExpression, fails_bind] at fails
      obtain fails | ⟨_, _, _, fails | ⟨_, _, _, none⟩⟩ := fails
      · exact .head (fails_target shown fails)
      · exact .tail (fails_lowerExpression shown argument fails)
      · cases none
  | .unit offset, fails => by cases fails
  | .text offset text, fails => by cases fails
  | .amount offset quantity, fails => by cases fails
  | .hole offset, fails => .head (fails_refuse.mp fails)
  | .tablet offset fields, fails => by
      simp only [lowerExpression, bind_pure_comp, fails_map] at fails
      exact fails_lowerFields shown fields fails
  | .reference offset identifiers, fails => by
      simp only [lowerExpression, bind_pure_comp, fails_map] at fails
      obtain ⟨index, name, place, named, stands, missing, same⟩ := fails_lowerReads fails
      refine .head ⟨index, name, place, named, stands, not_or.mp ?_, same⟩
      rw [← shown.visible, missing]
      exact nofun
  | .operation offset operator left right, fails => by
      simp only [lowerExpression, bind_pure_comp, fails_bind, fails_map] at fails
      obtain fails | ⟨_, _, _, fails⟩ := fails
      · exact .left (fails_lowerExpression shown left fails)
      · exact .right (fails_lowerExpression shown right fails)
  | .grouping offset inner, fails => fails_lowerExpression shown inner fails
  | .restriction offset setting block, fails =>
      fails_inScope (fun _ => rfl) (fun first => shown.enter setting first block)
        (fun shown => fails_lowerStatements shown block)
        (fun shown => fails_lowerBodies shown block) fails

theorem fails_lowerFields {scope : Scope} {around : Vicinity} (shown : scope.Shows around)
    {before : Progress} : ∀ fields : List (Label × Expression),
      Fails (lowerFields context scope fields) before misuse →
        context.Refutes (fieldsUses around fields) misuse
  | [], fails => by cases fails
  | (label, value) :: fields, fails => by
      simp only [lowerFields, bind_pure_comp, fails_bind, fails_map] at fails
      obtain fails | ⟨_, _, _, fails⟩ := fails
      · exact .left (fails_lowerExpression shown value fails)
      · exact .right (fails_lowerFields shown fields fails)

theorem fails_lowerStatements {scope : Scope} {around : Vicinity} (shown : scope.Shows around)
    {before : Progress} : ∀ block : List Statement,
      Fails (lowerStatements context scope block) before misuse →
        context.Refutes (blockUses around block) misuse
  | [], fails => by cases fails
  | .assignment offset targets value :: block, fails => by
      simp only [lowerStatements, fails_bind] at fails
      obtain fails | ⟨_, _, _, fails | ⟨_, middle, _, none | ⟨⟨names, inner⟩, _, made, fails⟩⟩⟩ :=
        fails
      · obtain ⟨index, target, place, named, stands, bad, same⟩ := fails_checkTargets fails
        refine .left (.head ⟨index, target, place, named, stands, ?_, same⟩)
        rw [shown.inner] at bad
        exact bad.imp_right fun given => given.resolve_left nofun
      · exact .left (.tail (fails_lowerExpression shown value fails))
      · exact absurd none (not_fails_of_makes (makes_bindTargets.mpr ⟨rfl, rfl, rfl⟩))
      · obtain ⟨numbered, rfl, _⟩ := makes_bindTargets.mp made
        obtain fails | ⟨_, _, _, none⟩ := fails
        · have after := shown.bindAll names
          rw [numbered, Name.number_identifiers, ← numbered] at after
          exact .right (fails_lowerStatements after block fails)
        · cases none
  | .execute offset value :: block, fails => by
      simp only [lowerStatements, fails_bind] at fails
      obtain fails | ⟨_, _, _, fails | ⟨_, _, _, none⟩⟩ := fails
      · exact .left (fails_lowerExpression shown value fails)
      · exact .right (fails_lowerStatements shown block fails)
      · cases none
  | .declaration offset procedure :: block, fails =>
      .right (fails_lowerStatements shown block fails)
  | .comment offset remark :: block, fails => .right (fails_lowerStatements shown block fails)
  | .blank offset :: block, fails => .right (fails_lowerStatements shown block fails)
  | .series offset :: block, fails => .right (fails_lowerStatements shown block fails)

theorem fails_lowerBodies {scope : Scope} {callee : Callee} {around : Vicinity}
    (shown : ∀ name, (scope.procedures.get? name).isSome ↔ name ∈ around.procedures)
    {before : Progress} : ∀ block : List Statement,
      Fails (lowerBodies context scope callee block) before misuse →
        context.Refutes (blockUses around block) misuse
  | [], fails => by cases fails
  | .assignment offset targets value :: block, fails =>
      .right (fails_lowerBodies (by exact shown) block fails)
  | .execute offset value :: block, fails =>
      .right (fails_lowerBodies (by exact shown) block fails)
  | .declaration offset procedure :: block, fails => by
      simp only [lowerBodies, fails_bind] at fails
      obtain fails | ⟨_, _, _, none | ⟨_, _, _, fails⟩⟩ := fails
      · exact .left (fails_lowerProcedure shown procedure fails)
      · cases none
      · exact .right (fails_lowerBodies (by exact shown) block fails)
  | .comment offset remark :: block, fails =>
      .right (fails_lowerBodies (by exact shown) block fails)
  | .blank offset :: block, fails =>
      .right (fails_lowerBodies (by exact shown) block fails)
  | .series offset :: block, fails =>
      .right (fails_lowerBodies (by exact shown) block fails)

theorem fails_lowerProcedure {scope : Scope} {procedures : List Identifier}
    (shown : ∀ name, (scope.procedures.get? name).isSome ↔ name ∈ procedures)
    {before : Progress} : ∀ procedure : Procedure,
      Fails (lowerProcedure context scope procedure) before misuse →
        context.Refutes (procedure.uses procedures) misuse
  | ⟨offset, name, parameters, signature, block⟩, fails => by
      simp only [lowerProcedure, fails_bind] at fails
      obtain fails | ⟨⟨names, inner⟩, middle, made, fails | ⟨_, _, _, none⟩⟩ := fails
      · obtain ⟨index, parameter, place, named, stands, bad, same⟩ := fails_bindParameters fails
        exact .head ⟨index, parameter, place, named, stands, bad.resolve_left nofun, same⟩
      · obtain ⟨_, made⟩ := makes_bindParameters.mp made
        obtain ⟨numbered, rfl, _⟩ := makes_bindTargets.mp made
        refine .tail (fails_inScope (fun _ => ?_) (fun first => ?_)
          (fun shown => fails_lowerStatements shown block)
          (fun shown => fails_lowerBodies shown block) fails)
        · rw [Scope.bindAll_procedures]
          rfl
        · have body := Scope.Shows.body shown names first block
          rwa [numbered, Name.number_identifiers, ← numbered] at body
      · cases none

end

theorem fails_lowerProcedures {names : List Identifier}
    (shown : ∀ name, (scope.procedures.get? name).isSome ↔ name ∈ names) {callee : Callee}
    {procedures : List Procedure}
    (fails : Fails (lowerProcedures context scope callee procedures) before misuse) :
    context.Refutes (procedures.flatMap (Procedure.uses names)) misuse := by
  induction procedures generalizing callee before with
  | nil => cases fails
  | cons procedure procedures ih =>
      simp only [lowerProcedures, fails_bind] at fails
      rw [List.flatMap_cons]
      obtain fails | ⟨_, _, _, none | ⟨_, _, _, fails⟩⟩ := fails
      · exact .left (fails_lowerProcedure shown procedure fails)
      · cases none
      · exact .right (ih fails)

/-- Where a document's procedures are compiled, the first is found. -/
theorem mainOf_ne_error {document : Document} {after : Progress} (some : document.procedures ≠ [])
    (made : Makes (wholeDocument context document) .start () after) :
    mainOf after ≠ .error misuse := by
  obtain ⟨_, made⟩ := makes_wholeDocument.mp made
  have advances := lowerProcedures_advances made (Nat.le_of_eq (Nat.zero_add _))
  have found : (after.library.get? 0).isSome := by
    have := List.length_pos_iff.mpr some
    refine advances.compiled 0 (.inl ?_) (Nat.lt_of_lt_of_le this advances.callees)
    simpa only [List.mem_range'_1, Nat.zero_add, Nat.le_refl, true_and] using this
  obtain ⟨main, found⟩ := Option.isSome_iff_exists.mp found
  rw [mainOf_eq_ok.mpr ⟨main, found, rfl⟩]
  exact nofun

/-- A document with procedures fails at one of its uses. -/
theorem fails_document {document : Document} (some : document.procedures ≠ [])
    (failed : Lowering.document context document = .error misuse) :
    context.Refutes document.uses misuse := by
  have unfolded : Lowering.document context document =
      (wholeDocument context document).run .start >>= fun result => mainOf result.2 := rfl
  rw [unfolded] at failed
  cases result : (wholeDocument context document).run .start with
  | ok pair =>
      rw [result] at failed
      exact absurd failed (mainOf_ne_error some result)
  | error other =>
      rw [result] at failed
      cases failed
      have fails : Fails (wholeDocument context document) .start misuse := result
      simp only [wholeDocument, fails_bind] at fails
      obtain fails | ⟨⟨first, inner⟩, _, made, fails⟩ := fails
      · exact .head (fails_declareAll (fun _ => rfl) fails)
      · obtain ⟨_, _, rfl, _⟩ := makes_declareAll.mp made
        refine .tail (fails_lowerProcedures (fun name => ?_) fails)
        rw [Scope.isSome_declareAll]
        simp [Scope.root]

end Lowering

/-- Where compiling fails, a use of the document is wrong. -/
theorem Document.compile_eq_error {document : Document} {source : Source}
    {primitives : List Identifier} {diagnostic : Diagnostic} (some : document.procedures ≠ [])
    (failed : document.compile source primitives = .error diagnostic) :
    diagnostic.source = source ∧
      Lowering.Context.Refutes ⟨source.contents.toList, primitives⟩ document.uses
        ⟨diagnostic.offset, diagnostic.reason⟩ := by
  rw [Document.compile] at failed
  cases result : Lowering.document ⟨source.contents.toList, primitives⟩ document with
  | ok routine =>
      rw [result] at failed
      cases failed
  | error misuse =>
      rw [result] at failed
      cases failed
      exact ⟨rfl, Lowering.fails_document some result⟩

end Runbook
