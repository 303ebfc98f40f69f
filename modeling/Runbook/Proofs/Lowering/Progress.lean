import Runbook.Proofs.Lowering.Makes
import Mathlib.Data.List.Perm.Basic
import Mathlib.Tactic.Tauto

/-!
How a compilation goes forward.

Each part names its variables and declares its procedures anew, compiles all that it declares, and
leaves the routines of other parts as they are. So in a whole compilation no two binders share a
name, and every callee has its routine.
-/
namespace Runbook

mutual

/-- The names that a step binds, with all that is nested in it, in the order of binding. -/
def Step.binders : Step → List Name
  | .literal literal => literal.binders
  | .bind names step => step.binders ++ names
  | .call _ argument | .invoke _ argument => argument.binders
  | .tuple steps => stepsBinders steps
  | .read _ => []

def Literal.binders : Literal → List Name
  | .unit | .text _ | .quantity _ => []
  | .tablet fields => fieldsBinders fields

def stepsBinders : List Step → List Name
  | [] => []
  | step :: steps => step.binders ++ stepsBinders steps

def fieldsBinders : List (Label × Step) → List Name
  | [] => []
  | (_, step) :: fields => step.binders ++ fieldsBinders fields

end

/-- The names that the entries of a sequence bind. -/
def Sequence.binders (sequence : Sequence) : List Name :=
  stepsBinders (sequence.map Entry.step)

/-- The names that a routine binds: its parameters, and those of its body. -/
def Routine.binders (routine : Routine) : List Name :=
  routine.parameters ++ Sequence.binders routine.sequence

/-- The names that the routines of a library bind. -/
def Library.binders (library : Library) : List Name :=
  library.flatMap fun entry => entry.2.binders

theorem stepsBinders_append (first second : List Step) :
    stepsBinders (first ++ second) = stepsBinders first ++ stepsBinders second := by
  induction first with
  | nil => rfl
  | cons step first ih => simp only [List.cons_append, stepsBinders, ih, List.append_assoc]

@[simp] theorem stepsBinders_reads (names : List Name) :
    stepsBinders (names.map Step.read) = [] := by
  induction names with
  | nil => rfl
  | cons name names ih => simp only [List.map_cons, stepsBinders, Step.binders, ih,
      List.append_nil]

@[simp] theorem Sequence.binders_toStep (sequence : Sequence) :
    sequence.toStep.binders = sequence.binders := by
  match sequence with
  | [] => rfl
  | [entry] => simp only [toStep, binders, List.map_cons, List.map_nil, stepsBinders,
      List.append_nil]
  | _ :: _ :: _ => rfl

theorem Library.binders_insert {library : Library} {callee : Callee} (routine : Routine)
    (absent : library.get? callee = none) :
    (library.insert callee routine).binders.Perm (routine.binders ++ library.binders) := by
  induction library with
  | nil => exact .refl _
  | cons entry library ih =>
      obtain ⟨other, kept⟩ := entry
      by_cases same : callee = other
      · simp [get?, same] at absent
      · rw [get?, if_neg same] at absent
        rw [insert, if_neg same]
        split
        · exact .refl _
        · refine ((ih absent).append_left kept.binders).trans ?_
          simp only [binders, List.flatMap_cons, ← List.append_assoc]
          exact List.perm_append_comm.append_right _

namespace Lowering

/-- The routine of that number is still to be compiled: it is owed, or is not yet declared. -/
def Progress.Open (progress : Progress) (owed : List Nat) (callee : Nat) : Prop :=
  callee ∈ owed ∨ progress.callees ≤ callee

/-- From `before` to `after` the names are made and the routines compiled that are owed, beside
those that are declared on the way. -/
structure Progress.Advances (before after : Progress) (owed : List Nat) (made : List Name) :
    Prop where
  names : before.names ≤ after.names
  callees : before.callees ≤ after.callees
  kept : ∀ callee : Nat, callee ∉ owed → (callee < before.callees ∨ after.callees ≤ callee) →
    after.library.get? callee = before.library.get? callee
  compiled : ∀ callee : Nat, before.Open owed callee → callee < after.callees →
    (after.library.get? callee).isSome
  numbered : (∀ callee : Nat, before.Open owed callee → before.library.get? callee = none) →
    ((made ++ after.library.binders).map Name.index).Perm
      (before.library.binders.map Name.index ++
        List.range' before.names (after.names - before.names))

namespace Progress.Advances

variable {before middle after : Progress} {owed : List Nat}

theorem refl (progress : Progress) : progress.Advances progress [] [] where
  names := Nat.le_refl _
  callees := Nat.le_refl _
  kept _ _ _ := rfl
  compiled callee owed below := by
    rcases owed with owed | above
    · cases owed
    · exact absurd above (Nat.not_le_of_lt below)
  numbered _ := by simp

theorem trans {others : List Nat} {made more : List Name}
    (first : before.Advances middle owed made) (second : middle.Advances after others more)
    (apart : owed.Disjoint others) (declared : ∀ callee ∈ owed ++ others, callee < before.callees) :
    before.Advances after (owed ++ others) (made ++ more) where
  names := Nat.le_trans first.names second.names
  callees := Nat.le_trans first.callees second.callees
  kept callee new outside := by
    simp only [List.mem_append, not_or] at new
    have := first.callees
    have := second.callees
    rw [second.kept callee new.2 (by omega), first.kept callee new.1 (by omega)]
  compiled callee opened below := by
    by_cases later : middle.Open others callee
    · exact second.compiled callee later below
    · simp only [Open, not_or, Nat.not_le] at later
      have : callee ∈ owed ∨ before.callees ≤ callee := by
        simpa only [Open, List.mem_append, later.1, or_false] using opened
      rw [second.kept callee later.1 (.inl later.2)]
      exact first.compiled callee this later.2
  numbered fresh := by
    have := first.callees
    have earlier := first.numbered fun callee opened =>
      fresh callee (opened.imp_left (List.mem_append_left _))
    have later := second.numbered fun callee opened => by
      have new : callee ∉ owed := fun member => opened.elim
        (apart member) (fun above => by
          have := declared callee (List.mem_append_left _ member)
          omega)
      have outside : callee < before.callees ∨ middle.callees ≤ callee :=
        opened.imp_left fun member => declared callee (List.mem_append_right _ member)
      rw [first.kept callee new outside]
      exact fresh callee (opened.imp (List.mem_append_right _) (Nat.le_trans this))
    have length : after.names - before.names =
        (middle.names - before.names) + (after.names - middle.names) := by
      have := first.names
      have := second.names
      omega
    have start : before.names + (middle.names - before.names) = middle.names := by
      have := first.names
      omega
    rw [length, ← List.range'_append_1, start]
    rw [List.map_append] at earlier later ⊢
    rw [List.map_append, List.append_assoc]
    refine (later.append_left _).trans ?_
    rw [← List.append_assoc, ← List.append_assoc]
    exact earlier.append_right _

/-- Declaring procedures leaves their routines to be compiled. -/
theorem declare {count : Nat} {made : List Name}
    (advances : Advances { before with callees := before.callees + count } after
      (List.range' before.callees count) made) :
    before.Advances after [] made where
  names := advances.names
  callees := Nat.le_trans (Nat.le_add_right _ _) advances.callees
  kept callee _ outside := by
    have := advances.callees
    refine advances.kept callee ?_ (outside.imp_left fun below => by simp only; omega)
    simp only [List.mem_range'_1]
    simp only at this
    omega
  compiled callee opened below := by
    refine advances.compiled callee ?_ below
    simp only [Open, List.not_mem_nil, false_or, List.mem_range'_1] at opened ⊢
    omega
  numbered fresh := advances.numbered fun callee opened => fresh callee <| by
    simp only [Open, List.not_mem_nil, false_or, List.mem_range'_1] at opened ⊢
    omega

/-- Names are made without more. -/
theorem bind (progress : Progress) (identifiers : List Identifier) :
    progress.Advances { progress with names := progress.names + identifiers.length } []
      (Name.number progress.names identifiers) where
  names := Nat.le_add_right _ _
  callees := Nat.le_refl _
  kept _ _ _ := rfl
  compiled callee opened below := by
    simp only [Open, List.not_mem_nil, false_or] at opened below
    omega
  numbered _ := by
    rw [List.map_append, Name.number_indices, Nat.add_sub_cancel_left]
    exact List.perm_append_comm

/-- A compiled procedure comes into the library with the names that it binds. -/
theorem keep {callee : Nat} {routine : Routine}
    (advances : before.Advances after [] routine.binders) (declared : callee < before.callees) :
    before.Advances { after with library := after.library.insert callee routine } [callee] [] where
  names := advances.names
  callees := advances.callees
  kept other new outside := by
    rw [Library.get?_insert, if_neg (by simpa using new)]
    exact advances.kept other List.not_mem_nil outside
  compiled other opened below := by
    rw [Library.get?_insert]
    split
    · rfl
    · rename_i different
      refine advances.compiled other (.inr (opened.resolve_left ?_)) below
      simpa using different
  numbered fresh := by
    have absent : after.library.get? callee = none := by
      rw [advances.kept callee List.not_mem_nil (.inl declared)]
      exact fresh callee (.inl List.mem_cons_self)
    have earlier := advances.numbered fun other opened =>
      fresh other (.inr (opened.resolve_left List.not_mem_nil))
    exact ((Library.binders_insert routine absent).map Name.index).trans earlier

/-- Parts that leave nothing to be compiled follow one another. -/
theorem append {made more : List Name} (first : before.Advances middle [] made)
    (second : middle.Advances after [] more) : before.Advances after [] (made ++ more) :=
  first.trans second (List.disjoint_nil_left _) (by simp)

end Progress.Advances

variable {context : Context}

theorem inScope_advances {scope : Scope} {block : Block}
    {statements : Scope → Lowering (Sequence × Scope)} {bodies : Scope → Callee → Lowering Unit}
    {sequence : Sequence} {before after : Progress}
    (made : Makes (inScope scope block statements bodies) before sequence after)
    (stated : ∀ {outer inner : Scope} {before after : Progress},
      Makes (statements outer) before (sequence, inner) after →
        before.Advances after [] sequence.binders)
    (compiled : ∀ {inner : Scope} {callee : Nat} {before after : Progress},
      Makes (bodies inner callee) before () after →
      callee + (declarations block).length ≤ before.callees →
        before.Advances after (List.range' callee (declarations block).length) []) :
    before.Advances after [] sequence.binders := by
  obtain ⟨_, inner, middle, first, rest⟩ := makes_inScope.mp made
  have advances := stated first
  have both := advances.trans (compiled rest advances.callees) (List.disjoint_nil_left _)
    (by simp only [List.nil_append, List.mem_range'_1]; omega)
  rw [List.nil_append, List.append_nil] at both
  exact both.declare

/-- The first of several procedures is compiled, then the others. -/
theorem keep_advances {routine : Routine} {callee count : Nat} {before middle after : Progress}
    (first : before.Advances middle [] routine.binders)
    (rest : callee + 1 + count ≤ middle.callees →
      Progress.Advances { middle with library := middle.library.insert callee routine } after
        (List.range' (callee + 1) count) [])
    (declared : callee + (count + 1) ≤ before.callees) :
    before.Advances after (List.range' callee (count + 1)) [] := by
  have := first.callees
  have kept : before.Advances _ [callee] [] := first.keep (by omega)
  rw [List.range'_succ]
  refine kept.trans (rest (by omega)) ?_ ?_
  · simp only [List.singleton_disjoint, List.mem_range'_1]
    omega
  · simp only [List.singleton_append, List.mem_cons, List.mem_range'_1]
    omega

mutual

theorem lowerExpression_advances {scope : Scope} {before after : Progress} {sequence : Sequence} :
    ∀ expression : Expression,
      Makes (lowerExpression context scope expression) before sequence after →
        before.Advances after [] sequence.binders
  | .application offset name argument, made => by
      obtain ⟨entries, part, ⟨callee, _, rfl⟩ | ⟨_, _, rfl⟩⟩ := makes_application.mp made
      · simpa [Sequence.binders, stepsBinders, Step.binders] using
          lowerExpression_advances argument part
      · simpa [Sequence.binders, stepsBinders, Step.binders] using
          lowerExpression_advances argument part
  | .unit offset, made => by
      obtain ⟨rfl, rfl⟩ := makes_pure.mp made
      exact .refl _
  | .text offset text, made => by
      obtain ⟨rfl, rfl⟩ := makes_pure.mp made
      exact .refl _
  | .amount offset quantity, made => by
      obtain ⟨rfl, rfl⟩ := makes_pure.mp made
      exact .refl _
  | .hole offset, made => absurd made makes_refuse
  | .tablet offset fields, made => by
      obtain ⟨steps, part, rfl⟩ := makes_tablet.mp made
      simpa [Sequence.binders, stepsBinders, Step.binders, Literal.binders] using
        lowerFields_advances fields part
  | .reference offset identifiers, made => by
      obtain ⟨names, _, rfl, rfl⟩ := makes_reference.mp made
      simpa [Sequence.binders, stepsBinders, Step.binders] using
        Progress.Advances.refl after
  | .operation offset operator left right, made => by
      obtain ⟨first, middle, second, part, rest, rfl⟩ := makes_operation.mp made
      simpa [Sequence.binders, stepsBinders, Step.binders] using
        (lowerExpression_advances left part).append (lowerExpression_advances right rest)
  | .grouping offset inner, made => lowerExpression_advances inner made
  | .restriction offset setting block, made => by
      rw [lowerExpression] at made
      exact inScope_advances made (lowerStatements_advances block) (lowerBodies_advances block)

theorem lowerFields_advances {scope : Scope} {before after : Progress}
    {steps : List (Label × Step)} :
    ∀ fields : List (Label × Expression),
      Makes (lowerFields context scope fields) before steps after →
        before.Advances after [] (fieldsBinders steps)
  | [], made => by
      obtain ⟨rfl, rfl⟩ := makes_pure.mp made
      exact .refl _
  | (label, value) :: fields, made => by
      obtain ⟨entries, middle, others, part, rest, rfl⟩ := makes_field.mp made
      simpa [fieldsBinders] using
        (lowerExpression_advances value part).append (lowerFields_advances fields rest)

theorem lowerStatements_advances {scope inner : Scope} {before after : Progress}
    {sequence : Sequence} : ∀ block : List Statement,
      Makes (lowerStatements context scope block) before (sequence, inner) after →
        before.Advances after [] sequence.binders
  | [], made => by
      simp only [lowerStatements, makes_pure, Prod.mk.injEq] at made
      obtain ⟨⟨rfl, rfl⟩, rfl⟩ := made
      exact .refl _
  | .assignment offset targets value :: block, made => by
      obtain ⟨_, entries, middle, names, others, part, rfl, rest, rfl⟩ :=
        makes_assignment.mp made
      have bound := Progress.Advances.bind middle targets
      simpa [Sequence.binders, stepsBinders, Step.binders] using
        ((lowerExpression_advances value part).append bound).append
          (lowerStatements_advances block rest)
  | .execute offset value :: block, made => by
      obtain ⟨entries, middle, others, part, rest, rfl⟩ := makes_execute.mp made
      simpa [Sequence.binders, stepsBinders_append] using
        (lowerExpression_advances value part).append (lowerStatements_advances block rest)
  | .declaration _ _ :: block, made => lowerStatements_advances block made
  | .comment _ _ :: block, made => lowerStatements_advances block made
  | .blank _ :: block, made => lowerStatements_advances block made
  | .series _ :: block, made => lowerStatements_advances block made

theorem lowerBodies_advances {scope : Scope} {callee : Nat} {before after : Progress} :
    ∀ block : List Statement,
      Makes (lowerBodies context scope callee block) before () after →
      callee + (declarations block).length ≤ before.callees →
        before.Advances after (List.range' callee (declarations block).length) []
  | [], made, _ => by
      obtain ⟨_, rfl⟩ := makes_pure.mp made
      exact .refl _
  | .assignment _ _ _ :: block, made, declared => lowerBodies_advances block made declared
  | .execute _ _ :: block, made, declared => lowerBodies_advances block made declared
  | .declaration offset procedure :: block, made, declared => by
      obtain ⟨routine, middle, part, rest⟩ := makes_declaration.mp made
      exact keep_advances (lowerProcedure_advances procedure part)
        (lowerBodies_advances block rest) declared
  | .comment _ _ :: block, made, declared => lowerBodies_advances block made declared
  | .blank _ :: block, made, declared => lowerBodies_advances block made declared
  | .series _ :: block, made, declared => lowerBodies_advances block made declared

theorem lowerProcedure_advances {scope : Scope} {before after : Progress} {routine : Routine} :
    ∀ procedure : Procedure,
      Makes (lowerProcedure context scope procedure) before routine after →
        before.Advances after [] routine.binders
  | ⟨offset, name, parameters, signature, block⟩, made => by
      obtain ⟨_, names, sequence, rfl, part, rfl⟩ := makes_procedure.mp made
      exact (Progress.Advances.bind before parameters).append
        (inScope_advances part (lowerStatements_advances block) (lowerBodies_advances block))

end

theorem lowerProcedures_advances {scope : Scope} {procedures : List Procedure} {callee : Nat}
    {before after : Progress}
    (made : Makes (lowerProcedures context scope callee procedures) before () after)
    (declared : callee + procedures.length ≤ before.callees) :
    before.Advances after (List.range' callee procedures.length) [] := by
  induction procedures generalizing callee before with
  | nil =>
      obtain ⟨_, rfl⟩ := makes_pure.mp made
      exact .refl _
  | cons procedure procedures ih =>
      obtain ⟨routine, middle, part, rest⟩ := makes_lowerProcedures.mp made
      exact keep_advances (lowerProcedure_advances procedure part) (ih rest) declared

/-- When a document is compiled, all its routines are, and no two binders of them share a name. -/
theorem document_advances {document : Document} {routine : Routine}
    (made : Lowering.document context document = .ok routine) :
    ∃ after : Progress, after.library = routine.library ∧
      Progress.start.Advances after [] [] := by
  obtain ⟨_, after, main, part, _, rfl⟩ := makes_document.mp made
  refine ⟨after, rfl, ?_⟩
  have advances := lowerProcedures_advances part (Nat.le_of_eq (Nat.zero_add _))
  exact Progress.Advances.declare (by simpa [Progress.start] using advances)

/-- No two binders of a compiled document share a name. -/
theorem document_distinct {document : Document} {routine : Routine}
    (made : Lowering.document context document = .ok routine) :
    (Library.binders routine.library).Nodup := by
  obtain ⟨after, same, advances⟩ := document_advances made
  have numbered := advances.numbered fun _ _ => rfl
  rw [same] at numbered
  exact (numbered.nodup_iff.mpr List.nodup_range').of_map

end Lowering

end Runbook
