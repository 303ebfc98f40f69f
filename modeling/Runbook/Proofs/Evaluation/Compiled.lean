import Runbook.Registry.Standard
import Runbook.Proofs.Evaluation.Sound

/-!
Runs of compiled routines.

A host makes a registry from the operators or the standard one by adding operations. What is
compiled against it is performed with it, or with one that has more operations or other ones under
the same names.
-/
namespace Runbook

/-- The second registry is the first one after operations were added. -/
inductive Registry.Grown (registry : Registry) : Registry → Prop
  | refl : Grown registry registry
  | register {later : Registry} (name : Identifier) (action : Value → Response) :
      Grown registry later → Grown registry (later.register name action)

/-- A host can have the registry. -/
def Registry.Built (registry : Registry) : Prop :=
  operators.Grown registry ∨ standard.Grown registry

namespace Registry

variable {registry later : Registry}

theorem Grown.trans {last : Registry} (first : registry.Grown later) (rest : later.Grown last) :
    registry.Grown last := by
  induction rest with
  | refl => exact first
  | register name action _ ih => exact .register name action ih

theorem Built.grown (built : registry.Built) (grown : registry.Grown later) : later.Built :=
  built.imp (·.trans grown) (·.trans grown)

theorem Grown.lookup (grown : registry.Grown later) {name : Identifier} {primitive : Primitive}
    (found : registry.lookup name = some primitive) :
    ∃ primitive, later.lookup name = some primitive := by
  induction grown with
  | refl => exact ⟨primitive, found⟩
  | register other action _ ih =>
      rw [Registry.register, lookup_insert]
      split
      · exact ⟨_, rfl⟩
      · exact ih

theorem operators_grown_standard : operators.Grown standard :=
  .register _ _ (.register _ _ (.register _ _ (.register _ _ .refl)))

theorem Built.operators_grown (built : registry.Built) : operators.Grown registry :=
  built.elim id operators_grown_standard.trans

theorem Built.operator (built : registry.Built) (operator : Operator) :
    ∃ primitive, registry.lookup operator.primitive = some primitive := by
  have found : operators.lookup operator.primitive = some operator.asPrimitive := by
    cases operator <;> rfl
  exact built.operators_grown.lookup found

/-- Only a primitive of the operators' own performs an operator. -/
theorem Built.performs (built : registry.Built) {name : Identifier} {primitive : Primitive}
    (found : registry.lookup name = some primitive) {operator : Operator}
    (performs : primitive.operator = some operator) : name = operator.primitive := by
  have grown := built.operators_grown
  clear built
  induction grown with
  | refl =>
      have among := List.mem_of_find?_eq_some found
      have named := List.find?_some found
      simp only [beq_iff_eq] at named
      change primitive ∈ [Operator.combine, .waitBoth, .waitEither].map Operator.asPrimitive
        at among
      obtain ⟨other, _, rfl⟩ := List.mem_map.mp among
      obtain rfl := Option.some.inj performs
      exact named.symm
  | register other action _ ih =>
      rw [Registry.register, lookup_insert] at found
      split at found
      · obtain rfl := Option.some.inj found
        cases performs
      · exact ih found

end Registry

mutual

/-- The defects that are met in a work. -/
def Work.defects : Work → List Defect
  | .broken defect => [defect]
  | .fresh work => work.defects
  | .after source _ => source.defects
  | .gather _ members => defectsOfAll members
  | .body _ current _ _ => current.defects
  | _ => []

def Work.defectsOfAll : List Work → List Defect
  | [] => []
  | work :: works => work.defects ++ defectsOfAll works

end

mutual

theorem Work.sound_defects {machine : Machine} {footing : Footing machine}
    {waits own : TaskId → Prop} : ∀ work : Work, work.Sound footing waits own → work.defects = []
  | .done _, _ | .wait _, _ | .race _ _, _ | .sleep _ _, _ | .settle _ _, _ => rfl
  | .broken _, sound => sound.elim
  | .fresh work, sound => sound_defects work sound
  | .after source _, sound => sound_defects source sound.1
  | .gather _ members, sound => soundAll_defects members sound
  | .body _ current _ _, sound => sound_defects current sound.2.1

theorem Work.soundAll_defects {machine : Machine} {footing : Footing machine}
    {waits own : TaskId → Prop} :
    ∀ works : List Work, soundAll footing waits own works → defectsOfAll works = []
  | [], _ => rfl
  | work :: works, sound => by
      rw [defectsOfAll, sound_defects work sound.1, soundAll_defects works sound.2]
      rfl

end

theorem World.outcome?_broken {world : World} {defect : Defect}
    (ends : world.outcome? = some (.error defect)) :
    ∃ others, world.tasks = .broken defect :: others := by
  rw [outcome?] at ends
  split at ends
  · cases ends
  · rename_i broken others same
    obtain rfl : broken = defect := by simpa using ends
    exact ⟨others, same⟩
  · cases ends

/-- The text or the tree compiles to the routine against a registry. -/
inductive Compiles (registry : Registry) (routine : Routine) : Prop
  | source {source : Source} : source.compile registry.names = .ok routine →
      Compiles registry routine
  | document {document : Document} {source : Source} :
      document.compile source registry.names = .ok routine → Compiles registry routine

theorem Compiles.lowered {registry : Registry} {routine : Routine}
    (compiles : Compiles registry routine) :
    ∃ context document, context.primitives = registry.names ∧
      Lowering.document context document = .ok routine := by
  have compiled {document : Document} {source : Source}
      (made : document.compile source registry.names = .ok routine) :
      ∃ context document, context.primitives = registry.names ∧
        Lowering.document context document = .ok routine :=
    ⟨⟨source.contents.toList, registry.names⟩, document, rfl, Document.compile_eq_ok.mp made⟩
  cases compiles with
  | document made => exact compiled made
  | source made =>
      rw [Source.compile] at made
      split at made
      · exact compiled made
      · cases made

/-- The primitive or the procedure is at hand. -/
def Registry.Meets (registry : Registry) (library : Library) : Need → Prop
  | .primitive name => ∃ primitive, registry.lookup name = some primitive
  | .routine callee => ∃ routine, library.get? callee = some routine

/-- What the routines of a compiled program need is at hand. -/
theorem Compiles.meets {base registry : Registry} {program : Routine}
    (compiles : Compiles base program) (built : base.Built) (grown : base.Grown registry) :
    ∀ callee routine, Library.get? program.library callee = some routine →
      routine.Supported (registry.Meets program.library) := by
  obtain ⟨context, document, same, made⟩ := compiles.lowered
  obtain ⟨callees, supported, whole⟩ := Lowering.library_supported made
  intro callee routine found
  refine ⟨(supported callee routine found).bound, fun need inside => ?_⟩
  have allowed := (supported callee routine found).needs need inside
  cases need with
  | routine called => exact whole called allowed
  | primitive name =>
      rcases allowed with member | ⟨operator, rfl⟩
      · rw [same, Registry.mem_names_iff] at member
        obtain ⟨primitive, found⟩ := Option.isSome_iff_exists.mp member
        exact grown.lookup found
      · exact (built.grown grown).operator operator

/-- The routine that is compiled is the first one of its library. -/
theorem Compiles.main {base : Registry} {program : Routine} (compiles : Compiles base program) :
    ∃ main, Library.get? program.library 0 = some main ∧
      program.parameters = main.parameters ∧ program.sequence = main.sequence := by
  obtain ⟨context, document, _, made⟩ := compiles.lowered
  obtain ⟨main, found, same⟩ := Lowering.document_main made
  exact ⟨main, found, (congrArg Routine.parameters same).trans rfl,
    (congrArg Routine.sequence same).trans rfl⟩

/-- A compiled routine finds all that it needs in a later registry and in its own library. -/
theorem Compiles.footing {registry later : Registry} {routine : Routine}
    (compiles : Compiles registry routine) (built : registry.Built)
    (grown : registry.Grown later) :
    ∃ footing : Footing ⟨later, routine.library⟩, routine.Supported footing.allowed := by
  have meets := compiles.meets built grown
  obtain ⟨main, found, parameters, sequence⟩ := compiles.main
  refine ⟨⟨later.Meets routine.library, True, fun _ => id, fun _ _ _ _ _ => trivial, ?_⟩, ?_⟩
  · intro callee allowed
    obtain ⟨other, there⟩ := allowed
    exact ⟨other, there, meets callee other there⟩
  · rw [Routine.Supported, parameters, sequence]
    exact meets 0 main found

/-- No run of a compiled routine meets a defect: neither in the run itself nor in any task of it. -/
theorem Routine.perform_intact {registry later : Registry} {routine : Routine}
    (built : registry.Built) (compiles : Compiles registry routine)
    (grown : registry.Grown later) (argument : Value) :
    (∀ world : World, (World.start routine argument).Reaches ⟨later, routine.library⟩ world →
      ∀ work ∈ world.tasks, work.defects = []) ∧
    ∀ drain fuel defect, routine.perform? later argument drain fuel ≠ some (.error defect) := by
  obtain ⟨footing, supported⟩ := compiles.footing built grown
  have intact {world : World}
      (reaches : (World.start routine argument).Reaches ⟨later, routine.library⟩ world)
      {work : Work} (member : work ∈ world.tasks) : work.defects = [] := by
    obtain ⟨parent, sound⟩ := World.reaches_sound supported reaches
    obtain ⟨task, there⟩ := List.mem_iff_getElem?.mp member
    exact Work.sound_defects work (sound.works task work there)
  refine ⟨fun _ reaches _ => intact reaches, fun drain fuel defect performed => ?_⟩
  rw [Routine.perform?] at performed
  split at performed
  · cases performed
  · rename_i broken world found
    obtain ⟨reaches, ends⟩ := World.toOutcome?_reaches found
    obtain ⟨others, same⟩ := World.outcome?_broken ends
    have none := intact reaches (same ▸ List.mem_cons_self)
    cases none
  · cases performed

/-- A routine that tells what its argument is, and calls one that is declared after it. -/
def Document.telling : Document where
  procedures := [
    ⟨0, "main", ["x"], none, [
      .assignment 0 ["y"] (.application 0 "twice" (.reference 0 ["x"])),
      .execute 0 (.application 0 "task" (.reference 0 ["y"]))]⟩,
    ⟨0, "twice", ["z"], none, [
      .execute 0 (.operation 0 .combine (.reference 0 ["z"]) (.reference 0 ["z"]))]⟩]

theorem Routine.perform_intact_telling : ∃ routine,
    Document.telling.compile ⟨"", ""⟩ Registry.standard.names = .ok routine ∧
    ∀ drain fuel defect, routine.perform? (Registry.standard.register "task" fun value =>
      .later 20 (.ok value)) (.text "tea") drain fuel ≠ some (.error defect) :=
  ⟨_, rfl, (perform_intact (.inr .refl) (@Compiles.document _ _ .telling ⟨"", ""⟩ rfl)
    (.register _ _ .refl) (.text "tea")).2⟩

end Runbook
