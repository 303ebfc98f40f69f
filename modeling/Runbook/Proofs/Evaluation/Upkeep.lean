import Runbook.Proofs.Evaluation.SetUp

/-!
What is kept up while steps are set up.

Setting a step up reports, reads names, starts tasks, and puts works together. What each of these
keeps up is kept up by the whole of it, whether it has a result or breaks down.
-/
namespace Runbook

/-- A routine or a primitive of the registry is applied, as by the steps that call or invoke. -/
def Continuation.Applies (registry : Registry) : Continuation → Prop
  | .pick .. => False
  | .call _ => True
  | .invoke primitive | .join primitive => primitive ∈ registry.primitives

namespace SetUp

/-- What is kept up: the states hold to it as they grow, and the works of a state fit into it, as
long as they wait for tasks that are known. -/
structure Upkeep (registry : Registry) where
  holds : State → Prop
  grows : State → State → Prop
  fits : State → Work → Prop
  known : State → TaskId → Prop
  refl : ∀ state, grows state state
  trans : ∀ {before middle after}, grows before middle → grows middle after → grows before after
  fits_later : ∀ {before after work}, grows before after → fits before work → fits after work
  known_later : ∀ {before after task}, grows before after → known before task → known after task
  report : ∀ {before} (event : Event), holds before →
    let after := { before with events := before.events ++ [event] }
    holds after ∧ grows before after
  start : ∀ {before} {work : Work}, holds before → fits before work →
    let after := { before with
      next := before.next + 1
      started := before.started ++ [.fresh work] }
    holds after ∧ grows before after ∧ known after before.next
  register : ∀ {before} (names : List Name) (observed : Bool) {work : Work}, holds before →
    fits before work →
    let after := { before with
      next := before.next + 1
      started := before.started ++ [.fresh work]
      frame := before.frame.add (.started names before.next observed) }
    holds after ∧ grows before after ∧ known after before.next
  read : ∀ {before} {name : Name} {names : List Name} {task : TaskId} {observed : Bool}
    {place : Fin (Binding.started names task observed).names.length}, holds before →
    before.frame.find? name = some ⟨.started names task observed, place⟩ →
    let after := { before with frame := before.frame.observe name }
    holds after ∧ grows before after ∧
      fits after (.after (.wait task) (.pick names.length place))
  done : ∀ state value, fits state (.done (.ok value))
  wait : ∀ {state task}, known state task → fits state (.wait task)
  after : ∀ {state source} {use : Continuation}, fits state source → use.Applies registry →
    fits state (.after source use)
  gather : ∀ {state} (shape : Shape) {members}, (∀ member ∈ members, fits state member) →
    fits state (.gather shape members)
  await : ∀ {state} (operator : Operator) {left right}, known state left → known state right →
    fits state (operator.await left right)

variable {registry : Registry}

/-- From the state on the part keeps it up. If it has a result, that is as asked for. -/
def Keeps (upkeep : Upkeep registry) {α : Type} (part : SetUp α) (before : State)
    (post : State → α → Prop) : Prop :=
  ∃ result after, part.run.run before = (result, after) ∧ upkeep.holds after ∧
    upkeep.grows before after ∧ ∀ a, result = .ok a → post after a

namespace Keeps

variable {upkeep : Upkeep registry} {α β : Type} {before : State} {post : State → α → Prop}
  {final : State → β → Prop}

theorem of_gives {part : SetUp α} {a : α} {after : State} (gives : Gives part before a after)
    (holds : upkeep.holds after) (grows : upkeep.grows before after) (result : post after a) :
    Keeps upkeep part before post := by
  refine ⟨.ok a, after, gives, holds, grows, fun other same => ?_⟩
  cases same
  exact result

theorem of_breaks {part : SetUp α} {defect : Defect} (breaks : Breaks part before defect before)
    (holds : upkeep.holds before) : Keeps upkeep part before post :=
  ⟨.error defect, before, breaks, holds, upkeep.refl before, nofun⟩

theorem pure {a : α} (holds : upkeep.holds before) (result : post before a) :
    Keeps upkeep (Pure.pure a) before post :=
  of_gives (gives_pure a) holds (upkeep.refl before) result

theorem bind {part : SetUp α} {next : α → SetUp β} (head : Keeps upkeep part before post)
    (rest : ∀ {middle : State} (a : α), upkeep.holds middle → upkeep.grows before middle →
      post middle a → Keeps upkeep (next a) middle final) :
    Keeps upkeep (part >>= next) before final := by
  obtain ⟨result, middle, run, holds, grows, told⟩ := head
  have whole := run_bind part next before
  rw [run] at whole
  cases result with
  | error defect => exact ⟨.error defect, middle, whole, holds, grows, nofun⟩
  | ok a =>
      obtain ⟨result, after, run, holds, more, final⟩ := rest a holds grows (told a rfl)
      exact ⟨result, after, whole.trans run, holds, upkeep.trans grows more, final⟩

/-- The result of a part is put into another one. -/
theorem map {part : SetUp α} {f : α → β} (head : Keeps upkeep part before post)
    (fits : ∀ {state : State} {a : α}, post state a → final state (f a)) :
    Keeps upkeep (part >>= fun a => Pure.pure (f a)) before final :=
  head.bind fun _ holds _ result => .pure holds (fits result)

theorem report (event : Event) (holds : upkeep.holds before) :
    Keeps upkeep (report event) before fun _ _ => True :=
  have kept := upkeep.report event holds
  of_gives (gives_report event) kept.1 kept.2 trivial

theorem start {work : Work} (holds : upkeep.holds before) (fits : upkeep.fits before work) :
    Keeps upkeep (start work) before upkeep.known :=
  have kept := upkeep.start holds fits
  of_gives (gives_start work) kept.1 kept.2.1 kept.2.2

theorem register (names : List Name) (observed : Bool) {work : Work} (holds : upkeep.holds before)
    (fits : upkeep.fits before work) :
    Keeps upkeep (SetUp.bind names observed work) before upkeep.known :=
  have kept := upkeep.register names observed holds fits
  of_gives (gives_bind names observed work) kept.1 kept.2.1 kept.2.2

theorem read (name : Name) (holds : upkeep.holds before) :
    Keeps upkeep (read name) before upkeep.fits := by
  cases found : before.frame.find? name with
  | none => exact of_breaks (read_missing found) holds
  | some meaning =>
      obtain ⟨binding, place⟩ := meaning
      cases binding with
      | parameter other value =>
          exact of_gives (gives_parameter found) holds (upkeep.refl before) (upkeep.done _ value)
      | started names task observed =>
          obtain ⟨kept, grows, fits⟩ := upkeep.read holds found
          exact of_gives (gives_read found) kept grows fits

end Keeps

variable {upkeep : Upkeep registry}

mutual

theorem setUp_keeps (setting : Setting) : ∀ (step : Step) {before : State}, upkeep.holds before →
    Keeps upkeep (setUp registry setting step) before upkeep.fits
  | .literal literal, _, holds => setUpLiteral_keeps setting literal holds
  | .bind names step, _, holds => by
      rw [setUp]
      refine .bind (.report _ holds) fun _ holds _ _ => ?_
      refine .bind (setUp_keeps setting step holds) fun work holds _ fits => ?_
      exact .map (.register names true holds fits) upkeep.wait
  | .call callee argument, _, holds => by
      rw [setUp]
      exact .map (setUp_keeps setting argument holds) fun fits => upkeep.after fits trivial
  | .invoke name argument, _, holds => by
      rw [setUp]
      split
      · exact .of_breaks rfl holds
      · rename_i primitive found
        have inside : primitive ∈ registry.primitives := List.mem_of_find?_eq_some found
        have whole := setUp_keeps setting argument holds
        split
        · rename_i operator left right _
          refine .bind (setUp_keeps setting left holds) fun work holds _ fits => ?_
          refine .bind (.start holds fits) fun one holds _ first => ?_
          refine .bind (setUp_keeps setting right holds) fun work holds grows fits => ?_
          refine .bind (.start holds fits) fun other holds more second => ?_
          have still := upkeep.known_later (upkeep.trans grows more) first
          exact .pure holds (upkeep.after (upkeep.await operator still second) inside)
        · exact .map whole fun fits => upkeep.after fits inside
  | .tuple steps, _, holds => by
      rw [setUp]
      exact .map (setUpAll_keeps setting steps holds) (upkeep.gather .results)
  | .read name, _, holds => by
      rw [setUp]
      exact .read name holds

theorem setUpLiteral_keeps (setting : Setting) : ∀ (literal : Literal) {before : State},
    upkeep.holds before → Keeps upkeep (setUpLiteral registry setting literal) before upkeep.fits
  | .unit, _, holds | .text _, _, holds | .quantity _, _, holds => .pure holds (upkeep.done _ _)
  | .tablet fields, _, holds => by
      rw [setUpLiteral]
      exact .map (setUpFields_keeps setting fields holds) (upkeep.gather _)

theorem setUpAll_keeps (setting : Setting) : ∀ (steps : List Step) {before : State},
    upkeep.holds before → Keeps upkeep (setUpAll registry setting steps) before
      fun state works => ∀ work ∈ works, upkeep.fits state work
  | [], _, holds => .pure holds nofun
  | step :: steps, _, holds => by
      rw [setUpAll]
      refine .bind (setUp_keeps setting step holds) fun work holds _ fits => ?_
      refine .bind (setUpAll_keeps setting steps holds) fun works holds grows others => ?_
      exact .pure holds (List.forall_mem_cons.mpr ⟨upkeep.fits_later grows fits, others⟩)

theorem setUpFields_keeps (setting : Setting) : ∀ (fields : List (Label × Step)) {before : State},
    upkeep.holds before → Keeps upkeep (setUpFields registry setting fields) before
      fun state works => ∀ work ∈ works, upkeep.fits state work
  | [], _, holds => .pure holds nofun
  | (_, step) :: fields, _, holds => by
      rw [setUpFields]
      refine .bind (setUp_keeps setting step holds) fun work holds _ fits => ?_
      refine .bind (setUpFields_keeps setting fields holds) fun works holds grows others => ?_
      exact .pure holds (List.forall_mem_cons.mpr ⟨upkeep.fits_later grows fits, others⟩)

end

theorem setUpEntry_keeps (upkeep : Upkeep registry) (index : Nat) (isLast : Bool)
    (entry : Entry) {before : State} (holds : upkeep.holds before) :
    Keeps upkeep (setUpEntry registry index isLast entry) before upkeep.fits := by
  rw [setUpEntry]
  refine .bind (.report _ holds) fun _ holds _ _ => ?_
  split
  · rename_i names step _
    refine .bind (.report _ holds) fun _ holds _ _ => ?_
    refine .bind (setUp_keeps entry.setting step holds) fun work holds _ fits => ?_
    refine .bind (.register names isLast holds fits) fun task holds _ known => ?_
    split
    · exact .pure holds (upkeep.wait known)
    · exact .pure holds (upkeep.done _ _)
  · exact setUp_keeps entry.setting _ holds

end SetUp

end Runbook
