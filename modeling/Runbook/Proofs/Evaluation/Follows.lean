import Runbook.Proofs.Evaluation.Evaluates
import Runbook.Proofs.Evaluation.Cost

/-!
Moves follow the evaluation from left to right.

A move keeps what a work means, provided that the tasks come to what they are expected to. What it
makes of a work costs less than the work did. None of the tasks that it starts may come to no value
unless the work does.
-/
namespace Runbook

variable {machine : Machine} {footing : Footing machine} {depths : Depths machine.host}

section

variable (depths) (env : TaskId → Option Value)

mutual

/-- Where a frame has no store, is that known from what has still to be done with it? -/
def Work.Accounted (level : depths.Level) : Work → Prop
  | .fresh work => work.Accounted level
  | .after source _ => source.Accounted level
  | .gather _ members => accountedAll level members
  | .body frame current _ _ => ∀ inner, depths.inside level = some inner →
    (frame.store? env = none → frame.Lost env ∨ current.meaning depths env inner = none) ∧
      current.Accounted inner
  | _ => True

def Work.accountedAll (level : depths.Level) : List Work → Prop
  | [] => True
  | work :: works => work.Accounted level ∧ accountedAll level works

end

end

variable {env : TaskId → Option Value} {level : depths.Level} {world : World}

theorem Work.accountedAll_iff {works : List Work} :
    accountedAll depths env level works ↔ ∀ work ∈ works, work.Accounted depths env level := by
  induction works with
  | nil => exact iff_of_true trivial nofun
  | cons work works ih => rw [accountedAll, ih, List.forall_mem_cons]

theorem Work.meaningAll_eq_none {works : List Work} :
    meaningAll depths env level works = none ↔
      ∃ work ∈ works, work.meaning depths env level = none := by
  induction works with
  | nil => exact iff_of_false nofun fun ⟨_, member, _⟩ => nomatch member
  | cons work works ih =>
      rw [meaningAll, List.exists_mem_cons_iff, ← ih]
      cases work.meaning depths env level with
      | none => exact iff_of_true rfl (.inl rfl)
      | some value => simp

theorem Work.meaningAll_eq_some {works : List Work} {values : List Value}
    (collected : works.mapM Work.value? = some values) :
    meaningAll depths env level works = some values := by
  induction works generalizing values with
  | nil => exact collected
  | cons work works ih =>
      rw [List.mapM_cons] at collected
      simp only [Option.bind_eq_bind, Option.bind_eq_some_iff] at collected
      obtain ⟨value, first, others, rest, same⟩ := collected
      rw [meaningAll, ih rest]
      cases work with
      | done outcome =>
          cases outcome with
          | ok result =>
              obtain rfl := Option.some.inj first
              exact same
          | error failure => cases first
      | _ => cases first

/-- Only what one of the works means matters. -/
theorem Work.meaningAll_replace {work other : Work}
    (same : work.meaning depths env level = other.meaning depths env level)
    (before after : List Work) :
    meaningAll depths env level (before ++ work :: after) =
      meaningAll depths env level (before ++ other :: after) := by
  induction before with
  | nil => rw [List.nil_append, List.nil_append, meaningAll, meaningAll, same]
  | cons first before ih => rw [List.cons_append, List.cons_append, meaningAll, meaningAll, ih]

theorem Work.meaning_body {frame : Frame} {current : Work} {index : Nat} {entries : List Entry}
    {value : Value} :
    (Work.body frame current index entries).meaning depths env level = some value ↔
      ∃ inner store result, depths.inside level = some inner ∧ frame.store? env = some store ∧
        current.meaning depths env inner = some result ∧
        machine.host.evaluateBody (depths.call inner) store result entries = .ok value := by
  simp only [meaning, Option.bind_eq_some_iff, toOption_eq_some]
  constructor
  · intro means
    obtain ⟨inner, inside, store, stores, result, first, rest⟩ := means
    exact ⟨inner, store, result, inside, stores, first, rest⟩
  · intro means
    obtain ⟨inner, store, result, inside, stores, first, rest⟩ := means
    exact ⟨inner, inside, store, stores, result, first, rest⟩

theorem Host.evaluateBody_nil {host : Host} {call : Callee → Value → Except Stop Value}
    {store : Store} {value result : Value} :
    host.evaluateBody call store value [] = .ok result ↔
      store.settle = .ok () ∧ value = result := by
  change (store.settle >>= fun _ => pure value) = _ ↔ _
  simp only [Stop.bind_eq_ok, Unique.exists_iff, Stop.pure_eq_ok]

theorem Host.evaluateBody_cons {host : Host} {call : Callee → Value → Except Stop Value}
    {store : Store} {value result : Value} {entry : Entry} {entries : List Entry} :
    host.evaluateBody call store value (entry :: entries) = .ok result ↔
      ∃ first middle,
        host.evaluateEntry call entries.isEmpty store entry.step = .ok (first, middle) ∧
          host.evaluateBody call middle first entries = .ok result := by
  simp only [evaluateBody, evaluateEntries, Stop.bind_eq_ok]
  constructor
  · intro gives
    obtain ⟨last, ⟨⟨first, middle⟩, one, others⟩, rest⟩ := gives
    exact ⟨first, middle, one, last, others, rest⟩
  · intro gives
    obtain ⟨first, middle, one, last, others, rest⟩ := gives
    exact ⟨last, ⟨(first, middle), one, others⟩, rest⟩

theorem Frame.Lost.unsettled {frame : Frame} (lost : frame.Lost env) :
    ¬frame.unobserved.all (settles env) := by
  obtain ⟨binding, member, none⟩ := lost
  intro all
  have settled := List.all_eq_true.mp all binding member
  rw [settles, none] at settled
  cases settled

theorem Operator.await_accounted (operator : Operator) (left right : TaskId) :
    (operator.await left right).Accounted depths env level := by
  cases operator with
  | waitEither => trivial
  | waitBoth => exact ⟨trivial, trivial, trivial⟩
  | combine => exact ⟨trivial, trivial, trivial⟩

/-- There is no body yet in what is set up. -/
theorem SetsUp.accounted {registry : Registry} {frame after : Frame} {next : TaskId}
    {steps : List Step} {works started : List Work}
    (sets : SetsUp registry frame next steps works started after) :
    Work.accountedAll depths env level works ∧ Work.accountedAll depths env level started := by
  simp only [Work.accountedAll_iff]
  induction sets with
  | nil => exact ⟨nofun, nofun⟩
  | cons _ _ first rest =>
      simp only [List.forall_mem_cons, List.forall_mem_append] at first ⊢
      exact ⟨⟨first.1.1, rest.1⟩, first.2, rest.2⟩
  | constant _ => exact ⟨by simp [Work.Accounted], nofun⟩
  | tablet _ ih | tuple _ ih =>
      simp only [List.forall_mem_singleton, Work.Accounted, Work.accountedAll_iff]
      exact ih
  | bind _ ih =>
      simp only [List.forall_mem_singleton, List.forall_mem_append, Work.Accounted] at ih ⊢
      exact ⟨trivial, ih.2, ih.1⟩
  | call _ ih | invoke _ _ ih =>
      simp only [List.forall_mem_singleton, Work.Accounted] at ih ⊢
      exact ih
  | @operands _ _ _ _ _ _ operator _ _ _ _ _ _ _ _ _ _ first second =>
      simp only [List.forall_mem_singleton, List.forall_mem_append, List.forall_mem_cons,
        Work.Accounted] at first second ⊢
      exact ⟨operator.await_accounted _ _, first.2, first.1, second.2, second.1⟩
  | parameter _ => exact ⟨by simp [Work.Accounted], nofun⟩
  | read _ => exact ⟨by simp [Work.Accounted], nofun⟩

theorem SetsUpEntry.accounted {registry : Registry} {frame after : Frame} {next : TaskId}
    {isLast : Bool} {step : Step} {work : Work} {started : List Work}
    (sets : SetsUpEntry registry frame next isLast step work started after) :
    work.Accounted depths env level ∧ Work.accountedAll depths env level started := by
  cases sets with
  | bind sets =>
      obtain ⟨one, others⟩ := @SetsUp.accounted _ depths env level _ _ _ _ _ _ _ sets
      rw [Work.accountedAll_iff] at others
      rw [Work.accountedAll_iff, List.forall_mem_append, List.forall_mem_singleton]
      refine ⟨?_, others, one.1⟩
      cases isLast <;> trivial
  | other _ sets =>
      obtain ⟨one, others⟩ := @SetsUp.accounted _ depths env level _ _ _ _ _ _ _ sets
      exact ⟨one.1, others⟩

/-- What a routine comes to when it is entered. -/
theorem enter_meaning (routine : Routine) (argument : Value) :
    (enter routine argument).work.meaning depths env level =
      (depths.inside level).bind fun inner =>
        (machine.host.evaluateRoutine (depths.call inner) routine argument).toOption := by
  rw [enter]
  split
  · rename_i none
    simp only [Work.meaning, Host.evaluateRoutine, Host.bindParameters, none]
    rfl
  · rename_i some
    split
    · rename_i values same split
      simp only [Work.meaning, Frame.store?_ofParameters, Host.evaluateRoutine, Host.bindParameters,
        some, split]
      rfl
    · rename_i failure split
      simp only [Work.meaning, Host.evaluateRoutine, Host.bindParameters, some, split]
      cases depths.inside level <;> rfl

theorem call_meaning {callee : Callee} {routine : Routine}
    (found : machine.library.get? callee = some routine) (argument : Value) :
    (depths.call level callee argument).toOption =
      (enter routine argument).work.meaning depths env level := by
  rw [enter_meaning]
  ext value
  rw [toOption_eq_some, depths.call_eq_ok, Option.bind_eq_some_iff]
  constructor
  · intro called
    obtain ⟨inner, other, inside, there, gives⟩ := called
    obtain rfl := Option.some.inj (there.symm.trans found)
    exact ⟨inner, inside, toOption_eq_some.mpr gives⟩
  · intro entered
    obtain ⟨inner, inside, gives⟩ := entered
    exact ⟨inner, routine, inside, found, toOption_eq_some.mp gives⟩

theorem enter_accounted (routine : Routine) (argument : Value) :
    (enter routine argument).work.Accounted depths env level := by
  rw [enter]
  split
  · intro inner inside
    refine ⟨fun none => ?_, trivial⟩
    cases none
  · split
    · intro inner inside
      refine ⟨fun none => ?_, trivial⟩
      rw [Frame.store?_ofParameters] at none
      cases none
    · trivial

/-- Entering a routine costs what the routine does at most. -/
theorem enter_cost {price : depths.Level → Callee → Nat} (routine : Routine) (argument : Value)
    {inner : depths.Level} (inside : depths.inside level = some inner) :
    (enter routine argument).work.cost price level ≤ routine.cost (price inner) := by
  rw [enter]
  split
  · refine (Work.cost_body inside _ _ _ _).le.trans ?_
    simp only [Work.cost, Routine.cost, Frame.empty, List.length_nil]
    omega
  · split
    · refine (Work.cost_body inside _ _ _ _).le.trans ?_
      simp only [Work.cost, Routine.cost, Frame.ofParameters, List.length_map, List.length_zip]
      omega
    · exact Nat.zero_le _

/-- The tasks that have an outcome were expected to have it. -/
def World.Expects (env : TaskId → Option Value) (world : World) : Prop :=
  ∀ task outcome, world.tasks[task]? = some (.done outcome) → env task = outcome.toOption

/-- Have all calls of the work a level? They have if levels do not end, and if the work has a
value. -/
def Work.Fits (depths : Depths machine.host) (env : TaskId → Option Value) (level : depths.Level)
    (work : Work) : Prop :=
  (∀ level, depths.inside level ≠ none) ∨ work.meaning depths env level ≠ none

/-- The change of the work follows what was expected. -/
structure Follows (depths : Depths machine.host) (env : TaskId → Option Value)
    (level inner : depths.Level) (next : Nat) (work : Work) (change : Change) : Prop where
  meaning : change.work.meaning depths env level = work.meaning depths env level
  accounted : change.work.Accounted depths env level
  begun : Work.accountedAll depths env inner change.started
  missing : Missing env next change.started.length → change.work.meaning depths env level = none
  cost : ∀ price, depths.Prices price → work.meaning depths env level ≠ none →
    change.work.cost price level + Work.costAll price inner change.started < work.cost price level

/-- A body that fits has a level inside of it. -/
theorem Work.Fits.room {frame : Frame} {current : Work} {index : Nat} {entries : List Entry}
    (fits : (Work.body frame current index entries).Fits depths env level) :
    ∃ inner, depths.inside level = some inner := by
  rcases fits with endless | some
  · exact Option.ne_none_iff_exists'.mp (endless level)
  · obtain ⟨result, means⟩ := Option.ne_none_iff_exists'.mp some
    obtain ⟨inner, _, _, inside, _⟩ := Work.meaning_body.mp means
    exact ⟨inner, inside⟩

theorem Work.meaning_body_none {frame : Frame} {current : Work} {index : Nat}
    {entries : List Entry} {inner : depths.Level} (inside : depths.inside level = some inner)
    (fails : current.meaning depths env inner = none) :
    (Work.body frame current index entries).meaning depths env level = none := by
  rw [Option.eq_none_iff_forall_ne_some]
  intro value means
  obtain ⟨other, _, _, same, _, gives, _⟩ := Work.meaning_body.mp means
  obtain rfl := Option.some.inj (inside.symm.trans same)
  cases fails.symm.trans gives

theorem Work.meaning_after_none {source : Work} {next : Continuation}
    (fails : source.meaning depths env level = none) :
    (Work.after source next).meaning depths env level = none := by
  rw [Work.meaning, fails]
  rfl

theorem Work.meaning_gather_none {shape : Shape} {members : List Work} {member : Work}
    (inside : member ∈ members) (fails : member.meaning depths env level = none) :
    (Work.gather shape members).meaning depths env level = none := by
  rw [Work.meaning, Work.meaningAll_eq_none.mpr ⟨member, inside, fails⟩]
  rfl

namespace Follows

variable {inner : depths.Level} {next : Nat} {work : Work} {change : Change}

theorem quiet (still : change.started = [])
    (meaning : change.work.meaning depths env level = work.meaning depths env level)
    (accounted : change.work.Accounted depths env level)
    (cost : ∀ price, depths.Prices price → work.meaning depths env level ≠ none →
      change.work.cost price level < work.cost price level) :
    Follows depths env level inner next work change where
  meaning := meaning
  accounted := accounted
  begun := by
    rw [still]
    trivial
  missing := by
    rw [still]
    intro missing
    exact absurd missing not_missing_zero
  cost := by
    rw [still]
    exact cost

theorem done {outcome : Outcome} {events : List Event} {met : Option TaskId}
    (meaning : outcome.toOption = work.meaning depths env level)
    (cost : ∀ price : depths.Level → Callee → Nat, 0 < work.cost price level) :
    Follows depths env level inner next work ⟨.done outcome, [], events, met⟩ := by
  refine quiet rfl meaning trivial fun price _ _ => ?_
  rw [Work.cost]
  exact cost price

/-- The change of a part is one of the whole. -/
theorem within (context : Work → Work) {before : Work} {around : depths.Level}
    (part : Follows depths env around inner next before change)
    (meaning : ∀ work other : Work,
      work.meaning depths env around = other.meaning depths env around →
        (context work).meaning depths env level = (context other).meaning depths env level)
    (none : ∀ work : Work, work.meaning depths env around = none →
      (context work).meaning depths env level = none)
    (accounted : (context change.work).Accounted depths env level)
    (cost : ∀ (price : depths.Level → Callee → Nat) (count : Nat),
      change.work.cost price around + count < before.cost price around →
        (context change.work).cost price level + count < (context before).cost price level) :
    Follows depths env level inner next (context before) (change.within context) where
  meaning := meaning _ _ part.meaning
  accounted := accounted
  begun := part.begun
  missing missing := none _ (part.missing missing)
  cost price prices some :=
    cost price _ (part.cost price prices fun nothing => some (none _ nothing))

theorem perform {primitive : Primitive} {clock : Nat} {value : Value} {events : List Event}
    {rest : Continuation} (performs : rest = .invoke primitive ∨ rest = .join primitive) :
    Follows depths env level inner next (.after (.done (.ok value)) rest)
      (Machine.goOn.perform clock value primitive events) := by
  have means : (Work.after (.done (.ok value)) rest).meaning depths env level =
      (primitive.action value).outcome.toOption := by
    obtain rfl | rfl := performs <;> rfl
  have costs (price : depths.Level → Callee → Nat) :
      (Work.after (.done (.ok value)) rest).cost price level = 2 := by
    obtain rfl | rfl := performs <;> rfl
  simp only [Machine.goOn.perform]
  split
  · refine done means.symm fun price => ?_
    rw [costs]
    exact Nat.zero_lt_two
  · refine quiet rfl means.symm trivial fun price _ _ => ?_
    rw [costs]
    exact Nat.one_lt_two

theorem goOn {clock : Nat} {value : Value} {rest : Continuation} (sound : rest.Sound footing) :
    Follows depths env level inner next (.after (.done (.ok value)) rest)
      (machine.goOn clock value rest) := by
  cases rest with
  | pick names place =>
      have means : (Work.after (.done (.ok value)) (.pick names place)).meaning depths env level =
          pick? names place value := rfl
      rw [pick?] at means
      rw [Machine.goOn]
      split
      · rename_i values same split
        rw [split] at means
        exact done means.symm fun price => Nat.succ_pos _
      · rename_i failure split
        rw [split] at means
        exact done means.symm fun price => Nat.succ_pos _
  | call callee =>
      obtain ⟨routine, found, supported⟩ := footing.routines callee sound
      have entered := @Moves.enter_sound _ footing (fun _ => True) (fun _ => True) routine supported
        value
      have means : (Work.after (.done (.ok value)) (.call callee)).meaning depths env level =
          (enter routine value).work.meaning depths env level := call_meaning found value
      rw [Machine.goOn, found]
      refine quiet entered.2 means.symm (enter_accounted routine value) ?_
      intro price prices some
      rw [means, enter_meaning] at some
      cases inside : depths.inside level with
      | none =>
          rw [inside] at some
          exact absurd rfl some
      | some around =>
          have enters : (enter routine value).work.cost price level ≤ _ :=
            enter_cost routine value inside
          have priced := prices level around callee routine inside found
          simp only [Work.cost, Continuation.cost]
          omega
  | invoke primitive => exact perform (.inl rfl)
  | join primitive => exact perform (.inr rfl)

/-- Where nothing is left to be done in a body, its bindings are settled. -/
theorem last {frame : Frame} {value : Value} {index : Nat}
    (fits : (Work.body frame (.done (.ok value)) index []).Fits depths env level)
    (accounted : (Work.body frame (.done (.ok value)) index []).Accounted depths env level) :
    Follows depths env level inner next (.body frame (.done (.ok value)) index [])
      (.become (.settle frame.unobserved value)) := by
  obtain ⟨around, inside⟩ := fits.room
  refine quiet rfl (Option.ext fun result => ?_) trivial fun price _ _ => ?_
  · rw [Work.meaning_body]
    simp only [Change.become, Work.meaning, Option.ite_none_right_eq_some, Option.some.injEq,
      Host.evaluateBody_nil]
    constructor
    · intro settled
      obtain ⟨all, rfl⟩ := settled
      cases stored : frame.store? env with
      | none =>
          rcases (accounted around inside).1 stored with lost | fails
          · exact absurd all lost.unsettled
          · cases fails
      | some store =>
          have settles := (Store.settle_eq_ok stored).mpr all
          exact ⟨around, store, value, inside, rfl, rfl, settles, rfl⟩
    · intro gives
      obtain ⟨_, store, _, _, stores, same, settled, rfl⟩ := gives
      exact ⟨(Store.settle_eq_ok stores).mp settled, Option.some.inj same⟩
  · have fewer := List.length_filterMap_le Binding.unobserved? frame.bindings
    simp only [Change.become, Work.cost, Frame.unobserved]
    omega

theorem begin_meaning {frame after : Frame} {value : Value} {index : Nat} {entry : Entry}
    {entries : List Entry} {work : Work} {started : List Work}
    (calm : ¬footing.races)
    (sets : SetsUpEntry machine.registry frame next entries.isEmpty entry.step work started after)
    (needs : ∀ need ∈ stepsNeeds [entry.step], footing.allowed need)
    (solves : Solves depths env ((depths.inside level).getD level) next started) :
    (Work.body after work (index + 1) entries).meaning depths env level =
      (Work.body frame (.done (.ok value)) index (entry :: entries)).meaning depths env level := by
  refine Option.ext fun result => ?_
  rw [Work.meaning_body, Work.meaning_body]
  constructor
  · intro means
    obtain ⟨around, store, first, inside, stores, one, rest⟩ := means
    rw [inside] at solves
    obtain ⟨before, stored, gives⟩ :=
      (sets.evaluates calm needs solves first store).mp ⟨stores, one⟩
    exact ⟨around, before, value, inside, stored, rfl,
      Host.evaluateBody_cons.mpr ⟨first, store, gives, rest⟩⟩
  · intro means
    obtain ⟨around, before, _, inside, stored, _, rest⟩ := means
    obtain ⟨first, store, gives, rest⟩ := Host.evaluateBody_cons.mp rest
    rw [inside] at solves
    obtain ⟨stores, one⟩ :=
      (sets.evaluates calm needs solves first store).mpr ⟨before, stored, gives⟩
    exact ⟨around, store, first, inside, stores, one, rest⟩

theorem begin {frame after : Frame} {value : Value} {index : Nat} {entry : Entry}
    {entries : List Entry} {work : Work} {started : List Work} {events : List Event}
    (calm : ¬footing.races)
    (sets : SetsUpEntry machine.registry frame next entries.isEmpty entry.step work started after)
    (needs : ∀ need ∈ stepsNeeds [entry.step], footing.allowed need)
    (filled : ∀ task : Nat, task ∈ frame.tasks → task < next)
    (accounted :
      (Work.body frame (.done (.ok value)) index (entry :: entries)).Accounted depths env level)
    (solves : Solves depths env ((depths.inside level).getD level) next started) :
    Follows depths env level ((depths.inside level).getD level) next
      (.body frame (.done (.ok value)) index (entry :: entries))
      ⟨.body after work (index + 1) entries, started, events, none⟩ := by
  have lost (around : depths.Level) (inside : depths.inside level = some around) (result : Value)
      (means : work.meaning depths env around = some result)
      (missing : frame.Lost env ∨ Missing env next started.length) : after.Lost env := by
    rw [inside] at solves
    exact sets.lost solves means missing
  have fills := (@SetsUpEntry.prepared _ footing _ _ _ _ _ _ _
    (fun task : Nat => task ∈ frame.tasks ∨ next ≤ task) sets needs
    (fun task member => ⟨.inl member, filled task member⟩) fun _ => .inr).filled
  constructor
  · exact begin_meaning calm sets needs solves
  · intro around inside
    refine ⟨fun unstored => ?_, sets.accounted.1⟩
    cases means : work.meaning depths env around with
    | none => exact .inr rfl
    | some result =>
        refine .inl (lost around inside result means ?_)
        obtain ⟨task, member, fails⟩ := Frame.store?_eq_none.mp unstored
        obtain ⟨bound, below⟩ := fills task member
        rcases bound with earlier | above
        · have before := Frame.store?_eq_none.mpr ⟨task, earlier, fails⟩
          exact .inl (((accounted around inside).1 before).resolve_right nofun)
        · exact .inr ⟨task, above, below, fails⟩
  · exact sets.accounted.2
  · intro missing
    rw [Option.eq_none_iff_forall_ne_some]
    intro result means
    obtain ⟨around, store, first, inside, stores, one, _⟩ := Work.meaning_body.mp means
    cases stores.symm.trans (lost around inside first one (.inr missing)).store?
  · intro price prices some
    obtain ⟨result, means⟩ := Option.ne_none_iff_exists'.mp some
    obtain ⟨around, _, _, inside, _⟩ := Work.meaning_body.mp means
    have le := @SetsUpEntry.cost_le _ _ price around _ _ _ _ _ _ _ _ sets
    rw [Work.cost_body inside, Work.cost_body inside, inside, Option.getD_some]
    simp only [Work.cost, entriesCost, List.map_cons, stepsCost, List.length_cons] at le ⊢
    omega

theorem source {source : Work} {rest : Continuation}
    (part : Follows depths env level inner next source change) :
    Follows depths env level inner next (.after source rest) (change.within (.after · rest)) := by
  refine .within (.after · rest) part (fun work other same => ?_)
    (fun work fails => Work.meaning_after_none fails) part.accounted fun price count less => ?_
  · simp only [Work.meaning, same]
  · simp only [Work.cost]
    omega

theorem member {shape : Shape} {before after : List Work} {member : Work}
    (accounted : (Work.gather shape (before ++ member :: after)).Accounted depths env level)
    (part : Follows depths env level inner next member change) :
    Follows depths env level inner next (.gather shape (before ++ member :: after))
      (change.within fun work => .gather shape (before ++ work :: after)) := by
  rw [Work.Accounted, Work.accountedAll_iff, List.forall_mem_append, List.forall_mem_cons]
    at accounted
  refine .within (fun work => .gather shape (before ++ work :: after)) part
    (fun work other same => ?_) (fun work fails => ?_) ?_ fun price count less => ?_
  · simp only [Work.meaning, Work.meaningAll_replace same]
  · exact Work.meaning_gather_none (List.mem_append_right _ List.mem_cons_self) fails
  · rw [Work.Accounted, Work.accountedAll_iff, List.forall_mem_append, List.forall_mem_cons]
    exact ⟨accounted.1, part.accounted, accounted.2.2⟩
  · simp only [Work.cost, Work.costAll_append, Work.costAll]
    omega

theorem current {frame : Frame} {current : Work} {index : Nat} {entries : List Entry}
    {around : depths.Level} (inside : depths.inside level = some around)
    (accounted : (Work.body frame current index entries).Accounted depths env level)
    (part : Follows depths env around inner next current change) :
    Follows depths env level inner next (.body frame current index entries)
      (change.within (.body frame · index entries)) := by
  refine .within (.body frame · index entries) part (fun work other same => ?_)
    (fun work fails => Work.meaning_body_none inside fails) ?_ fun price count less => ?_
  · simp only [Work.meaning, inside, Option.bind_some, same]
  · intro other same
    obtain rfl := Option.some.inj (inside.symm.trans same)
    refine ⟨fun unstored => ?_, part.accounted⟩
    exact ((accounted around inside).1 unstored).imp_right part.meaning.trans
  · rw [Work.cost_body inside, Work.cost_body inside]
    omega

theorem settle {task : TaskId} {count : Nat} {bindings : List (TaskId × Nat)} {result : Value}
    {outcome : Outcome} (expected : env task = outcome.toOption)
    (checks : Machine.settle count bindings result (.done outcome) = some change) :
    Follows depths env level inner next (.settle ((task, count) :: bindings) result)
      (change.meeting task) := by
  have means : (Work.settle ((task, count) :: bindings) result).meaning depths env level =
      if settles env (task, count) && bindings.all (settles env) then some result else none := rfl
  cases outcome with
  | error failure =>
      cases checks
      refine done ?_ fun price => Nat.succ_pos _
      rw [means, settles, expected]
      rfl
  | ok value =>
      rw [Machine.settle] at checks
      have settled : settles env (task, count) = (value.split count).isOk := by
        rw [settles, expected]
        rfl
      rw [settled] at means
      split at checks
      · rename_i values split
        cases checks
        refine quiet rfl ?_ trivial fun price _ _ => ?_
        · rw [means, split]
          rfl
        · exact Nat.lt_succ_self _
      · rename_i failure split
        cases checks
        refine done ?_ fun price => Nat.succ_pos _
        rw [means, split]
        rfl

end Follows

/-- Each move follows what was expected, whatever the tasks that it starts come to. -/
theorem Moves.follows {waits own : TaskId → Prop} (calm : ¬footing.races) {work : Work}
    {change : Change} (moves : Moves machine world work change)
    (sound : work.Sound footing waits own)
    (started : ∀ task : Nat, own task → task < world.tasks.length) (unbroken : world.Unbroken)
    (level : depths.Level) :
    ∃ inner, ∀ env, world.Expects env → work.Fits depths env level →
      work.Accounted depths env level → Solves depths env inner world.tasks.length change.started →
        Follows depths env level inner world.tasks.length work change := by
  induction moves generalizing level with
  | fresh =>
      refine ⟨level, fun env expects fits accounted solves => ?_⟩
      refine .quiet rfl rfl accounted fun price _ _ => ?_
      rw [Work.cost_fresh]
      exact Nat.lt_succ_self _
  | wait there ends =>
      obtain ⟨outcome, rfl⟩ := ended_done unbroken there ends
      refine ⟨level, fun env expects fits accounted solves => ?_⟩
      exact .done (expects _ outcome there).symm fun price => Nat.one_pos
  | race won => exact absurd sound.1 calm
  | wake due =>
      refine ⟨level, fun env expects fits accounted solves => ?_⟩
      exact .done rfl fun price => Nat.one_pos
  | goOn => exact ⟨level, fun env expects fits accounted solves => .goOn sound.2⟩
  | fail =>
      refine ⟨level, fun env expects fits accounted solves => ?_⟩
      exact .done rfl fun price => Nat.succ_pos _
  | breaks => exact sound.1.elim
  | source _ ih =>
      obtain ⟨inner, follows⟩ := ih sound.1 level
      refine ⟨inner, fun env expects fits accounted solves => .source ?_⟩
      exact follows env expects (fits.imp_right (mt Work.meaning_after_none)) accounted solves
  | spoil spoiled =>
      obtain ⟨failure, rfl, inside⟩ := spoiled_done sound spoiled
      refine ⟨level, fun env expects fits accounted solves => ?_⟩
      refine .done (Eq.symm ?_) fun price => Nat.succ_pos _
      exact Work.meaning_gather_none inside rfl
  | collect collected =>
      refine ⟨level, fun env expects fits accounted solves => ?_⟩
      refine .done ?_ fun price => Nat.succ_pos _
      rw [Work.meaning, Work.meaningAll_eq_some collected]
      rfl
  | @member shape before member after change _ ih =>
      rw [Work.Sound, Work.soundAll_iff, List.forall_mem_append, List.forall_mem_cons] at sound
      obtain ⟨inner, follows⟩ := ih sound.2.1 level
      refine ⟨inner, fun env expects fits accounted solves => .member accounted ?_⟩
      have inside : member ∈ before ++ member :: after :=
        List.mem_append_right _ List.mem_cons_self
      rw [Work.Accounted, Work.accountedAll_iff] at accounted
      exact follows env expects (fits.imp_right (mt (Work.meaning_gather_none inside)))
        (accounted member inside) solves
  | last => exact ⟨level, fun env expects fits accounted solves => .last fits accounted⟩
  | @begin frame value index entry entries =>
      obtain ⟨work, tasks, after, events, same, sets, _⟩ :=
        Machine.begin_eq sound.2.2 world.tasks.length index
      have needs := (Supported.cons.mp sound.2.2).1.needs
      refine ⟨(depths.inside level).getD level, fun env expects fits accounted solves => ?_⟩
      rw [same] at solves ⊢
      exact .begin calm sets needs (fun task member => started task (sound.1 task member)) accounted
        solves
  | bodyFails =>
      refine ⟨level, fun env expects fits accounted solves => ?_⟩
      refine .done (Eq.symm ?_) fun price => ?_
      · rw [Except.toOption, Option.eq_none_iff_forall_ne_some]
        intro result means
        obtain ⟨_, _, _, _, _, fails, _⟩ := Work.meaning_body.mp means
        cases fails
      · rw [Work.cost]
        omega
  | bodyBreaks => exact sound.2.1.elim
  | @current frame current index entries change _ ih =>
      cases inside : depths.inside level with
      | none =>
          refine ⟨level, fun env expects fits accounted solves => ?_⟩
          obtain ⟨around, room⟩ := fits.room
          cases inside.symm.trans room
      | some around =>
          obtain ⟨inner, follows⟩ := ih sound.2.1 around
          refine ⟨inner, fun env expects fits accounted solves => ?_⟩
          have part := follows env expects
            (fits.imp_right (mt (Work.meaning_body_none inside)))
            (accounted around inside).2 solves
          exact .current inside accounted part
  | settled =>
      refine ⟨level, fun env expects fits accounted solves => ?_⟩
      exact .done rfl fun price => Nat.succ_pos _
  | @settle task count bindings result other change there checks =>
      refine ⟨level, fun env expects fits accounted solves => ?_⟩
      cases other with
      | done outcome => exact .settle (expects task outcome there) checks
      | broken defect => exact absurd there (unbroken task defect)
      | _ => cases checks

end Runbook
