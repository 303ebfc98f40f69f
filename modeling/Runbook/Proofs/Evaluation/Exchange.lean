import Runbook.Proofs.Evaluation.Filling
import Runbook.Proofs.Evaluation.Origins
import Runbook.Proofs.Evaluation.Together

/-!
Two runs that differ in an operand which is outrun.

An operation waits for either of two steps, one of which always comes first. The other one is
exchanged for another step that comes too late as well. In both runs the tasks of such operands, and
all that these start, have no counterpart; all else is paired, and does the same.
-/
namespace Runbook

theorem Library.get?_revise (library : Library) (callee asked : Callee) (sequence : Sequence) :
    (library.revise callee sequence).get? asked = (library.get? asked).map fun routine =>
      if asked = callee then { routine with sequence } else routine := by
  induction library with
  | nil => rfl
  | cons entry library ih =>
      obtain ⟨number, routine⟩ := entry
      rw [revise, List.map_cons, get?, get?]
      by_cases same : asked = number
      · rw [if_pos same, if_pos same, same]
        rfl
      · rw [if_neg same, if_neg same]
        exact ih

theorem Work.part?_of_meet {work part : Work} {place : List Nat}
    (there : work.part? place = some part) :
    ∃ later, work.meet.part? place = some later ∧ (later = part ∨ later = part.meet) := by
  cases work with
  | broken defect =>
      cases place with
      | nil =>
          obtain rfl := Option.some.inj there
          exact ⟨_, rfl, .inr rfl⟩
      | cons index place => cases there
  | _ => exact ⟨part, there, .inl rfl⟩

namespace World

variable {machine : Machine} {world next : World} {task : TaskId} {place : List Nat}

/-- A body that stands in a task which is kept has stood there before. -/
theorem Kept.body {frame : Frame} {current : Work} {index : Nat} {entries : List Entry}
    (kept : world.Kept next task)
    (there : next.part? task place = some (.body frame current index entries)) :
    world.part? task place = some (.body frame current index entries) := by
  obtain ⟨work, before, after⟩ := kept
  obtain ⟨later, now, there⟩ := Option.bind_eq_some_iff.mp there
  rw [part?, before]
  rcases after with same | met
  · obtain rfl := Option.some.inj (same.symm.trans now)
    exact there
  · obtain rfl := Option.some.inj (met.symm.trans now)
    obtain ⟨part, stands, rfl | met⟩ := Work.part?_meet there
    · exact stands
    · cases part with
      | body => exact met ▸ stands
      | _ => cases met

/-- Tasks that do not move in a step are kept. -/
theorem Aside.kept {tasks : List Nat} {work : Work} (aside : Aside machine tasks world next)
    (orderly : world.Orderly machine) (inside : task ∈ tasks)
    (there : world.tasks[task]? = some work) : world.Kept next task := by
  rcases orderly.cases aside.stepped with ⟨moved, _, _, _, move⟩ | tick
  · exact .move move there fun same => aside.stray move (same ▸ inside)
  · exact .tick tick there

end World

/-- An invocation goes on where a body of it stands after a step of the run. -/
theorem Routine.Invoked.later {program : Routine} {registry : Registry} {argument : Value}
    {callee : Callee} {task : TaskId} {place : List Nat} {world next : World} {before after : Work}
    (invoked : program.Invoked registry argument callee task place world)
    (stepped : world.step? ⟨registry, program.library⟩ = some next)
    (there : world.part? task place = some before) (going : before.ended? = none)
    (later : next.part? task place = some after) :
    program.Invoked registry argument callee task place next := by
  obtain ⟨start, bound, enters, proceeds⟩ := invoked
  exact ⟨start, bound ++ before.binds after, enters,
    proceeds.tail ⟨stepped, before, after, there, going, later, rfl⟩⟩

/-- A program in which one operand of an operation is exchanged. Both operands that stand there read
only names of their own, which nothing else reads, and are outrun by the winner. -/
structure Exchange where
  registry : Registry
  program : Routine
  argument : Value
  callee : Callee
  host : Routine
  site : Site
  side : Side
  winner : Step
  loser : Step
  other : Step
  operator : registry.lookup Operator.waitEither.primitive = some Operator.waitEither.asPrimitive
  first : ∃ main, Library.get? program.library 0 = some main ∧ program.sequence = main.sequence
  there : Library.get? program.library callee = some host
  stands : host.sequence = site.sequence (side.either winner loser)
  succeeds : ∀ step ∈ [loser, other], ∀ (setting : Setting) (before : SetUp.State), ∃ work after,
    (setUp registry setting step).Gives before work after
  bound : ∀ step ∈ [loser, other], step.Bound []
  here : ∀ name ∈ loser.binders ++ other.binders, .reading name ∉ site.mentions ++ winner.mentions
  elsewhere : ∀ name ∈ loser.binders ++ other.binders, ∀ asked routine,
    Library.get? program.library asked = some routine → asked ≠ callee →
      .reading name ∉ routine.sequence.mentions
  outruns : program.Outruns registry argument callee site side winner loser
  outruns' : (program.revise callee (site.sequence (side.either winner other))).Outruns registry
    argument callee site side winner other

namespace Exchange

variable (exchange : Exchange)

/-- The program after the exchange. -/
def revised : Routine :=
  exchange.program.revise exchange.callee
    (exchange.site.sequence (exchange.side.either exchange.winner exchange.other))

def machine : Machine := ⟨exchange.registry, exchange.program.library⟩

def machine' : Machine := ⟨exchange.registry, exchange.revised.library⟩

def start : World := .start exchange.program exchange.argument

def start' : World := .start exchange.revised exchange.argument

/-- The entry at the site, where that step stands. -/
def entry (step : Step) : Entry :=
  ⟨exchange.site.setting, exchange.site.context.fill (exchange.side.either exchange.winner step)⟩

/-- In a run, the operation has started its tasks when so many had been started. -/
def Performed (program : Routine) (count : Nat) : Prop :=
  program.Performs exchange.registry exchange.argument exchange.callee exchange.site.before.length
    count

/-- The task of the winner and that of the other operand, each time. -/
def Outrun (program : Routine) (step : Step) (winner loser : TaskId) : Prop :=
  ∃ count, exchange.Performed program count ∧
    winner = exchange.side.winner exchange.registry
      (count + exchange.site.context.starts exchange.registry) exchange.winner step ∧
    loser = exchange.side.loser exchange.registry
      (count + exchange.site.context.starts exchange.registry) exchange.winner step

/-- In a run, an invocation of the procedure in which the operation is stands at the place. -/
def Invoked (program : Routine) (task : TaskId) (place : List Nat) (world : World) : Prop :=
  program.Invoked exchange.registry exchange.argument exchange.callee task place world

def Shared (name : Name) : Prop := name ∉ exchange.loser.binders ++ exchange.other.binders

/-- The same entries, which read no name of an exchanged operand. -/
def Plain (entries entries' : List Entry) : Prop :=
  entries = entries' ∧ ∀ name, .reading name ∈ Sequence.mentions entries → exchange.Shared name

/-- What is ahead of the operation in the sequence, and after it. -/
def Ahead (index : Nat) (entries entries' : List Entry) : Prop :=
  ∃ before, index + before.length = exchange.site.before.length ∧
    (∀ name, .reading name ∈ Sequence.mentions before → exchange.Shared name) ∧
    entries = before ++ exchange.entry exchange.loser :: exchange.site.after ∧
    entries' = before ++ exchange.entry exchange.other :: exchange.site.after

def like : Likeness where
  shared := exchange.Shared
  entries index entries entries' :=
    exchange.Plain entries entries' ∨ exchange.Ahead index entries entries'
  outruns₁ := exchange.Outrun exchange.program exchange.loser
  outruns₂ := exchange.Outrun exchange.revised exchange.other
  whole := False

/-- Entries that differ are those of an invocation which performs the operation. -/
def Begins (index : Nat) (entries entries' : List Entry) (count count' : Nat) : Prop :=
  exchange.Plain entries entries' ∨ (index = exchange.site.before.length →
    exchange.Performed exchange.program count ∧ exchange.Performed exchange.revised count')

/-- Where the entries ahead differ in paired tasks, these perform the operation in both runs. -/
def Keeps (pairs : Pairing) (world world' : World) : Prop :=
  ∀ pair ∈ pairs, ∀ place frame frame' current current' index index' entries entries',
    world.part? pair.1 place = some (.body frame current index entries) →
    world'.part? pair.2 place = some (.body frame' current' index' entries') →
    exchange.Plain entries entries' ∨
      exchange.Invoked exchange.program pair.1 place world ∧
        exchange.Invoked exchange.revised pair.2 place world'

variable {exchange}

theorem shared_of_site {name : Name}
    (mem : .reading name ∈ exchange.site.mentions ++ exchange.winner.mentions) :
    exchange.Shared name :=
  fun own => exchange.here name own mem

theorem Plain.tail {entry entry' : Entry} {entries entries' : List Entry}
    (plain : exchange.Plain (entry :: entries) (entry' :: entries')) :
    exchange.Plain entries entries' :=
  ⟨(List.cons.inj plain.1).2, fun name mem => plain.2 name (List.mem_append_right _ mem)⟩

theorem plain_after : exchange.Plain exchange.site.after exchange.site.after :=
  ⟨rfl, fun _ mem => shared_of_site (List.mem_append_left _ (List.mem_append_right _ mem))⟩

theorem like_routines (asked : Callee) : Option.Rel
    (fun routine routine' : Routine => routine.procedure = routine'.procedure ∧
      routine.parameters = routine'.parameters ∧
      exchange.like.entries 0 routine.sequence routine'.sequence)
    (exchange.machine.library.get? asked) (exchange.machine'.library.get? asked) := by
  change Option.Rel _ (Library.get? exchange.program.library asked)
    ((Library.revise exchange.program.library _ _).get? asked)
  rw [Library.get?_revise]
  cases found : Library.get? exchange.program.library asked with
  | none => exact .none
  | some routine =>
      by_cases same : asked = exchange.callee
      · rw [Option.map_some, if_pos same]
        refine .some ⟨rfl, rfl, .inr ⟨exchange.site.before, Nat.zero_add _, ?_, ?_, rfl⟩⟩
        · intro name mem
          exact shared_of_site (List.mem_append_left _
            (List.mem_append_left _ (List.mem_append_left _ mem)))
        · rw [same, exchange.there] at found
          rw [← Option.some.inj found]
          exact exchange.stands
      · rw [Option.map_some, if_neg same]
        refine .some ⟨rfl, rfl, .inl ⟨rfl, fun name mem own => ?_⟩⟩
        exact exchange.elsewhere name own asked routine found same mem

theorem like_next {index : Nat} {entry : Entry} {entries others : List Entry}
    (same : exchange.like.entries index (entry :: entries) others) :
    ∃ entry' entries', others = entry' :: entries' ∧
      exchange.like.entries (index + 1) entries entries' := by
  rcases same with plain | ⟨before, count, reads, one, rfl⟩
  · have same := plain.1
    subst same
    exact ⟨entry, entries, rfl, .inl plain.tail⟩
  · cases before with
    | nil =>
        rw [List.nil_append, List.cons.injEq] at one
        refine ⟨_, _, rfl, .inl ?_⟩
        rw [one.2]
        exact plain_after
    | cons first before =>
        rw [List.cons_append, List.cons.injEq] at one
        refine ⟨first, _, rfl, .inr ⟨before, ?_, fun name mem => reads name ?_, one.2, rfl⟩⟩
        · rw [List.length_cons] at count
          omega
        · exact List.mem_append_right _ mem

theorem like_begin {index : Nat} {entry entry' : Entry} {entries entries' : List Entry}
    {ground : Ground} {pairs : Pairing} {one other : SetUp.State}
    (like : ground.like = exchange.like)
    (whole : ∀ task, ground.whole₁ task ∨ ground.whole₂ task → exchange.like.whole)
    (same : exchange.like.entries index (entry :: entries) (entry' :: entries'))
    (begins : exchange.Begins index (entry :: entries) (entry' :: entries') one.next other.next)
    (alike : ∀ rest, Seen exchange.Shared rest →
      SetUp.State.Alike ground exchange.Shared rest pairs one other) :
    SetUp.Agree ground exchange.Shared pairs
      (setUpEntry exchange.registry index entries.isEmpty entry)
      (setUpEntry exchange.registry index entries'.isEmpty entry') one other []
      fun later => Work.Alike exchange.like later := by
  rw [← like]
  have plainly {isLast : Bool}
      (reads : ∀ name, .reading name ∈ entry.step.mentions → exchange.Shared name) :
      SetUp.Agree ground exchange.Shared pairs (setUpEntry exchange.registry index isLast entry)
        (setUpEntry exchange.registry index isLast entry) one other []
        fun later => Work.Alike ground.like later := by
    refine SetUp.setUpEntry_agree index isLast entry (alike _ ?_)
    rw [List.append_nil]
    exact Seen.of_reads reads
  rcases same with ⟨same, reads⟩ | ⟨before, count, reads, one', other'⟩
  · obtain ⟨rfl, rfl⟩ := List.cons.inj same
    exact plainly fun name mem => reads name (List.mem_append_left _ mem)
  · cases before with
    | cons first before =>
        rw [List.cons_append, List.cons.injEq] at one' other'
        obtain ⟨rfl, rfl⟩ := one'
        obtain ⟨rfl, rfl⟩ := other'
        have more (step : Step) :
            (before ++ exchange.entry step :: exchange.site.after).isEmpty = false := by
          cases before with
          | nil => rfl
          | cons first before => rfl
        rw [more, more]
        exact plainly fun name mem => reads name (List.mem_append_left _ mem)
    | nil =>
        rw [List.nil_append, List.cons.injEq] at one' other'
        rcases begins with ⟨same, reads⟩ | performed
        · obtain ⟨rfl, rfl⟩ := List.cons.inj same
          exact plainly fun name mem => reads name (List.mem_append_left _ mem)
        · obtain ⟨rfl, rfl⟩ := one'
          obtain ⟨rfl, rfl⟩ := other'
          obtain ⟨now, now'⟩ := performed count
          refine SetUp.setUpEntry_agree_at
            (fun name mem => shared_of_site (List.mem_append_left _
              (List.mem_append_left _ (List.mem_append_right _ mem))))
            (SetUp.either_agree exchange.operator
              (fun name mem => shared_of_site (List.mem_append_right _ mem)) ?_ exchange.bound ?_ ?_
              ?_ ?_) rfl rfl (alike [] trivial)
          · intro step mem setting before
            obtain ⟨work, after, gives⟩ := exchange.succeeds step mem setting before
            exact ⟨work, after, gives, SetUp.setUp_starts setting step gives⟩
          · intro step mem name own shared
            refine shared (List.mem_append.mpr ?_)
            rcases List.mem_cons.mp mem with rfl | mem
            · exact .inl own
            · rw [List.mem_singleton.mp mem] at own
              exact .inr own
          · exact fun task => ⟨fun inside => whole task (.inl inside),
              fun inside => whole task (.inr inside)⟩
          · rw [like]
            exact ⟨one.next, now, rfl, rfl⟩
          · rw [like]
            exact ⟨other.next, now', rfl, rfl⟩

theorem like_lawful : exchange.like.Lawful exchange.Begins exchange.machine exchange.machine' where
  routines := like_routines
  last same := by
    rcases same with ⟨rfl, _⟩ | ⟨before, _, _, none, _⟩
    · rfl
    · exact absurd none (List.append_ne_nil_of_right_ne_nil _ (List.cons_ne_nil _ _)).symm
  next := like_next
  begin := like_begin

/-- A task that another one always outruns has not ended while a work waits for the first of the
two. -/
theorem calm {program : Routine} {step : Step} {world : World}
    (outruns : program.Outruns exchange.registry exchange.argument exchange.callee exchange.site
      exchange.side exchange.winner step)
    (reaches : (World.start program exchange.argument).Reaches
      ⟨exchange.registry, program.library⟩ world) {task : TaskId} {work : Work}
    (there : world.tasks[task]? = some work) : work.Calm (exchange.Outrun program step) world := by
  have late {winner loser : TaskId} (outrun : exchange.Outrun program step winner loser)
      (raced : ∃ race ∈ work.races, race.1 = winner ∨ race.2 = winner) :
      world.tasks[loser]?.bind Work.ended? = none := by
    obtain ⟨count, performed, rfl, rfl⟩ := outrun
    by_contra ends
    obtain ⟨earlier, came, won, before⟩ :=
      outruns count performed world reaches (Option.isSome_iff_ne_none.mpr ends)
    rcases came.total reaches with onward | back
    · obtain ⟨race, inside, either⟩ := raced
      have unraced :=
        (onward.unraced won before).unraced work (List.mem_of_getElem? there) race inside
      exact either.elim unraced.1 unraced.2
    · exact Nat.not_lt_of_le (World.Reaches.clock_le back) before
  intro place left right part
  have raced : (left, right) ∈ work.races :=
    Work.races_part part (List.mem_singleton.mpr rfl)
  exact ⟨fun outrun => late outrun ⟨_, raced, .inl rfl⟩,
    fun outrun => late outrun ⟨_, raced, .inr rfl⟩⟩

section
variable {pairs more : Pairing} {world world' next next' : World}

theorem Keeps.left (keeps : exchange.Keeps pairs world world')
    (reaches : exchange.start.Reaches exchange.machine world)
    (paired : World.Paired exchange.like pairs world world')
    (aside : World.Aside exchange.machine pairs.lefts world next) :
    exchange.Keeps pairs next world' := by
  intro pair inside place frame frame' current current' index index' entries entries' there there'
  obtain ⟨one, _, stands, _⟩ := paired.there inside
  have before := (aside.kept ((World.start_orderly _ _).reaches reaches)
    (Pairing.mem_lefts.mpr ⟨_, inside⟩) stands).body there
  refine (keeps pair inside place _ _ _ _ _ _ _ _ before there').imp_right ?_
  exact And.imp_left fun invoked => invoked.later aside.stepped before rfl there

theorem Keeps.right (keeps : exchange.Keeps pairs world world')
    (reaches : exchange.start'.Reaches exchange.machine' world')
    (paired : World.Paired exchange.like pairs world world')
    (aside : World.Aside exchange.machine' pairs.rights world' next') :
    exchange.Keeps pairs world next' := by
  intro pair inside place frame frame' current current' index index' entries entries' there there'
  obtain ⟨_, other, _, stands, _⟩ := paired.there inside
  have before := (aside.kept ((World.start_orderly _ _).reaches reaches)
    (Pairing.mem_rights.mpr ⟨_, inside⟩) stands).body there'
  refine (keeps pair inside place _ _ _ _ _ _ _ _ there before).imp_right ?_
  exact And.imp_right fun invoked => invoked.later aside.stepped before rfl there'

/-- Paired tasks have like parts at the same places. -/
theorem part?_paired {like : Likeness} (paired : World.Paired like pairs world world')
    {pair : Nat × Nat} (inside : pair ∈ pairs) (place : List Nat) :
    Option.Rel (Work.Alike like pairs) (world.part? pair.1 place) (world'.part? pair.2 place) := by
  obtain ⟨one, other, there, there', alike⟩ := paired.there inside
  rw [World.part?, World.part?, there, there']
  exact alike.part?

theorem entries_of_enter {routine : Routine} {value : Value} {frame : Frame} {current : Work}
    {index : Nat} {entries : List Entry}
    (enters : (enter routine value).work = .body frame current index entries) :
    entries = routine.sequence := by
  rcases Moves.enter_cases routine value with ⟨_, same⟩ | ⟨_, same⟩
  · cases same.symm.trans enters
    rfl
  · cases same.symm.trans enters

/-- Other procedures are the same in both runs, and read no name of an exchanged operand. -/
theorem plain_of_elsewhere {asked : Callee} {routine routine' : Routine}
    (differs : asked ≠ exchange.callee) (found : exchange.machine.library.get? asked = some routine)
    (found' : exchange.machine'.library.get? asked = some routine') :
    exchange.Plain routine.sequence routine'.sequence := by
  change (Library.revise exchange.program.library _ _).get? asked = _ at found'
  change Library.get? exchange.program.library asked = _ at found
  rw [Library.get?_revise, found, Option.map_some, if_neg differs] at found'
  obtain rfl := Option.some.inj found'
  exact ⟨rfl, fun name mem own => exchange.elsewhere name own asked routine found differs mem⟩

/-- A move of paired tasks keeps where the operation is performed. Of a body that stands somewhere
after it, one has stood there before in both runs, or a call has entered it in both. -/
theorem Keeps.both {task task' : TaskId} {one other : Work} {change change' : Change}
    {rest rest' : List TaskId} (keeps : exchange.Keeps pairs world world')
    (reaches : exchange.start.Reaches exchange.machine world)
    (reaches' : exchange.start'.Reaches exchange.machine' world')
    (paired : World.Paired exchange.like pairs world world') (inside : (task, task') ∈ pairs)
    (move : World.Move exchange.machine world next task one change rest)
    (move' : World.Move exchange.machine' world' next' task' other change' rest')
    (stepped : world.step? exchange.machine = some next)
    (stepped' : world'.step? exchange.machine' = some next')
    (alike : Change.Alike (world.ground exchange.like pairs world') more change change') :
    exchange.Keeps more next next' := by
  intro pair listed place frame frame' current current' index index' entries entries' there there'
  have later := part?_paired (paired.moved inside move move' alike) listed place
  rw [there, there'] at later
  have number : index = index' := by
    cases later with
    | some same =>
        cases same
        rfl
  have origin := reaches.body_origin stepped there
  have origin' := reaches'.body_origin stepped' there'
  have old : pair ∈ pairs := by
    rcases alike.grown.fresh pair listed with old | fresh
    · exact old
    · have stood : ∃ part, world.part? pair.1 place = some part := by
        rcases origin with ⟨_, _, _, _, stood, _⟩ | ⟨_, _, _, stood, _⟩
        · exact ⟨_, stood⟩
        · exact ⟨_, stood⟩
      obtain ⟨_, stood⟩ := stood
      obtain ⟨_, stands, _⟩ := Option.bind_eq_some_iff.mp stood
      exact absurd (List.getElem?_eq_some_iff.mp stands).1 (Nat.not_lt_of_le fresh.1)
  have before := part?_paired paired old place
  rcases origin with
    ⟨_, _, earlier, ahead, stood, onward⟩ | ⟨value, callee, routine, stood, found, enters⟩
  · rcases origin' with ⟨_, _, earlier', ahead', stood', onward'⟩ | ⟨_, _, _, stood', _⟩
    · rw [stood, stood'] at before
      have same : earlier = earlier' := by
        cases before with
        | some same =>
            cases same
            rfl
      rcases keeps pair old place _ _ _ _ _ _ _ _ stood stood' with plain | ⟨invoked, invoked'⟩
      · refine .inl ?_
        rcases onward with ⟨first, rfl⟩ | ⟨first, entry, rfl⟩
        · rcases onward' with ⟨_, rfl⟩ | ⟨second, _⟩
          · exact plain
          · omega
        · rcases onward' with ⟨second, _⟩ | ⟨_, entry', rfl⟩
          · omega
          · exact plain.tail
      · exact .inr
          ⟨invoked.later stepped stood rfl there, invoked'.later stepped' stood' rfl there'⟩
    · rw [stood, stood'] at before
      cases before with
      | some same => cases same
  · rcases origin' with
      ⟨_, _, _, _, stood', _⟩ | ⟨value', callee', routine', stood', found', enters'⟩
    · rw [stood, stood'] at before
      cases before with
      | some same => cases same
    · rw [stood, stood'] at before
      obtain ⟨rfl, rfl⟩ : value = value' ∧ callee = callee' := by
        cases before with
        | some same =>
            cases same with
            | after _ same =>
                cases same
                exact ⟨rfl, rfl⟩
      by_cases same : callee = exchange.callee
      · rw [same] at stood stood' found found'
        refine .inr ⟨⟨next, [], .call reaches stepped stood found ?_, .refl⟩,
          next', [], .call reaches' stepped' stood' found' ?_, .refl⟩
        · rw [enters]
          exact there
        · rw [enters']
          exact there'
      · refine .inl ?_
        rw [entries_of_enter enters, entries_of_enter enters']
        exact plain_of_elsewhere same found found'

/-- Where an invocation begins the entry with the operation, the run performs it. -/
theorem performed_of_begun {program : Routine} {world next : World} {task : TaskId}
    {place : List Nat} {work : Work} {change : Change} {rest : List TaskId} {index : Nat}
    {entries : List Entry}
    (move : World.Move ⟨exchange.registry, program.library⟩ world next task work change rest)
    (stepped : world.step? ⟨exchange.registry, program.library⟩ = some next)
    (begun : Begun work change place index entries)
    (invoked : exchange.Invoked program task place world)
    (here : index = exchange.site.before.length) :
    exchange.Performed program world.tasks.length := by
  obtain ⟨frame, value, after, before, later, differs⟩ := begun
  have stood : world.part? task place = some (.body frame (.done (.ok value)) index entries) := by
    rw [World.part?, move.there]
    exact before
  obtain ⟨now, stands, differs⟩ : ∃ now, next.part? task place = some now ∧
      now ≠ .body frame (.done (.ok value)) index entries := by
    rcases move.getElem?_moved with same | met
    · refine ⟨after, ?_, differs⟩
      rw [World.part?, same]
      exact later
    · obtain ⟨now, stands, either⟩ := Work.part?_of_meet later
      refine ⟨now, ?_, ?_⟩
      · rw [World.part?, met]
        exact stands
      · rcases either with rfl | rfl
        · exact differs
        · cases after with
          | broken defect =>
              intro same
              cases same
          | _ => exact differs
  rw [here] at stood differs
  exact ⟨task, place, world, next, frame, value, entries, now, invoked, stepped, stood, stands,
    differs, rfl⟩

theorem permits {task task' : TaskId} {one other : Work} {change change' : Change}
    {rest rest' : List TaskId} (keeps : exchange.Keeps pairs world world')
    (inside : (task, task') ∈ pairs)
    (move : World.Move exchange.machine world next task one change rest)
    (move' : World.Move exchange.machine' world' next' task' other change' rest')
    (stepped : world.step? exchange.machine = some next)
    (stepped' : world'.step? exchange.machine' = some next') :
    Permitted exchange.Begins world world' one change other change' := by
  intro place index entries entries' begun begun'
  have stands {machine : Machine} {world next : World} {task : TaskId} {work : Work}
      {change : Change} {rest : List TaskId} {entries : List Entry}
      (move : World.Move machine world next task work change rest)
      (begun : Begun work change place index entries) :
      ∃ frame value,
        world.part? task place = some (.body frame (.done (.ok value)) index entries) := by
    obtain ⟨frame, value, _, before, _⟩ := begun
    refine ⟨frame, value, ?_⟩
    rw [World.part?, move.there]
    exact before
  obtain ⟨_, _, stood⟩ := stands move begun
  obtain ⟨_, _, stood'⟩ := stands move' begun'
  refine (keeps _ inside place _ _ _ _ _ _ _ _ stood stood').imp_right fun invoked here => ?_
  exact ⟨performed_of_begun move stepped begun invoked.1 here,
    performed_of_begun move' stepped' begun' invoked.2 here⟩

end

/-- The two runs are compared in all but the operands that are exchanged. -/
def comparison (exchange : Exchange) : Comparison where
  like := exchange.like
  begins := exchange.Begins
  machine := exchange.machine
  machine' := exchange.machine'
  start := exchange.start
  start' := exchange.start'
  keeps := exchange.Keeps
  lawful := like_lawful
  orderly₁ := World.start_orderly _ _
  orderly₂ := World.start_orderly _ _
  calm₁ reaches _ _ there := calm exchange.outruns reaches there
  calm₂ reaches _ _ there := calm exchange.outruns' reaches there
  permits _ _ keeps _ inside move move' stepped stepped' :=
    permits keeps inside move move' stepped stepped'
  keepsLeft reaches paired aside keeps := keeps.left reaches paired aside
  keepsRight reaches paired aside keeps := keeps.right reaches paired aside
  keepsBoth reaches reaches' paired inside _ move move' stepped stepped' alike keeps :=
    keeps.both reaches reaches' paired inside move move' stepped stepped' alike

/-- The procedure that is run is one of the library: it is the one with the operation, or the same
in both runs. -/
theorem begin_entries : exchange.callee = 0 ∧
    exchange.Ahead 0 exchange.program.sequence exchange.revised.sequence ∨
      exchange.Plain exchange.program.sequence exchange.revised.sequence := by
  obtain ⟨main, found, same⟩ := exchange.first
  rw [revised, Routine.revise]
  dsimp only
  by_cases zero : exchange.callee = 0
  · refine .inl ⟨zero, ?_⟩
    have there := exchange.there
    rw [zero, found] at there
    rw [if_pos zero, same, Option.some.inj there]
    refine ⟨exchange.site.before, Nat.zero_add _, fun name mem => ?_, exchange.stands, rfl⟩
    exact shared_of_site (List.mem_append_left _
      (List.mem_append_left _ (List.mem_append_left _ mem)))
  · refine .inr ?_
    rw [if_neg zero]
    refine ⟨rfl, fun name mem own => exchange.elsewhere name own 0 main found (Ne.symm zero) ?_⟩
    rw [← same]
    exact mem

theorem enter_alike : (enter exchange.program exchange.argument).work.Alike exchange.like [(0, 0)]
    (enter exchange.revised exchange.argument).work := by
  have none : World.Paired exchange.like [] exchange.start exchange.start' :=
    World.paired_of .nil (List.forall_mem_nil _)
  have entries : exchange.like.entries 0 exchange.program.sequence exchange.revised.sequence := by
    rcases begin_entries with ⟨_, ahead⟩ | plain
    · exact .inr ahead
    · exact .inl plain
  have alike : Change.Alike (World.ground exchange.like [] exchange.start exchange.start') []
      (enter exchange.program exchange.argument) (enter exchange.revised exchange.argument) :=
    Machine.enter_alike exchange.argument none rfl rfl entries
  exact alike.work.mono (List.nil_subset _)

/-- At its start a run is an invocation of its own procedure, and nothing else is one. -/
theorem start_keeps : exchange.Keeps [(0, 0)] exchange.start exchange.start' := by
  intro pair inside place frame frame' current current' index index' entries entries' there there'
  obtain rfl := List.mem_singleton.mp inside
  have begins {program : Routine} {frame : Frame} {current : Work} {index : Nat}
      {entries : List Entry}
      (there : (World.start program exchange.argument).part? 0 place =
        some (.body frame current index entries)) :
      place = [] ∧ entries = program.sequence := by
    change (enter program exchange.argument).work.part? place = _ at there
    cases place with
    | nil => exact ⟨rfl, entries_of_enter (Option.some.inj there)⟩
    | cons index place => cases Moves.enter_part there
  obtain ⟨rfl, rfl⟩ := begins there
  obtain ⟨_, rfl⟩ := begins there'
  rcases begin_entries with ⟨zero, _⟩ | plain
  · exact .inr ⟨⟨_, [], .run zero rfl rfl, .refl⟩, _, [], .run zero rfl rfl, .refl⟩
  · exact .inl plain

/-- Both runs begin abreast of each other. -/
theorem abreast : exchange.comparison.Abreast [(0, 0)] exchange.start exchange.start' := by
  have ordered : Pairing.Ordered [(0, 0)] := List.pairwise_singleton _ _
  have paired : World.Paired exchange.like [(0, 0)] exchange.start exchange.start' := by
    refine World.paired_of ordered fun pair inside => ?_
    rw [List.mem_singleton.mp inside]
    exact ⟨_, _, rfl, rfl, enter_alike⟩
  refine ⟨.refl, .refl, paired, ?_, ?_, .inl rfl, start_keeps⟩
  · intro pair inside
    rw [List.mem_singleton.mp inside]
  · have rises {program : Routine} {machine : Machine} :
        ((World.start program exchange.argument).agenda machine).Pairwise (· < ·) := by
      have orderly : (World.start program exchange.argument).Orderly machine :=
        World.start_orderly program exchange.argument
      have only : ∀ task ∈ (World.start program exchange.argument).agenda machine, task = 0 :=
        fun task listed => Nat.lt_one_iff.mp (World.ready_below (World.mem_agenda.mp listed))
      by_cases awake : 0 ∈ (World.start program exchange.argument).agenda machine
      · rw [World.eq_singleton_of_nodup orderly.nodup_agenda only awake]
        exact List.pairwise_singleton _ _
      · rw [List.eq_nil_iff_forall_not_mem.mpr fun task listed => awake (only task listed ▸ listed)]
        exact .nil
    refine .sorted ordered rises rises fun pair inside => ?_
    have same : exchange.comparison.machine.ready exchange.start pair.1 =
        exchange.comparison.machine'.ready exchange.start' pair.2 :=
      @Comparison.ready_paired exchange.comparison _ _ _ .refl .refl paired pair inside
        fun _ _ _ _ => .rfl
    rw [World.mem_agenda, World.mem_agenda, same]

end Exchange

end Runbook
