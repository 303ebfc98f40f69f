import Runbook.Proofs.Evaluation.Acyclic
import Runbook.Proofs.Evaluation.Exchange
import Runbook.Proofs.Evaluation.Mirrored

/-!
The operand that comes too late.

Where a compiled program waits for either of two steps and one of them always comes first, the other
one may be any step that comes too late: it may succeed or fail, bind names of its own, call
procedures and go on long after. Nothing that is left of the program asks for what it has bound.
-/
namespace Runbook

/-- The names that are bound where they are mentioned. -/
def Mention.names : Mention → List Name
  | .binding names => names
  | .reading _ => []

mutual

theorem Step.binders_eq : ∀ step : Step, step.binders = step.mentions.flatMap Mention.names
  | .literal literal => literal.binders_eq
  | .bind names step => by
      rw [Step.binders, Step.mentions, List.flatMap_append, step.binders_eq]
      exact congrArg (_ ++ ·) (List.append_nil _).symm
  | .call _ argument | .invoke _ argument => argument.binders_eq
  | .tuple steps => stepsBinders_eq steps
  | .read _ => rfl

theorem Literal.binders_eq : ∀ literal : Literal,
    literal.binders = literal.mentions.flatMap Mention.names
  | .unit | .text _ | .quantity _ => rfl
  | .tablet fields => fieldsBinders_eq_flatMap fields

theorem stepsBinders_eq : ∀ steps : List Step,
    stepsBinders steps = (stepsMentions steps).flatMap Mention.names
  | [] => rfl
  | step :: steps => by
      rw [stepsBinders, stepsMentions, List.flatMap_append, step.binders_eq, stepsBinders_eq steps]

theorem fieldsBinders_eq_flatMap : ∀ fields : List (Label × Step),
    fieldsBinders fields = (fieldsMentions fields).flatMap Mention.names
  | [] => rfl
  | (_, step) :: fields => by
      rw [fieldsBinders, fieldsMentions, List.flatMap_append, step.binders_eq,
        fieldsBinders_eq_flatMap fields]

end

/-- A name that is read is seen, or bound at some place. -/
theorem Seen.bound {seen : Name → Prop} {mentions : List Mention} {name : Name}
    (sees : Seen seen mentions) (reads : .reading name ∈ mentions) :
    seen name ∨ name ∈ mentions.flatMap Mention.names := by
  induction mentions generalizing seen with
  | nil => cases reads
  | cons mention mentions ih =>
      rw [List.flatMap_cons, List.mem_append]
      cases mention with
      | binding names =>
          have later : .reading name ∈ mentions := by
            rcases List.mem_cons.mp reads with same | later
            · cases same
            · exact later
          rcases ih sees later with (before | here) | after
          · exact .inl before
          · exact .inr (.inl here)
          · exact .inr (.inr after)
      | reading other =>
          rcases List.mem_cons.mp reads with same | later
          · cases same
            exact .inl sees.1
          · exact (ih sees.2 later).imp_right .inr

/-- What a routine reads, it binds. -/
theorem Routine.Supported.binds {allowed : Need → Prop} {routine : Routine} {name : Name}
    (supported : routine.Supported allowed)
    (reads : .reading name ∈ routine.sequence.mentions) : name ∈ routine.binders := by
  have sees : Seen (· ∈ routine.parameters) (routine.sequence.mentions ++ []) :=
    stepsSeen _ supported.bound (fun _ => id) fun _ _ => trivial
  rw [List.append_nil] at sees
  rw [Routine.binders, Sequence.binders, stepsBinders_eq]
  exact List.mem_append.mpr (sees.bound reads)

theorem stepsMentions_append (first rest : List Step) :
    stepsMentions (first ++ rest) = stepsMentions first ++ stepsMentions rest := by
  induction first with
  | nil => rfl
  | cons step first ih =>
      rw [List.cons_append, stepsMentions, ih, ← List.append_assoc, stepsMentions]

theorem fieldsMentions_append (first rest : List (Label × Step)) :
    fieldsMentions (first ++ rest) = fieldsMentions first ++ fieldsMentions rest := by
  rw [fieldsMentions_eq, List.map_append, stepsMentions_append, ← fieldsMentions_eq,
    ← fieldsMentions_eq]

theorem stepsNeeds_append (first rest : List Step) :
    stepsNeeds (first ++ rest) = stepsNeeds first ++ stepsNeeds rest := by
  induction first with
  | nil => rfl
  | cons step first ih =>
      rw [List.cons_append, stepsNeeds, ih, ← List.append_assoc, stepsNeeds]

section Places

variable {step : Step}

/-- What stands between other things comes to the front. -/
theorem perm_between {α : Type} {before within inner around after : List α}
    (perm : within.Perm (inner ++ around)) :
    (before ++ (within ++ after)).Perm (inner ++ (before ++ around ++ after)) := by
  refine ((perm.append_right after).append_left before).trans ?_
  rw [List.append_assoc inner, List.append_assoc before]
  exact List.perm_append_comm_assoc before inner (around ++ after)

theorem Step.Context.mentions_perm (context : Step.Context) :
    (context.fill step).mentions.Perm (step.mentions ++ context.mentions) := by
  induction context with
  | here =>
      rw [fill, mentions, List.append_nil]
  | bind names inner ih =>
      rw [fill, mentions, Step.mentions, ← List.append_assoc]
      exact ih.append_right _
  | call callee inner ih => exact ih
  | invoke primitive inner ih => exact ih
  | tuple before inner after ih =>
      rw [fill, mentions, Step.mentions, stepsMentions_append, stepsMentions]
      exact perm_between ih
  | tablet before label inner after ih =>
      rw [fill, mentions, Step.mentions, Literal.mentions, fieldsMentions_append, fieldsMentions]
      exact perm_between ih

theorem Site.mentions_perm (site : Site) :
    (site.sequence step).mentions.Perm (step.mentions ++ site.mentions) := by
  rw [sequence, Sequence.mentions, List.map_append, List.map_cons, stepsMentions_append,
    stepsMentions]
  exact perm_between (site.context.mentions_perm)

theorem Side.mentions_perm (side : Side) {winner loser : Step} :
    (side.either winner loser).mentions.Perm (loser.mentions ++ winner.mentions) := by
  cases side with
  | left =>
      change (winner.mentions ++ (loser.mentions ++ [])).Perm _
      rw [List.append_nil]
      exact List.perm_append_comm
  | right =>
      change (loser.mentions ++ (winner.mentions ++ [])).Perm _
      rw [List.append_nil]

/-- What an operation at a site mentions, and all that is around it. -/
theorem Site.mentions_either (site : Site) (side : Side) {winner loser : Step} :
    (site.sequence (side.either winner loser)).mentions.Perm
      (loser.mentions ++ (site.mentions ++ winner.mentions)) := by
  refine site.mentions_perm.trans ((side.mentions_perm.append_right _).trans ?_)
  rw [List.append_assoc]
  exact List.perm_append_comm.append_left _

/-- What a routine binds that has an operation at a site. -/
theorem Site.binders_either (site : Site) (side : Side) {winner loser : Step} :
    (Sequence.binders (site.sequence (side.either winner loser))).Perm
      (loser.binders ++ (site.mentions ++ winner.mentions).flatMap Mention.names) := by
  rw [Sequence.binders, stepsBinders_eq, Step.binders_eq, ← List.flatMap_append]
  exact (site.mentions_either side).flatMap_right _

theorem Step.Context.needs_fill (context : Step.Context) :
    step.needs ⊆ (context.fill step).needs := by
  induction context with
  | here => exact List.Subset.refl _
  | bind names inner ih => exact ih
  | call callee inner ih => exact List.Subset.trans ih (List.subset_cons_self _ _)
  | invoke primitive inner ih => exact List.Subset.trans ih (List.subset_cons_self _ _)
  | tuple before inner after ih =>
      rw [fill, Step.needs, stepsNeeds_append, stepsNeeds]
      exact List.subset_append_of_subset_right _ (List.subset_append_of_subset_left _ ih)
  | tablet before label inner after ih =>
      rw [fill, Step.needs, Literal.needs, fieldsNeeds_eq, List.map_append, stepsNeeds_append,
        List.map_cons, stepsNeeds]
      exact List.subset_append_of_subset_right _ (List.subset_append_of_subset_left _ ih)

theorem Side.needs_either (side : Side) {winner loser : Step} :
    loser.needs ⊆ (side.either winner loser).needs := by
  intro need inside
  refine List.mem_cons_of_mem _ ?_
  cases side with
  | left => exact List.mem_append_right _ (List.mem_append_left _ inside)
  | right => exact List.mem_append_left _ inside

theorem Site.needs_either (site : Site) (side : Side) {winner loser : Step} :
    loser.needs ⊆ stepsNeeds ((site.sequence (side.either winner loser)).map Entry.step) := by
  rw [sequence, List.map_append, List.map_cons, stepsNeeds_append, stepsNeeds]
  exact List.subset_append_of_subset_right _ (List.subset_append_of_subset_left _
    (List.Subset.trans side.needs_either site.context.needs_fill))

end Places

theorem Compiles.distinct {base : Registry} {program : Routine} (compiles : Compiles base program) :
    (Library.binders program.library).Nodup := by
  obtain ⟨context, document, _, made⟩ := compiles.lowered
  exact Lowering.document_distinct made

namespace Library

variable {library : Library} {callee asked : Callee} {host routine : Routine}

theorem binders_nodup (distinct : library.binders.Nodup) (found : library.get? callee = some host) :
    host.binders.Nodup :=
  (List.nodup_flatMap.mp distinct).1 _ (mem_of_get? found)

/-- Different procedures bind different names. -/
theorem binders_disjoint (distinct : library.binders.Nodup)
    (found : library.get? callee = some host) (other : library.get? asked = some routine)
    (differs : asked ≠ callee) : host.binders.Disjoint routine.binders := by
  have swaps : Std.Symm (Function.onFun List.Disjoint fun entry : Callee × Routine =>
      entry.2.binders) := ⟨fun _ _ => List.Disjoint.symm⟩
  refine (List.nodup_flatMap.mp distinct).2.forall (mem_of_get? found) (mem_of_get? other) ?_
  exact fun same => differs (congrArg Prod.fst same).symm

end Library

/-- In a procedure of the program an operation waits for either of two steps, the loser of which is
exchanged. Both operands that stand there read no name that is bound outside of them. The names that
the other one binds are read nowhere else in the program, and all that the procedure needs after the
exchange is there. -/
structure Routine.Exchanges (program : Routine) (registry : Registry) (callee : Callee)
    (host : Routine) (site : Site) (side : Side) (winner loser other : Step) : Prop where
  there : Library.get? program.library callee = some host
  stands : host.sequence = site.sequence (side.either winner loser)
  own : loser.Bound []
  own' : other.Bound []
  here : ∀ name ∈ other.binders, .reading name ∉ site.mentions ++ winner.mentions
  elsewhere : ∀ name ∈ other.binders, ∀ asked routine,
    Library.get? program.library asked = some routine → asked ≠ callee →
      .reading name ∉ routine.sequence.mentions
  fits : ({ host with sequence := site.sequence (side.either winner other) } : Routine).Supported
    (registry.Meets program.library)

namespace Routine.Exchanges

variable {program host : Routine} {base registry : Registry} {callee : Callee} {site : Site}
  {side : Side} {winner loser other : Step}

/-- No name of a compiled loser is read around it: all that is left binds what it reads. -/
theorem unread (exchanges : program.Exchanges registry callee host site side winner loser other)
    (distinct : (Library.binders program.library).Nodup) :
    ∀ name ∈ loser.binders, .reading name ∉ site.mentions ++ winner.mentions := by
  intro name own reads
  have nodup := Library.binders_nodup distinct exchanges.there
  rw [Routine.binders, exchanges.stands,
    ((site.binders_either side).append_left host.parameters).nodup_iff] at nodup
  obtain ⟨_, body, apart⟩ := List.nodup_append'.mp nodup
  obtain ⟨_, _, around⟩ := List.nodup_append'.mp body
  have bound := exchanges.fits.binds
    ((site.mentions_either side).mem_iff.mpr (List.mem_append_right _ reads))
  rcases List.mem_append.mp bound with parameter | inner
  · exact apart parameter (List.mem_append_left _ own)
  · rcases List.mem_append.mp ((site.binders_either side).mem_iff.mp inner) with other | rest
    · exact exchanges.here name other reads
    · exact around own rest

theorem unread_elsewhere
    (exchanges : program.Exchanges registry callee host site side winner loser other)
    (distinct : (Library.binders program.library).Nodup)
    (meets : ∀ callee routine, Library.get? program.library callee = some routine →
      routine.Supported (registry.Meets program.library)) :
    ∀ name ∈ loser.binders, ∀ asked routine, Library.get? program.library asked = some routine →
      asked ≠ callee → .reading name ∉ routine.sequence.mentions := by
  intro name own asked routine found differs reads
  refine Library.binders_disjoint distinct exchanges.there found differs ?_
    ((meets asked routine found).binds reads)
  rw [Routine.binders, exchanges.stands]
  exact List.mem_append_right _
    ((site.binders_either side).mem_iff.mpr (List.mem_append_left _ own))

/-- The operands that are exchanged can be set up anywhere. -/
theorem succeeds (exchanges : program.Exchanges registry callee host site side winner loser other)
    (meets : ∀ callee routine, Library.get? program.library callee = some routine →
      routine.Supported (registry.Meets program.library)) :
    ∀ step ∈ [loser, other], ∀ (setting : Setting) (before : SetUp.State), ∃ work after,
      (setUp registry setting step).Gives before work after := by
  have hosts : registry.Hosts (registry.Meets program.library) := fun _ => id
  have sets {step : Step} (bound : step.Bound []) {routine : Routine}
      (stands : routine.sequence = site.sequence (side.either winner step))
      (supported : routine.Supported (registry.Meets program.library)) (setting : Setting)
      (before : SetUp.State) :
      ∃ work after, (setUp registry setting step).Gives before work after := by
    have alone : Runbook.Supported (registry.Meets program.library) [] [step] := by
      refine ⟨⟨bound, trivial⟩, fun need inside => supported.needs need ?_⟩
      rw [stepsNeeds, stepsNeeds, List.append_nil] at inside
      rw [stands]
      exact site.needs_either side inside
    obtain ⟨work, _, _, _, gives, _⟩ :=
      setUp_realized hosts setting step alone (List.nil_subset before.frame.names)
    exact ⟨work, _, gives⟩
  intro step inside
  rcases List.mem_pair.mp inside with rfl | rfl
  · exact sets exchanges.own exchanges.stands (meets callee host exchanges.there)
  · exact sets exchanges.own' rfl exchanges.fits

/-- The two programs, whose runs are compared. -/
def exchange (exchanges : program.Exchanges registry callee host site side winner loser other)
    (compiles : Compiles base program) (built : base.Built) (grown : base.Grown registry)
    (operator :
      registry.lookup Operator.waitEither.primitive = some Operator.waitEither.asPrimitive)
    (argument : Value) (late : program.Outruns registry argument callee site side winner loser)
    (late' : (program.revise callee (site.sequence (side.either winner other))).Outruns registry
      argument callee site side winner other) : Exchange where
  registry := registry
  program := program
  argument := argument
  callee := callee
  host := host
  site := site
  side := side
  winner := winner
  loser := loser
  other := other
  operator := operator
  first := by
    obtain ⟨main, found, _, same⟩ := compiles.main
    exact ⟨main, found, same⟩
  there := exchanges.there
  stands := exchanges.stands
  succeeds := exchanges.succeeds (compiles.meets built grown)
  bound := List.forall_mem_cons.mpr ⟨exchanges.own, List.forall_mem_singleton.mpr exchanges.own'⟩
  here := List.forall_mem_append.mpr ⟨exchanges.unread compiles.distinct, exchanges.here⟩
  elsewhere := List.forall_mem_append.mpr
    ⟨exchanges.unread_elsewhere compiles.distinct (compiles.meets built grown), exchanges.elsewhere⟩
  outruns := late
  outruns' := late'

/-- What the program needs after the exchange is at hand. -/
theorem footing (exchanges : program.Exchanges registry callee host site side winner loser other)
    (compiles : Compiles base program) (built : base.Built) (grown : base.Grown registry) :
    let revised := program.revise callee (site.sequence (side.either winner other))
    ∃ footing : Footing ⟨registry, revised.library⟩, revised.Supported footing.allowed := by
  have meets := compiles.meets built grown
  obtain ⟨main, found, parameters, sequence⟩ := compiles.main
  refine ⟨⟨registry.Meets program.library, True, fun _ => id, fun _ _ _ _ _ => trivial, ?_⟩, ?_⟩
  · rintro asked ⟨routine, there⟩
    change ∃ other, (Library.revise program.library _ _).get? asked = some other ∧ _
    rw [Library.get?_revise, there, Option.map_some]
    refine ⟨_, rfl, ?_⟩
    by_cases differs : asked = callee
    · rw [if_pos differs]
      rw [differs, exchanges.there] at there
      cases there
      exact exchanges.fits
    · rw [if_neg differs]
      exact meets asked routine there
  · change Runbook.Supported _ program.parameters
      (List.map Entry.step (if callee = 0 then _ else program.sequence))
    rw [parameters, sequence]
    by_cases zero : callee = 0
    · have there := exchanges.there
      rw [zero, found] at there
      cases there
      rw [if_pos zero]
      exact exchanges.fits
    · rw [if_neg zero]
      exact meets 0 main found

end Routine.Exchanges

/-- A routine that finds what it needs comes to a report if no routine comes to call itself. -/
theorem Routine.Supported.reports {routine : Routine} {registry : Registry}
    {footing : Footing ⟨registry, routine.library⟩} (supported : routine.Supported footing.allowed)
    (acyclic : Library.Acyclic routine.library) (argument : Value) (drain : Nat) :
    ∃ fuel report, routine.perform? registry argument drain fuel = some (.ok report) := by
  obtain ⟨fuel, outcome, last, found⟩ := @World.completes _ _ (Depths.unlimited _) _ () _ argument
    rfl acyclic.prices supported
  exact ⟨fuel, _, Routine.perform?_eq_ok.mpr ⟨outcome, last, found, rfl⟩⟩

/-- The runs of both programs report the same. -/
theorem Exchange.matches (exchange : Exchange) :
    exchange.program.Matches exchange.revised exchange.registry exchange.argument := by
  have run : (0, 0) ∈ [(0, 0)] := List.mem_singleton_self _
  have onward := exchange.abreast.mirrored run
  have back := exchange.abreast.mirrored' run
  refine ⟨fun {drain fuel drain' fuel' report report'} reports reports' => ?_,
    Routine.reports_of_mirrored onward back, Routine.reports_of_mirrored back onward⟩
  have time := Nat.le_antisymm (Routine.elapsed_le_of_mirrored onward reports reports')
    (Routine.elapsed_le_of_mirrored back reports' reports)
  obtain ⟨outcome, first, found, rfl⟩ := Routine.perform?_eq_ok.mp reports
  obtain ⟨outcome', first', found', rfl⟩ := Routine.perform?_eq_ok.mp reports'
  obtain ⟨reaches, ends⟩ := World.toOutcome?_reaches found
  obtain ⟨reaches', ends'⟩ := World.toOutcome?_reaches found'
  have same := exchange.abreast.same_result run reaches reaches' (World.result?_eq_some.mpr ends)
    (World.result?_eq_some.mpr ends')
  exact ⟨(Option.some.inj same).symm, time⟩

namespace Routine

/-- It does not matter what loses. In a compiled program, a step that reads no name from outside of
it is an operand of an operation, and never ends before the other operand has ended at an earlier
moment. Then another such step in its place, whether it succeeds or fails, leaves the outcome of the
program and its time as they are. A run that goes on forever without its clock has neither; none
does so if no procedure comes to call itself. -/
theorem loser_irrelevant {base registry : Registry} {program host : Routine} {callee : Callee}
    {site : Site} {side : Side} {winner loser other : Step} (built : base.Built)
    (compiles : Compiles base program) (grown : base.Grown registry)
    (operator :
      registry.lookup Operator.waitEither.primitive = some Operator.waitEither.asPrimitive)
    (exchanges : program.Exchanges registry callee host site side winner loser other)
    (argument : Value) (late : program.Outruns registry argument callee site side winner loser)
    (late' : (program.revise callee (site.sequence (side.either winner other))).Outruns registry
      argument callee site side winner other) :
    let revised := program.revise callee (site.sequence (side.either winner other))
    program.Matches revised registry argument ∧
      (Library.Acyclic program.library → Library.Acyclic revised.library → ∀ drain,
        ∃ fuel fuel' report report',
          program.perform? registry argument drain fuel = some (.ok report) ∧
          revised.perform? registry argument drain fuel' = some (.ok report') ∧
          report'.outcome = report.outcome ∧ report'.elapsed = report.elapsed) := by
  intro revised
  have same : program.Matches revised registry argument :=
    (exchanges.exchange compiles built grown operator argument late late').matches
  refine ⟨same, fun acyclic acyclic' drain => ?_⟩
  obtain ⟨footing, supported⟩ := compiles.footing built grown
  obtain ⟨footing', supported'⟩ := exchanges.footing compiles built grown
  obtain ⟨fuel, report, reports⟩ := supported.reports acyclic argument drain
  obtain ⟨fuel', report', reports'⟩ := supported'.reports acyclic' argument drain
  exact ⟨fuel, fuel', report, report', reports, reports', same.same reports reports'⟩

end Routine

/-- A procedure that has tea or a nap, whichever comes first, and goes on for some time. -/
def Procedure.resting : Procedure :=
  ⟨0, "main", [], none, [
    .assignment 0 ["x"] (.operation 0 .waitEither (.text 0 "tea")
      (.application 0 "sleep" (.amount 0 (.number 5)))),
    .execute 0 (.application 0 "sleep" (.amount 0 (.number 9)))]⟩

/-- What it compiles to. -/
def Routine.resting : Routine :=
  let sequence : Sequence := [
    ⟨.inherit, .bind [⟨0, "x"⟩] (.invoke "wait_either" (.tuple [.tea, .nap]))⟩,
    ⟨.inherit, .invoke "sleep" (.literal (.quantity (.number 9)))⟩]
  ⟨.resting, [], sequence, [(0, ⟨.resting, [], sequence, []⟩)]⟩

/-- Where its operation stands. -/
def Site.resting : Site :=
  ⟨[], .inherit, .bind [⟨0, "x"⟩] .here,
    [⟨.inherit, .invoke "sleep" (.literal (.quantity (.number 9)))⟩]⟩

/-- A nap that fails in the end, with a name of its own. -/
def Step.burning : Step := .bind [⟨1, "y"⟩] (.invoke "fail" .nap)

namespace Routine

/-- Instead of a nap, a step that fails while the program goes on. -/
theorem loser_irrelevant_resting :
    let revised := resting.revise 0 (Site.resting.sequence (Side.left.either .tea .burning))
    Document.compile ⟨[.resting]⟩ ⟨"", ""⟩ Registry.standard.names = .ok resting ∧
      ∃ fuel fuel' report report',
        resting.perform? .standard .unit 0 fuel = some (.ok report) ∧
        revised.perform? .standard .unit 0 fuel' = some (.ok report') ∧
        report'.outcome = report.outcome ∧ report'.elapsed = report.elapsed := by
  intro revised
  have exchanges : resting.Exchanges .standard 0 ⟨.resting, [], resting.sequence, []⟩ .resting .left
      .tea .nap .burning := by
    refine ⟨rfl, rfl, trivial, trivial, fun name own reads => ?_, ?_, ?_⟩
    · cases List.mem_singleton.mp reads
    · intro name own asked routine found differs
      change (if asked = 0 then _ else none) = _ at found
      rw [if_neg differs] at found
      cases found
    · refine ⟨⟨⟨trivial, trivial, trivial⟩, trivial, trivial⟩, ?_⟩
      have needs : ∀ need ∈ [Need.primitive "wait_either", .primitive "fail", .primitive "sleep",
          .primitive "sleep"], Registry.standard.Meets resting.library need := by
        simp only [List.forall_mem_cons]
        exact ⟨⟨_, rfl⟩, ⟨_, rfl⟩, ⟨_, rfl⟩, ⟨_, rfl⟩, List.forall_mem_nil _⟩
      exact needs
  have late : resting.outruns? .standard .unit .resting .left .tea .nap 60 = some true := by
    decide +kernel
  have late' : revised.outruns? .standard .unit .resting .left .tea .burning 60 = some true := by
    decide +kernel
  have result := loser_irrelevant (.inr .refl) (@Compiles.document _ _ ⟨[.resting]⟩ ⟨"", ""⟩ rfl)
    .refl (Registry.standard_own .waitEither) exchanges .unit (.of_check late) (.of_check late')
  refine ⟨rfl, result.2 ?_ ?_ 0⟩
  · exact .of_rank (fun routine => routine.needs.length) (by decide)
  · exact .of_rank (fun routine => routine.needs.length) (by decide)

end Routine

end Runbook
