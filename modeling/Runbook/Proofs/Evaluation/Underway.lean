import Runbook.Proofs.Evaluation.Compiled
import Runbook.Proofs.Evaluation.Sites

/-!
How setting a step up comes to the steps in it.

All that is nested in a step is set up in a fixed order, and `Arrives` tells in which state it is the
turn of the step at a place. Each step of what can be set up has its turn. What cannot be set up
has come to a step that performs a primitive which is not registered, or that reads a name which
nothing has bound so far.
-/
namespace Runbook

/-- What is mentioned before it is the turn of the step at the place. -/
def Step.Context.earlier : Step.Context → List Mention
  | .here => []
  | .bind _ inner | .call _ inner | .invoke _ inner => inner.earlier
  | .tuple before inner _ => stepsMentions before ++ inner.earlier
  | .tablet before _ inner _ => fieldsMentions before ++ inner.earlier

namespace Step.Context

/-- Two steps, one of which is at the place. -/
theorem pair_cases {step : Step} {before after : List Step} {inner : Context} {left right : Step}
    (same : before ++ inner.fill step :: after = [left, right]) :
    before = [] ∧ inner.fill step = left ∧ after = [right] ∨
      before = [left] ∧ inner.fill step = right ∧ after = [] := by
  cases before with
  | nil =>
      obtain ⟨first, rest⟩ := List.cons.inj same
      exact .inl ⟨rfl, first, rest⟩
  | cons other before =>
      obtain ⟨rfl, rest⟩ := List.cons.inj same
      cases before with
      | nil =>
          obtain ⟨second, rest⟩ := List.cons.inj rest
          exact .inr ⟨rfl, second, rest⟩
      | cons other before =>
          obtain ⟨_, rest⟩ := List.cons.inj rest
          cases before <;> cases rest

end Step.Context

/-- The step cannot be set up with the frame, and breaks down for the defect. -/
inductive Step.Stuck (registry : Registry) (frame : Frame) : Step → Defect → Prop
  | primitive {name argument} : registry.lookup name = none →
      Stuck registry frame (.invoke name argument) (.unknownPrimitive name)
  | name {name} : frame.find? name = none → Stuck registry frame (.read name) (.unboundName name)

namespace SetUp

/-- As the step that has another one at the place is set up from the one state on, it is the turn of
that one in the other state. -/
inductive Arrives (registry : Registry) (setting : Setting) (step : Step) :
    Step.Context → State → State → Prop
  | here {state} : Arrives registry setting step .here state state
  | bind {names inner before began} :
      Arrives registry setting step inner
        { before with events := before.events ++ [.binding names setting] } began →
      Arrives registry setting step (.bind names inner) before began
  | call {callee inner before began} : Arrives registry setting step inner before began →
      Arrives registry setting step (.call callee inner) before began
  | invoke {name primitive inner before began} : registry.lookup name = some primitive →
      (∀ operator left right, primitive.operator = some operator →
        inner.fill step ≠ .tuple [left, right]) →
      Arrives registry setting step inner before began →
      Arrives registry setting step (.invoke name inner) before began
  | left {name primitive operator inner right before began} :
      registry.lookup name = some primitive → primitive.operator = some operator →
      Arrives registry setting step inner before began →
      Arrives registry setting step (.invoke name (.tuple [] inner [right])) before began
  | right {name primitive operator inner left work task before middle fresh began} :
      registry.lookup name = some primitive → primitive.operator = some operator →
      (setUp registry setting left).Gives before work middle →
      (start work).Gives middle task fresh →
      Arrives registry setting step inner fresh began →
      Arrives registry setting step (.invoke name (.tuple [left] inner [])) before began
  | tuple {first inner rest works before middle began} :
      (setUpAll registry setting first).Gives before works middle →
      Arrives registry setting step inner middle began →
      Arrives registry setting step (.tuple first inner rest) before began
  | tablet {first label inner rest works before middle began} :
      (setUpFields registry setting first).Gives before works middle →
      Arrives registry setting step inner middle began →
      Arrives registry setting step (.tablet first label inner rest) before began

/-- It is the turn of a step in the whole one, which cannot be set up. -/
def Fails (registry : Registry) (setting : Setting) (whole : Step) (before : State)
    (defect : Defect) (after : State) : Prop :=
  ∃ context step, context.fill step = whole ∧ Arrives registry setting step context before after ∧
    step.Stuck registry after.frame defect

end SetUp

section
variable {defect : Defect} {works more : List Work}

theorem Work.mem_defectsOfAll :
    defect ∈ defectsOfAll works ↔ ∃ work ∈ works, defect ∈ work.defects := by
  induction works with
  | nil => exact ⟨nofun, nofun⟩
  | cons work works ih =>
      rw [defectsOfAll, List.mem_append, ih]
      simp only [List.mem_cons, exists_eq_or_imp]

theorem Work.defectsOfAll_append :
    defectsOfAll (works ++ more) = defectsOfAll works ++ defectsOfAll more := by
  induction works with
  | nil => rfl
  | cons work works ih => rw [List.cons_append, defectsOfAll, defectsOfAll, ih, List.append_assoc]

/-- What is set up meets no defect. -/
theorem SetsUp.whole {registry : Registry} {frame after : Frame} {next : TaskId}
    {steps : List Step} {started : List Work}
    (sets : SetsUp registry frame next steps works started after) :
    Work.defectsOfAll works = [] ∧ Work.defectsOfAll started = [] := by
  induction sets with
  | nil => exact ⟨rfl, rfl⟩
  | cons _ _ first rest =>
      refine ⟨?_, ?_⟩
      · rw [← List.singleton_append, Work.defectsOfAll_append, first.1, rest.1, List.append_nil]
      · rw [Work.defectsOfAll_append, first.2, rest.2, List.append_nil]
  | constant _ => exact ⟨rfl, rfl⟩
  | tablet _ ih => exact ⟨(List.append_nil _).trans ih.1, ih.2⟩
  | bind _ ih =>
      refine ⟨rfl, ?_⟩
      rw [Work.defectsOfAll_append, ih.2]
      exact ih.1
  | call _ ih => exact ih
  | invoke _ _ ih => exact ih
  | @operands _ _ _ _ _ _ operator _ _ _ _ _ _ _ _ _ _ first second =>
      refine ⟨by cases operator <;> rfl, ?_⟩
      rw [← List.singleton_append, ← List.append_assoc]
      simp only [Work.defectsOfAll_append, first.2, second.2, List.nil_append]
      exact List.append_eq_nil_iff.mpr ⟨first.1, second.1⟩
  | tuple _ ih => exact ⟨(List.append_nil _).trans ih.1, ih.2⟩
  | parameter _ => exact ⟨rfl, rfl⟩
  | read _ => exact ⟨rfl, rfl⟩

end

namespace SetUp

variable {registry : Registry} {setting : Setting} {before middle after began : State}
  {defect : Defect} {mentions more : List Mention}

section
variable {α β : Type} {part : SetUp α} {next : α → SetUp β}

theorem breaks_bind_iff : Breaks (part >>= next) before defect after ↔
    Breaks part before defect after ∨
      ∃ a middle, Gives part before a middle ∧ Breaks (next a) middle defect after := by
  constructor
  · intro breaks
    rw [Breaks, run_bind] at breaks
    cases run : part.run.run before with
    | mk result middle =>
        rw [run] at breaks
        cases result with
        | error other =>
            cases breaks
            exact .inl run
        | ok a => exact .inr ⟨a, middle, run, breaks⟩
  · rintro (breaks | ⟨a, middle, gives, breaks⟩)
    · exact breaks.bind next
    · exact gives.breaks breaks

/-- What does not break down is through before what follows it does. -/
theorem breaks_after (whole : ∀ {defect after}, ¬Breaks part before defect after)
    (breaks : Breaks (part >>= next) before defect after) :
    ∃ a middle, Gives part before a middle ∧ Breaks (next a) middle defect after :=
  (breaks_bind_iff.mp breaks).resolve_left whole

/-- Before what does not break down, the first part does. -/
theorem breaks_before (whole : ∀ {a middle defect after}, ¬Breaks (next a) middle defect after)
    (breaks : Breaks (part >>= next) before defect after) : Breaks part before defect after :=
  (breaks_bind_iff.mp breaks).resolve_right fun ⟨_, _, _, later⟩ => whole later

theorem not_breaks_pure {a : α} : ¬Breaks (pure a) before defect after := nofun

theorem not_breaks_get : ¬Breaks get before defect after := nofun

theorem not_breaks_report {event : Event} : ¬Breaks (report event) before defect after := nofun

theorem not_breaks_start {work : Work} : ¬Breaks (start work) before defect after := nofun

theorem not_breaks_bind {names : List Name} {observed : Bool} {work : Work} :
    ¬Breaks (SetUp.bind names observed work) before defect after := nofun

end

/-- From the one state to the other, what is mentioned is done, and the tasks that are started meet
no defect. -/
structure Does (mentions : List Mention) (before after : State) : Prop where
  frame : ∃ deeds, deeds.map Deed.mention = mentions ∧ after.frame = before.frame.performAll deeds
  started : ∃ works, after.started = before.started ++ works ∧ Work.defectsOfAll works = []

theorem Does.refl (state : State) : Does [] state state where
  frame := ⟨[], rfl, rfl⟩
  started := ⟨[], (List.append_nil _).symm, rfl⟩

theorem Does.trans (first : Does mentions before middle) (rest : Does more middle after) :
    Does (mentions ++ more) before after where
  frame := by
    obtain ⟨deeds, same, frame⟩ := first.frame
    obtain ⟨others, same', frame'⟩ := rest.frame
    exact ⟨deeds ++ others, by rw [List.map_append, same, same'],
      by rw [frame', frame, Frame.performAll_append]⟩
  started := by
    obtain ⟨works, same, whole⟩ := first.started
    obtain ⟨others, same', whole'⟩ := rest.started
    exact ⟨works ++ others, by rw [same', same, List.append_assoc],
      by rw [Work.defectsOfAll_append, whole, whole', List.append_nil]⟩

theorem Makes.does {steps : List Step} {works : List Work}
    (makes : Makes registry before steps works after) :
    Does (stepsMentions steps) before after ∧ Work.defectsOfAll works = [] := by
  obtain ⟨started, sets, _, same, _⟩ := makes
  obtain ⟨deeds, mentions, _, frame⟩ := sets.deeds
  exact ⟨⟨⟨deeds, mentions, frame⟩, ⟨started, same, sets.whole.2⟩⟩, sets.whole.1⟩

theorem does_setUp {step : Step} {work : Work}
    (gives : (setUp registry setting step).Gives before work after) :
    Does step.mentions before after ∧ work.defects = [] := by
  obtain ⟨does, whole⟩ := (setUp_makes setting step gives).does
  rw [stepsMentions, stepsMentions, List.append_nil] at does
  rw [Work.defectsOfAll, Work.defectsOfAll, List.append_nil] at whole
  exact ⟨does, whole⟩

theorem does_start {work : Work} {task : TaskId} (gives : (start work).Gives before task after)
    (whole : work.defects = []) : Does [] before after := by
  cases gives
  exact ⟨⟨[], rfl, rfl⟩, ⟨[.fresh work], rfl, (List.append_nil _).trans whole⟩⟩

/-- Until it is the turn of the step, what is mentioned before it is done. -/
theorem Arrives.does {step : Step} {context : Step.Context}
    (arrives : Arrives registry setting step context before began) :
    Does context.earlier before began := by
  induction arrives with
  | here => exact .refl _
  | bind _ ih => exact ⟨ih.frame, ih.started⟩
  | call _ ih => exact ih
  | invoke _ _ _ ih => exact ih
  | left _ _ _ ih => exact ih
  | @right name _ _ inner left _ _ _ _ _ _ _ _ gives starts _ ih =>
      obtain ⟨does, whole⟩ := does_setUp gives
      have all := does.trans ((does_start starts whole).trans ih)
      rw [Step.Context.earlier, Step.Context.earlier, stepsMentions, stepsMentions, List.append_nil]
      exact all
  | tuple gives _ ih => exact (setUpAll_makes setting _ gives).does.1.trans ih
  | @tablet first _ _ _ _ _ _ _ gives _ ih =>
      rw [Step.Context.earlier, fieldsMentions_eq]
      exact (setUpFields_makes setting first gives).does.1.trans ih

/-- Steps among which one stands are set up before it, then it, then those after it. -/
theorem gives_among {first rest : List Step} {step : Step} {works : List Work}
    (gives : (setUpAll registry setting (first ++ step :: rest)).Gives before works after) :
    ∃ firsts began work ended lasts, (setUpAll registry setting first).Gives before firsts began ∧
      (setUp registry setting step).Gives began work ended ∧
      (setUpAll registry setting rest).Gives ended lasts after ∧
      works = firsts ++ work :: lasts ∧ firsts.length = first.length := by
  induction first generalizing before works with
  | nil =>
      rw [List.nil_append, setUpAll] at gives
      obtain ⟨work, ended, here, gives⟩ := gives_bind_iff.mp gives
      obtain ⟨lasts, _, rest, gives⟩ := gives_bind_iff.mp gives
      cases gives
      exact ⟨[], before, work, ended, lasts, rfl, here, rest, rfl, rfl⟩
  | cons other first ih =>
      rw [List.cons_append, setUpAll] at gives
      obtain ⟨one, middle, here, gives⟩ := gives_bind_iff.mp gives
      obtain ⟨others, _, rest, gives⟩ := gives_bind_iff.mp gives
      cases gives
      obtain ⟨firsts, began, work, ended, lasts, before', within, behind, rfl, length⟩ := ih rest
      refine ⟨one :: firsts, began, work, ended, lasts, ?_, within, behind, rfl,
        congrArg (· + 1) length⟩
      rw [setUpAll]
      exact here.bind (before'.bind (gives_pure _))

/-- When a step is set up, it has been the turn of the step at the place. -/
theorem setUp_arrives (setting : Setting) {step : Step} (single : ∀ steps, step ≠ .tuple steps) :
    ∀ (context : Step.Context) {before after : State} {work : Work},
      (setUp registry setting (context.fill step)).Gives before work after →
        ∃ began inner ended, Arrives registry setting step context before began ∧
          (setUp registry setting step).Gives began inner ended
  | .here, before, after, work, gives => ⟨before, work, after, .here, gives⟩
  | .bind names inner, _, _, _, gives => by
      rw [Step.Context.fill, setUp] at gives
      obtain ⟨_, _, reports, gives⟩ := gives_bind_iff.mp gives
      obtain ⟨_, _, within, _⟩ := gives_bind_iff.mp gives
      cases reports
      obtain ⟨began, work, ended, arrives, sets⟩ := setUp_arrives setting single inner within
      exact ⟨began, work, ended, .bind arrives, sets⟩
  | .call callee inner, _, _, _, gives => by
      rw [Step.Context.fill, setUp] at gives
      obtain ⟨_, _, within, _⟩ := gives_bind_iff.mp gives
      obtain ⟨began, work, ended, arrives, sets⟩ := setUp_arrives setting single inner within
      exact ⟨began, work, ended, .call arrives, sets⟩
  | .invoke name inner, _, _, _, gives => by
      rw [Step.Context.fill] at gives
      cases found : registry.lookup name with
      | none =>
          rw [setUp, found] at gives
          cases gives
      | some primitive =>
          by_cases pair : ∃ operator left right, primitive.operator = some operator ∧
              inner.fill step = .tuple [left, right]
          · obtain ⟨operator, left, right, operates, same⟩ := pair
            rw [same, setUp_operands found operates] at gives
            obtain ⟨_, _, first, gives⟩ := gives_bind_iff.mp gives
            obtain ⟨_, _, starts, gives⟩ := gives_bind_iff.mp gives
            obtain ⟨_, _, second, _⟩ := gives_bind_iff.mp gives
            cases inner with
            | here => exact absurd same (single _)
            | tuple before inner after =>
                rcases Step.Context.pair_cases (Step.tuple.inj same) with
                  ⟨rfl, rfl, rfl⟩ | ⟨rfl, rfl, rfl⟩
                · obtain ⟨began, work, ended, arrives, sets⟩ :=
                    setUp_arrives setting single inner first
                  exact ⟨began, work, ended, .left found operates arrives, sets⟩
                · obtain ⟨began, work, ended, arrives, sets⟩ :=
                    setUp_arrives setting single inner second
                  exact ⟨began, work, ended, .right found operates first starts arrives, sets⟩
            | _ => cases same
          · have whole : ∀ operator left right, primitive.operator = some operator →
                inner.fill step ≠ .tuple [left, right] :=
              fun operator left right operates same => pair ⟨operator, left, right, operates, same⟩
            rw [setUp_invoke found whole] at gives
            obtain ⟨_, _, within, _⟩ := gives_bind_iff.mp gives
            obtain ⟨began, work, ended, arrives, sets⟩ := setUp_arrives setting single inner within
            exact ⟨began, work, ended, .invoke found whole arrives, sets⟩
  | .tuple first inner rest, _, _, _, gives => by
      rw [Step.Context.fill, setUp] at gives
      obtain ⟨_, _, within, _⟩ := gives_bind_iff.mp gives
      obtain ⟨_, _, _, _, _, begins, within, _⟩ := gives_among within
      obtain ⟨began, work, ended, arrives, sets⟩ := setUp_arrives setting single inner within
      exact ⟨began, work, ended, .tuple begins arrives, sets⟩
  | .tablet first label inner rest, _, _, _, gives => by
      rw [Step.Context.fill, setUp, setUpLiteral] at gives
      obtain ⟨_, _, within, _⟩ := gives_bind_iff.mp gives
      rw [setUpFields_eq, List.map_append, List.map_cons] at within
      obtain ⟨_, _, _, _, _, begins, within, _⟩ := gives_among within
      rw [← setUpFields_eq] at begins
      obtain ⟨began, work, ended, arrives, sets⟩ := setUp_arrives setting single inner within
      exact ⟨began, work, ended, .tablet begins arrives, sets⟩

/-- Reading breaks down only for a name that is not bound, and leaves the state as it is. -/
theorem read_breaks {name : Name} (breaks : (read name).Breaks before defect after) :
    Fails registry setting (.read name) before defect after := by
  obtain ⟨_, _, fetched, breaks⟩ := breaks_after not_breaks_get breaks
  cases fetched
  split at breaks
  · cases breaks
    exact ⟨.here, _, rfl, .here, .name ‹_›⟩
  · cases breaks
  · cases breaks

mutual

/-- A step that cannot be set up has come to one in it that cannot. -/
theorem setUp_breaks (setting : Setting) : ∀ (step : Step) {before after : State}
    {defect : Defect}, (setUp registry setting step).Breaks before defect after →
      Fails registry setting step before defect after
  | .literal literal, _, _, _, breaks => setUpLiteral_breaks setting literal breaks
  | .bind names step, _, _, _, breaks => by
      rw [setUp] at breaks
      obtain ⟨_, _, reports, breaks⟩ := breaks_after not_breaks_report breaks
      cases reports
      rcases breaks_bind_iff.mp breaks with breaks | ⟨_, _, _, breaks⟩
      · obtain ⟨context, stuck, same, arrives, fails⟩ := setUp_breaks setting step breaks
        exact ⟨.bind names context, stuck, congrArg _ same, .bind arrives, fails⟩
      · obtain ⟨_, _, _, breaks⟩ := breaks_after not_breaks_bind breaks
        cases breaks
  | .call callee argument, _, _, _, breaks => by
      rw [setUp] at breaks
      have inner := breaks_before not_breaks_pure breaks
      obtain ⟨context, stuck, same, arrives, fails⟩ := setUp_breaks setting argument inner
      exact ⟨.call callee context, stuck, congrArg _ same, .call arrives, fails⟩
  | .invoke name argument, _, _, _, breaks => by
      rw [setUp] at breaks
      split at breaks
      · cases breaks
        exact ⟨.here, _, rfl, .here, .primitive ‹_›⟩
      · rename_i primitive found
        split at breaks
        · rename_i operator left right operates
          rcases breaks_bind_iff.mp breaks with breaks | ⟨work, _, gives, breaks⟩
          · obtain ⟨context, stuck, same, arrives, fails⟩ := setUp_breaks setting left breaks
            refine ⟨.invoke name (.tuple [] context [right]), stuck, ?_,
              .left found operates arrives, fails⟩
            rw [Step.Context.fill, Step.Context.fill, same, List.nil_append]
          · obtain ⟨task, _, starts, breaks⟩ := breaks_after not_breaks_start breaks
            rcases breaks_bind_iff.mp breaks with breaks | ⟨_, _, _, breaks⟩
            · obtain ⟨context, stuck, same, arrives, fails⟩ := setUp_breaks setting right breaks
              refine ⟨.invoke name (.tuple [left] context []), stuck, ?_,
                .right found operates gives starts arrives, fails⟩
              rw [Step.Context.fill, Step.Context.fill, same, List.singleton_append]
            · obtain ⟨_, _, _, breaks⟩ := breaks_after not_breaks_start breaks
              cases breaks
        · rename_i whole
          have inner := breaks_before not_breaks_pure breaks
          obtain ⟨context, stuck, same, arrives, fails⟩ := setUp_breaks setting _ inner
          refine ⟨.invoke name context, stuck, congrArg _ same, .invoke found ?_ arrives, fails⟩
          intro operator left right operates
          rw [same]
          exact whole operator left right operates
  | .tuple steps, _, _, _, breaks => by
      rw [setUp] at breaks
      have inner := breaks_before not_breaks_pure breaks
      obtain ⟨first, context, stuck, rest, works, middle, same, gives, arrives, fails⟩ :=
        setUpAll_breaks setting steps inner
      exact ⟨.tuple first context rest, stuck, congrArg _ same.symm, .tuple gives arrives, fails⟩
  | .read name, _, _, _, breaks => by
      rw [setUp] at breaks
      exact read_breaks breaks

theorem setUpLiteral_breaks (setting : Setting) : ∀ (literal : Literal) {before after : State}
    {defect : Defect}, (setUpLiteral registry setting literal).Breaks before defect after →
      Fails registry setting (.literal literal) before defect after
  | .unit, _, _, _, breaks => by cases breaks
  | .text _, _, _, _, breaks => by cases breaks
  | .quantity _, _, _, _, breaks => by cases breaks
  | .tablet fields, _, _, _, breaks => by
      rw [setUpLiteral] at breaks
      have inner := breaks_before not_breaks_pure breaks
      obtain ⟨first, label, context, stuck, rest, works, middle, same, gives, arrives, fails⟩ :=
        setUpFields_breaks setting fields inner
      exact ⟨.tablet first label context rest, stuck, by rw [Step.Context.fill, same],
        .tablet gives arrives, fails⟩

theorem setUpAll_breaks (setting : Setting) : ∀ (steps : List Step) {before after : State}
    {defect : Defect}, (setUpAll registry setting steps).Breaks before defect after →
      ∃ first context step rest works middle,
        steps = first ++ Step.Context.fill step context :: rest ∧
        (setUpAll registry setting first).Gives before works middle ∧
        Arrives registry setting step context middle after ∧
        step.Stuck registry after.frame defect
  | [], _, _, _, breaks => by cases breaks
  | step :: steps, _, _, _, breaks => by
      rw [setUpAll] at breaks
      rcases breaks_bind_iff.mp breaks with breaks | ⟨work, _, gives, breaks⟩
      · obtain ⟨context, stuck, same, arrives, fails⟩ := setUp_breaks setting step breaks
        exact ⟨[], context, stuck, steps, [], _, by rw [same, List.nil_append], gives_pure _,
          arrives, fails⟩
      · have inner := breaks_before not_breaks_pure breaks
        obtain ⟨first, context, stuck, rest, works, middle, same, begins, arrives, fails⟩ :=
          setUpAll_breaks setting steps inner
        refine ⟨step :: first, context, stuck, rest, work :: works, middle,
          by rw [same, List.cons_append], ?_, arrives, fails⟩
        rw [setUpAll]
        exact gives.bind (begins.bind (gives_pure _))

theorem setUpFields_breaks (setting : Setting) : ∀ (fields : List (Label × Step))
    {before after : State} {defect : Defect},
    (setUpFields registry setting fields).Breaks before defect after →
      ∃ first label context step rest works middle,
        fields = first ++ (label, Step.Context.fill step context) :: rest ∧
        (setUpFields registry setting first).Gives before works middle ∧
        Arrives registry setting step context middle after ∧
        step.Stuck registry after.frame defect
  | [], _, _, _, breaks => by cases breaks
  | (label, step) :: fields, _, _, _, breaks => by
      rw [setUpFields] at breaks
      rcases breaks_bind_iff.mp breaks with breaks | ⟨work, _, gives, breaks⟩
      · obtain ⟨context, stuck, same, arrives, fails⟩ := setUp_breaks setting step breaks
        exact ⟨[], label, context, stuck, fields, [], _, by rw [same, List.nil_append],
          gives_pure _, arrives, fails⟩
      · have inner := breaks_before not_breaks_pure breaks
        obtain ⟨first, other, context, stuck, rest, works, middle, same, begins, arrives, fails⟩ :=
          setUpFields_breaks setting fields inner
        refine ⟨(label, step) :: first, other, context, stuck, rest, work :: works, middle,
          by rw [same, List.cons_append], ?_, arrives, fails⟩
        rw [setUpFields]
        exact gives.bind (begins.bind (gives_pure _))

end

/-- An entry that cannot be set up has come to a step in it that cannot. -/
theorem setUpEntry_breaks {index : Nat} {isLast : Bool} {entry : Entry} {frame : Frame}
    {next : TaskId}
    (breaks : (setUpEntry registry index isLast entry).Breaks ⟨frame, next, [], []⟩ defect after) :
    Fails registry entry.setting entry.step ⟨frame, next, [], [.starting index entry.setting]⟩
      defect after := by
  obtain ⟨setting, step⟩ := entry
  rw [setUpEntry] at breaks
  obtain ⟨_, _, reports, breaks⟩ := breaks_after not_breaks_report breaks
  cases reports
  split at breaks
  · rename_i names inner same
    obtain rfl : step = .bind names inner := same
    obtain ⟨_, _, reports, breaks⟩ := breaks_after not_breaks_report breaks
    cases reports
    rcases breaks_bind_iff.mp breaks with breaks | ⟨_, _, _, breaks⟩
    · obtain ⟨context, stuck, same, arrives, fails⟩ := setUp_breaks setting inner breaks
      exact ⟨.bind names context, stuck, congrArg _ same, .bind arrives, fails⟩
    · obtain ⟨_, _, _, breaks⟩ := breaks_after not_breaks_bind breaks
      cases isLast <;> cases breaks
  · exact setUp_breaks setting _ breaks

end SetUp

end Runbook
