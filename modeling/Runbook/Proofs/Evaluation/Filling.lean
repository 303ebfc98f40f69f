import Runbook.Proofs.Evaluation.Sites

/-!
Two steps at the same place.

Whatever stands around a place is set up alike in two runs, as long as it reads only what means the
same in both. So steps that differ at the place are set up alike there, if what stands at the place
is. Two operations that wait for either of two steps are, where the step that decides them is the
same and the other one reads only its own names.
-/
namespace Runbook

namespace Step.Context

/-- An invocation at a place makes a pair only as one step of it. -/
theorem fill_pair {primitive : Identifier} {argument left right : Step} {context : Context}
    (pair : context.fill (.invoke primitive argument) = .tuple [left, right]) :
    (∃ inner, context = .tuple [] inner [right]) ∨ ∃ inner, context = .tuple [left] inner [] := by
  cases context with
  | tuple before inner after =>
      rw [fill, Step.tuple.injEq] at pair
      cases before with
      | nil =>
          rw [List.nil_append, List.cons.injEq] at pair
          rw [pair.2]
          exact .inl ⟨inner, rfl⟩
      | cons first before =>
          rw [List.cons_append, List.cons.injEq] at pair
          obtain ⟨rfl, pair⟩ := pair
          cases before with
          | nil =>
              rw [List.nil_append, List.cons.injEq] at pair
              rw [pair.2]
              exact .inr ⟨inner, rfl⟩
          | cons second before =>
              rw [List.cons_append, List.cons.injEq] at pair
              exact absurd pair.2 (List.append_ne_nil_of_right_ne_nil _ (List.cons_ne_nil _ _))
  | _ => cases pair

theorem isSecond_iff {context : Context} :
    context.isSecond ↔ ∃ left inner, context = .tuple [left] inner [] := by
  constructor
  · intro second
    unfold isSecond at second
    split at second
    · exact ⟨_, _, rfl⟩
    · cases second
  · rintro ⟨left, inner, rfl⟩
    rfl

variable {registry : Registry} {name : Identifier} {left right : Step} {inner : Context}

theorem starts_first :
    (invoke name (.tuple [] inner [right])).starts registry = inner.starts registry := by
  simp only [starts, isSecond, stepsStarts, Nat.zero_add, Bool.false_and, Bool.false_eq_true,
    if_false, Nat.add_zero]

theorem starts_second (operates : registry.operates name = true) :
    (invoke name (.tuple [left] inner [])).starts registry =
      left.starts registry + (1 + inner.starts registry) := by
  simp only [starts, isSecond, stepsStarts, operates, Bool.and_true, if_true, Nat.add_zero]
  omega

theorem mentions_first :
    (invoke name (.tuple [] inner [right])).mentions = inner.mentions ++ right.mentions := by
  simp only [mentions, stepsMentions, List.nil_append, List.append_nil]

theorem mentions_second :
    (invoke name (.tuple [left] inner [])).mentions = left.mentions ++ inner.mentions := by
  simp only [mentions, stepsMentions, List.append_nil]

end Step.Context

namespace SetUp

variable {registry : Registry} {ground : Ground} {base : Name → Prop} {step step' : Step}
  {first first' : TaskId}

/-- The two steps are set up alike when so many tasks have been started. -/
def AgreeFrom (registry : Registry) (ground : Ground) (base : Name → Prop) (first first' : TaskId)
    (step step' : Step) : Prop :=
  ∀ (setting : Setting) {pairs : Pairing} {one other : State}, one.next = first →
    other.next = first' → State.Alike ground base [] pairs one other →
      Agree ground base pairs (setUp registry setting step) (setUp registry setting step') one other
        [] fun later => Work.Alike ground.like later

/-- A step that reads only what is seen is set up alike wherever it stands. -/
theorem AgreeFrom.refl (reads : ∀ name, .reading name ∈ step.mentions → base name) :
    AgreeFrom registry ground base first first' step step := by
  intro setting pairs one other _ _ alike
  refine setUp_agree setting step (alike.again ?_)
  rw [List.append_nil]
  exact Seen.of_reads reads

/-- Steps that differ in one of them are set up alike. -/
theorem setUpAll_agree_at (setting : Setting) {before after : List Step} {inner inner' : Step}
    (reads : ∀ name, .reading name ∈ stepsMentions before ++ stepsMentions after → base name)
    (agree : AgreeFrom registry ground base (first + stepsStarts registry before)
      (first' + stepsStarts registry before) inner inner')
    {pairs : Pairing} {one other : State} (next : one.next = first) (next' : other.next = first')
    (alike : State.Alike ground base [] pairs one other) :
    Agree ground base pairs (setUpAll registry setting (before ++ inner :: after))
      (setUpAll registry setting (before ++ inner' :: after)) one other []
      fun later => List.Forall₂ (Work.Alike ground.like later) := by
  induction before generalizing first first' pairs one other with
  | nil =>
      rw [List.nil_append, List.nil_append, setUpAll, setUpAll]
      refine .bind (agree setting next next' alike) fun work work' _ alike same => ?_
      have later : Seen base (stepsMentions after ++ []) := by
        rw [List.append_nil]
        exact Seen.of_reads fun name inside => reads name (List.mem_append_right _ inside)
      refine .bind (setUpAll_agree setting after (alike.again later))
        fun works works' grows alike others => ?_
      exact .pure alike (.cons (same.mono grows) others)
  | cons step before ih =>
      rw [stepsMentions, List.append_assoc] at reads
      rw [stepsStarts, ← Nat.add_assoc, ← Nat.add_assoc] at agree
      have now : AgreeFrom registry ground base first first' step step :=
        .refl fun name inside => reads name (List.mem_append_left _ inside)
      rw [List.cons_append, List.cons_append, setUpAll, setUpAll]
      refine .follow (now setting next next' alike)
        fun work work' gives gives' _ alike same => ?_
      have starts := setUp_starts setting step gives
      have starts' := setUp_starts setting step gives'
      rw [next] at starts
      rw [next'] at starts'
      refine .bind (ih (fun name inside => reads name (List.mem_append_right _ inside)) agree starts
        starts' alike) fun works works' grows alike others => ?_
      exact .pure alike (.cons (same.mono grows) others)

/-- Operands of which one differs are set up alike. -/
theorem setUp_operands_agree {name : Identifier} {primitive : Primitive} {operator : Operator}
    (found : registry.lookup name = some primitive) (performs : primitive.operator = some operator)
    {left left' right right' : Step} (agree : AgreeFrom registry ground base first first' left left')
    (agree' : AgreeFrom registry ground base (first + left.starts registry + 1)
      (first' + left'.starts registry + 1) right right') :
    AgreeFrom registry ground base first first' (.invoke name (.tuple [left, right]))
      (.invoke name (.tuple [left', right'])) := by
  intro setting pairs one other next next' alike
  rw [setUp_operands found performs, setUp_operands found performs]
  refine .follow (agree setting next next' alike) fun work work' gives gives' _ alike same => ?_
  have count := setUp_starts setting left gives
  have count' := setUp_starts setting left' gives'
  rw [next] at count
  rw [next'] at count'
  refine .follow (.start alike same) fun task task' begins begins' _ alike paired => ?_
  cases begins
  cases begins'
  refine .bind (agree' setting (congrArg (· + 1) count) (congrArg (· + 1) count') alike)
    fun work work' grows alike same => ?_
  refine .bind (.start alike same) fun task task' more alike second => ?_
  exact .pure alike (.after _ (Operator.await_alike operator (more (grows paired)) second))

section
variable {verb verb' : Identifier} {argument argument' : Step}

/-- Steps that differ at a place are set up alike, if the invocations at the place are. -/
theorem fill_agree :
    ∀ (context : Step.Context), (∀ name, .reading name ∈ context.mentions → base name) →
      ∀ {first first' : TaskId},
      AgreeFrom registry ground base (first + context.starts registry)
        (first' + context.starts registry) (.invoke verb argument)
          (.invoke verb' argument') →
      AgreeFrom registry ground base first first' (context.fill (.invoke verb argument))
        (context.fill (.invoke verb' argument'))
  | .here, _, _, _, agree => agree
  | .bind names inner, reads, _, _, agree => by
      intro setting pairs one other next next' alike
      have inside := fill_agree inner
        (fun name mem => reads name (List.mem_append_left _ mem)) agree
      rw [Step.Context.fill, Step.Context.fill, setUp, setUp]
      refine .follow (.report alike rfl) fun _ _ reports reports' _ alike _ => ?_
      cases reports
      cases reports'
      refine .bind (inside setting next next' alike) fun work work' _ alike same => ?_
      exact .map (.register (alike.again trivial) same) .wait
  | .call callee inner, reads, _, _, agree => by
      intro setting pairs one other next next' alike
      have inside := fill_agree inner reads agree
      rw [Step.Context.fill, Step.Context.fill, setUp, setUp]
      exact .map (inside setting next next' alike) (.after (.call callee))
  | .invoke name inner, reads, first, first', agree => by
      cases found : registry.lookup name with
      | none =>
          intro setting pairs one other _ _ alike
          rw [Step.Context.fill, Step.Context.fill, setUp, setUp, found]
          exact .throw alike
      | some primitive =>
          by_cases pair : ∃ operator left right, primitive.operator = some operator ∧
              inner.fill (.invoke verb argument) = .tuple [left, right]
          · obtain ⟨operator, left, right, performs, pair⟩ := pair
            have operates : registry.operates name = true := by
              rw [Registry.operates_eq found, performs]
              rfl
            rcases Step.Context.fill_pair pair with ⟨inner, rfl⟩ | ⟨inner, rfl⟩
            · rw [Step.Context.starts_first] at agree
              rw [Step.Context.mentions_first] at reads
              have inside := fill_agree inner
                (fun name mem => reads name (List.mem_append_left _ mem)) agree
              exact setUp_operands_agree found performs inside
                (.refl fun name mem => reads name (List.mem_append_right _ mem))
            · rw [Step.Context.starts_second operates, ← Nat.add_assoc, ← Nat.add_assoc,
                ← Nat.add_assoc, ← Nat.add_assoc] at agree
              rw [Step.Context.mentions_second] at reads
              have inside := fill_agree inner
                (fun name mem => reads name (List.mem_append_right _ mem)) agree
              exact setUp_operands_agree found performs
                (.refl fun name mem => reads name (List.mem_append_left _ mem)) inside
          · have whole : ∀ operator left right, primitive.operator = some operator →
                inner.fill (.invoke verb argument) ≠ .tuple [left, right] :=
              fun operator left right performs same => pair ⟨operator, left, right, performs, same⟩
            have whole' : ∀ operator left right, primitive.operator = some operator →
                inner.fill (.invoke verb' argument') ≠ .tuple [left, right] := by
              intro operator left right performs same
              rcases Step.Context.fill_pair same with ⟨inner, rfl⟩ | ⟨inner, rfl⟩
              · exact whole _ _ _ performs rfl
              · exact whole _ _ _ performs rfl
            have none : ¬(inner.isSecond && registry.operates name) := by
              intro both
              obtain ⟨second, operates⟩ := Bool.and_eq_true_iff.mp both
              obtain ⟨left, inner, rfl⟩ := Step.Context.isSecond_iff.mp second
              rw [Registry.operates_eq found] at operates
              obtain ⟨operator, performs⟩ := Option.isSome_iff_exists.mp operates
              exact whole _ _ _ performs rfl
            rw [Step.Context.starts, if_neg none, Nat.add_zero] at agree
            have inside := fill_agree inner reads agree
            intro setting pairs one other next next' alike
            rw [Step.Context.fill, Step.Context.fill, setUp_invoke found whole,
              setUp_invoke found whole']
            exact .map (inside setting next next' alike) (.after (.invoke primitive))
  | .tuple before inner after, reads, _, _, agree => by
      intro setting pairs one other next next' alike
      rw [Step.Context.mentions, List.append_assoc] at reads
      rw [Step.Context.starts, ← Nat.add_assoc, ← Nat.add_assoc] at agree
      have inside := fill_agree inner (fun name mem => reads name
        (List.mem_append_right _ (List.mem_append_left _ mem))) agree
      rw [Step.Context.fill, Step.Context.fill, setUp, setUp]
      refine .map (setUpAll_agree_at setting (fun name mem => reads name ?_)
        inside next next' alike) (.gather .results)
      exact (List.mem_append.mp mem).elim (List.mem_append_left _)
        fun mem => List.mem_append_right _ (List.mem_append_right _ mem)
  | .tablet before label inner after, reads, _, _, agree => by
      intro setting pairs one other next next' alike
      rw [Step.Context.mentions, List.append_assoc, fieldsMentions_eq, fieldsMentions_eq] at reads
      rw [Step.Context.starts, fieldsStarts_eq, ← Nat.add_assoc, ← Nat.add_assoc] at agree
      have inside := fill_agree inner (fun name mem => reads name
        (List.mem_append_right _ (List.mem_append_left _ mem))) agree
      rw [Step.Context.fill, Step.Context.fill, setUp, setUp, setUpLiteral, setUpLiteral,
        setUpFields_eq, setUpFields_eq, List.map_append, List.map_append, List.map_append,
        List.map_append]
      refine .map (setUpAll_agree_at setting (fun name mem => reads name ?_)
        inside next next' alike) (.gather _)
      exact (List.mem_append.mp mem).elim (List.mem_append_left _)
        fun mem => List.mem_append_right _ (List.mem_append_right _ mem)

/-- Entries that differ at a place are set up alike, if the invocations at the place are. -/
theorem setUpEntry_agree_at {index : Nat} {isLast : Bool} {setting : Setting}
    {context : Step.Context} (reads : ∀ name, .reading name ∈ context.mentions → base name)
    (agree : AgreeFrom registry ground base (first + context.starts registry)
      (first' + context.starts registry) (.invoke verb argument) (.invoke verb' argument'))
    {pairs : Pairing} {one other : State} (next : one.next = first) (next' : other.next = first')
    (alike : State.Alike ground base [] pairs one other) :
    Agree ground base pairs
      (setUpEntry registry index isLast ⟨setting, context.fill (.invoke verb argument)⟩)
      (setUpEntry registry index isLast ⟨setting, context.fill (.invoke verb' argument')⟩) one other
      [] fun later => Work.Alike ground.like later := by
  rw [setUpEntry, setUpEntry]
  refine .follow (.report alike rfl) fun _ _ reports reports' _ alike _ => ?_
  cases reports
  cases reports'
  cases context with
  | bind names inner =>
      have inside := fill_agree inner (fun name mem => reads name (List.mem_append_left _ mem)) agree
      refine .follow (.report alike rfl) fun _ _ reports reports' _ alike _ => ?_
      cases reports
      cases reports'
      refine .bind (inside setting next next' alike) fun work work' _ alike same => ?_
      have alike : State.Alike ground base [.binding names] _ _ _ := alike.again trivial
      refine .bind (.register alike same) fun task task' _ alike paired => ?_
      split
      · exact .pure alike (.wait paired)
      · exact .pure alike (.done _)
  | _ => exact fill_agree _ reads agree setting next next' alike

end

/-- Each run sets up an operand that reads only its own names, and starts it. -/
theorem State.Alike.lost {setting : Setting} {loser other : Step} {pairs : Pairing}
    {one two after after' : State} {work work' : Work}
    (alike : State.Alike ground base [] pairs one two)
    (gives : (setUp registry setting loser).Gives one work after)
    (gives' : (setUp registry setting other).Gives two work' after')
    (bound : ∀ step ∈ [loser, other], step.Bound [])
    (hidden : ∀ step ∈ [loser, other], ∀ name ∈ step.binders, ¬base name)
    (free : ∀ task, ¬ground.whole₁ task ∧ ¬ground.whole₂ task) :
    State.Alike ground base [] pairs
      { after with next := after.next + 1, started := after.started ++ [.fresh work] }
      { after' with next := after'.next + 1, started := after'.started ++ [.fresh work'] } := by
  have mem : loser ∈ [loser, other] := List.mem_cons_self
  have mem' : other ∈ [loser, other] := List.mem_cons_of_mem _ (List.mem_singleton.mpr rfl)
  have left : State.Alike ground base [] pairs after two :=
    alike.setUpLeft gives (bound loser mem) (hidden loser mem) trivial fun task _ _ => (free task).1
  have both : State.Alike ground base [] pairs after after' :=
    left.setUpRight gives' (bound other mem') (hidden other mem') trivial
      fun task _ _ => (free task).2
  exact (both.startLeft (free _).1).startRight (free _).2

/-- An operation of which the winner reads only what is seen, and the other operand only its own
names, is set up like one with another such operand, if the winner outruns both. -/
theorem either_agree {side : Side} {winner loser other : Step}
    (found : registry.lookup Operator.waitEither.primitive = some Operator.waitEither.asPrimitive)
    (reads : ∀ name, .reading name ∈ winner.mentions → base name)
    (succeeds : ∀ step ∈ [loser, other], ∀ (setting : Setting) (before : State), ∃ work after,
      (setUp registry setting step).Gives before work after ∧
        after.next = before.next + step.starts registry)
    (bound : ∀ step ∈ [loser, other], step.Bound [])
    (hidden : ∀ step ∈ [loser, other], ∀ name ∈ step.binders, ¬base name)
    (free : ∀ task, ¬ground.whole₁ task ∧ ¬ground.whole₂ task)
    (outruns : ground.like.outruns₁ (side.winner registry first winner loser)
      (side.loser registry first winner loser))
    (outruns' : ground.like.outruns₂ (side.winner registry first' winner other)
      (side.loser registry first' winner other)) :
    AgreeFrom registry ground base first first' (side.either winner loser)
      (side.either winner other) := by
  have won : ∀ {first first' : TaskId}, AgreeFrom registry ground base first first' winner winner :=
    .refl reads
  have mem : loser ∈ [loser, other] := List.mem_cons_self
  have mem' : other ∈ [loser, other] := List.mem_cons_of_mem _ (List.mem_singleton.mpr rfl)
  intro setting pairs one two next next' alike
  cases side with
  | left =>
      rw [Side.either, Side.either, Side.operands, Side.operands, setUp_operands found rfl,
        setUp_operands found rfl]
      refine .follow (won setting next next' alike)
        fun {_ middle middle'} work work' gives gives' _ alike same => ?_
      have count := setUp_starts setting winner gives
      have count' := setUp_starts setting winner gives'
      rw [next] at count
      rw [next'] at count'
      refine .follow (.start alike same) fun task task' begins begins' _ alike paired => ?_
      cases begins
      cases begins'
      obtain ⟨lost, after, gives, starts⟩ := succeeds loser mem setting { middle with
        next := middle.next + 1
        started := middle.started ++ [.fresh work] }
      obtain ⟨lost', after', gives', starts'⟩ := succeeds other mem' setting { middle' with
        next := middle'.next + 1
        started := middle'.started ++ [.fresh work'] }
      simp only [count, count'] at starts starts'
      refine .apart gives gives' (.apart (gives_start lost) (gives_start lost') ?_)
      refine .pure (.lost alike gives gives' bound hidden free) (.after _ (.raceLeft paired ?_ ?_))
      · rw [count, starts]
        exact outruns
      · rw [count', starts']
        exact outruns'
  | right =>
      rw [Side.either, Side.either, Side.operands, Side.operands, setUp_operands found rfl,
        setUp_operands found rfl]
      obtain ⟨lost, after, gives, starts⟩ := succeeds loser mem setting one
      obtain ⟨lost', after', gives', starts'⟩ := succeeds other mem' setting two
      rw [next] at starts
      rw [next'] at starts'
      refine .apart gives gives' (.apart (gives_start lost) (gives_start lost') ?_)
      have alike := alike.lost gives gives' bound hidden free
      refine .follow (won setting (congrArg (· + 1) starts) (congrArg (· + 1) starts') alike)
        fun work work' gives gives' _ alike same => ?_
      have count := setUp_starts setting winner gives
      have count' := setUp_starts setting winner gives'
      simp only [starts, starts'] at count count'
      refine .follow (.start alike same) fun task task' begins begins' _ alike paired => ?_
      cases begins
      cases begins'
      refine .pure alike (.after _ (.raceRight paired ?_ ?_))
      · rw [count, starts]
        exact outruns
      · rw [count', starts']
        exact outruns'

end SetUp

end Runbook
