import Runbook.Proofs.Evaluation.Alike

/-!
Setting the same step up in two runs.

Both runs come to like works, or both break down; the tasks that the one starts are paired with
those of the other. Each frame may have bindings that the other has not, as long as the step does
not read their names before it binds them itself.
-/
namespace Runbook

/-- Every name that is read is seen or bound before. -/
def Seen (seen : Name → Prop) : List Mention → Prop
  | [] => True
  | .binding names :: mentions => Seen (fun name => seen name ∨ name ∈ names) mentions
  | .reading name :: mentions => seen name ∧ Seen seen mentions

theorem Seen.mono {seen more : Name → Prop} {mentions : List Mention} (sees : Seen seen mentions)
    (le : ∀ name, seen name → more name) : Seen more mentions := by
  induction mentions generalizing seen more with
  | nil => trivial
  | cons mention mentions ih =>
      cases mention with
      | binding names => exact ih sees fun name => Or.imp_left (le name)
      | reading name => exact ⟨le name sees.1, ih sees.2 le⟩

/-- Mentions that read only names which are seen. -/
theorem Seen.of_reads {seen : Name → Prop} {mentions : List Mention}
    (reads : ∀ name, .reading name ∈ mentions → seen name) : Seen seen mentions := by
  induction mentions with
  | nil => trivial
  | cons mention mentions ih =>
      have later := ih fun name inside => reads name (List.mem_cons_of_mem _ inside)
      cases mention with
      | binding names => exact later.mono fun name => .inl
      | reading name => exact ⟨reads name List.mem_cons_self, later⟩

mutual

/-- What a step reads is seen if it is bound; `rest` follows after all that the step binds. -/
theorem Step.seen : ∀ (step : Step) {known : List Name} {seen : Name → Prop} {rest : List Mention},
    step.Bound known → (∀ name ∈ known, seen name) →
      (∀ more : Name → Prop, (∀ name ∈ known ++ step.binders, more name) → Seen more rest) →
        Seen seen (step.mentions ++ rest)
  | .literal literal, _, _, _, bound, knows, later => literal.seen bound knows later
  | .bind names step, known, _, _, bound, knows, later => by
      rw [Step.mentions, List.append_assoc]
      refine step.seen bound knows fun more knows => later _ fun name inside => ?_
      rw [Step.binders, ← List.append_assoc] at inside
      exact (List.mem_append.mp inside).imp_left (knows name)
  | .call _ argument, _, _, _, bound, knows, later => argument.seen bound knows later
  | .invoke _ argument, _, _, _, bound, knows, later => argument.seen bound knows later
  | .tuple steps, _, _, _, bound, knows, later => stepsSeen steps bound knows later
  | .read name, known, seen, _, bound, knows, later => by
      refine ⟨knows name bound, later seen fun name inside => ?_⟩
      rw [Step.binders, List.append_nil] at inside
      exact knows name inside

theorem Literal.seen : ∀ (literal : Literal) {known : List Name} {seen : Name → Prop}
    {rest : List Mention}, literal.Bound known → (∀ name ∈ known, seen name) →
      (∀ more : Name → Prop, (∀ name ∈ known ++ literal.binders, more name) → Seen more rest) →
        Seen seen (literal.mentions ++ rest)
  | .unit, known, seen, _, _, knows, later
  | .text _, known, seen, _, _, knows, later
  | .quantity _, known, seen, _, _, knows, later =>
      later seen fun name inside => knows name (List.append_nil known ▸ inside)
  | .tablet fields, _, _, _, bound, knows, later => fieldsSeen fields bound knows later

theorem stepsSeen : ∀ (steps : List Step) {known : List Name} {seen : Name → Prop}
    {rest : List Mention}, stepsBound known steps → (∀ name ∈ known, seen name) →
      (∀ more : Name → Prop, (∀ name ∈ known ++ stepsBinders steps, more name) → Seen more rest) →
        Seen seen (stepsMentions steps ++ rest)
  | [], known, seen, _, _, knows, later =>
      later seen fun name inside => knows name (List.append_nil known ▸ inside)
  | step :: steps, known, _, _, bound, knows, later => by
      rw [stepsMentions, List.append_assoc]
      refine step.seen bound.1 knows fun more knows => stepsSeen steps bound.2 knows ?_
      rw [List.append_assoc]
      exact later

theorem fieldsSeen : ∀ (fields : List (Label × Step)) {known : List Name} {seen : Name → Prop}
    {rest : List Mention}, fieldsBound known fields → (∀ name ∈ known, seen name) →
      (∀ more : Name → Prop, (∀ name ∈ known ++ fieldsBinders fields, more name) →
        Seen more rest) → Seen seen (fieldsMentions fields ++ rest)
  | [], known, seen, _, _, knows, later =>
      later seen fun name inside => knows name (List.append_nil known ▸ inside)
  | (_, step) :: fields, known, _, _, bound, knows, later => by
      rw [fieldsMentions, List.append_assoc]
      refine step.seen bound.1 knows fun more knows => fieldsSeen fields bound.2 knows ?_
      rw [List.append_assoc]
      exact later

end

/-- What two works have before they go on: their worlds, of which tasks are paired, the numbers from
which on others are, and what is to be paired of the tasks that they start. -/
structure Ground where
  like : Likeness
  pairs : Pairing
  ones : List Work
  others : List Work
  first₁ : Nat
  first₂ : Nat
  whole₁ : Nat → Prop
  whole₂ : Nat → Prop

/-- Both have started tasks. More of them are paired, and paired tasks do the same. -/
structure Ground.Grown (ground : Ground) (pairs : Pairing) (started started' : List Work) :
    Prop where
  keeps : ground.pairs ⊆ pairs
  ordered : pairs.Ordered
  fresh : ∀ pair ∈ pairs, pair ∈ ground.pairs ∨ ground.first₁ ≤ pair.1 ∧ ground.first₂ ≤ pair.2
  low : ground.first₁ ≤ (ground.ones ++ started).length ∧
    ground.first₂ ≤ (ground.others ++ started').length
  works : ∀ pair ∈ pairs, ∃ one other, (ground.ones ++ started)[pair.1]? = some one ∧
    (ground.others ++ started')[pair.2]? = some other ∧ one.Alike ground.like pairs other
  whole₁ : ∀ task, task < (ground.ones ++ started).length → ground.whole₁ task →
    ∃ other, (task, other) ∈ pairs
  whole₂ : ∀ task, task < (ground.others ++ started').length → ground.whole₂ task →
    ∃ other, (other, task) ∈ pairs

theorem Pairing.Ordered.snoc {pairs : Pairing} {one other : Nat} (ordered : pairs.Ordered)
    (above : ∀ pair ∈ pairs, pair.1 < one ∧ pair.2 < other) :
    Pairing.Ordered (pairs ++ [(one, other)]) := by
  refine List.pairwise_append.mpr ⟨ordered, List.pairwise_singleton _ _, ?_⟩
  intro pair paired last same
  rw [List.mem_singleton.mp same]
  exact above pair paired

namespace Ground.Grown

variable {ground : Ground} {pairs : Pairing} {started started' : List Work}

theorem below (grown : ground.Grown pairs started started') {pair : Nat × Nat}
    (paired : pair ∈ pairs) :
    pair.1 < (ground.ones ++ started).length ∧ pair.2 < (ground.others ++ started').length := by
  obtain ⟨one, other, there, there', _⟩ := grown.works pair paired
  exact ⟨(List.getElem?_eq_some_iff.mp there).1, (List.getElem?_eq_some_iff.mp there').1⟩

/-- Both start one more task, and these are paired. -/
theorem start {one other : Work} (grown : ground.Grown pairs started started')
    (alike : one.Alike ground.like pairs other) :
    ground.Grown
      (pairs ++ [((ground.ones ++ started).length, (ground.others ++ started').length)])
      (started ++ [one]) (started' ++ [other]) := by
  have le : pairs ⊆
      pairs ++ [((ground.ones ++ started).length, (ground.others ++ started').length)] :=
    List.subset_append_left _ _
  refine ⟨List.Subset.trans grown.keeps le, grown.ordered.snoc fun _ => grown.below, ?_, ?_, ?_, ?_,
    ?_⟩
  · intro pair paired
    rcases List.mem_append.mp paired with old | new
    · exact grown.fresh pair old
    · rw [List.mem_singleton.mp new]
      exact .inr grown.low
  · have longer (works : List Work) (last : Work) : works.length ≤ (works ++ [last]).length :=
      List.length_append ▸ Nat.le_add_right _ _
    rw [← List.append_assoc, ← List.append_assoc]
    exact ⟨Nat.le_trans grown.low.1 (longer _ _), Nat.le_trans grown.low.2 (longer _ _)⟩
  · intro pair paired
    rw [← List.append_assoc, ← List.append_assoc]
    rcases List.mem_append.mp paired with old | new
    · obtain ⟨work, work', there, there', same⟩ := grown.works pair old
      obtain ⟨first, second⟩ := grown.below old
      rw [List.getElem?_append_left first, List.getElem?_append_left second]
      exact ⟨work, work', there, there', same.mono le⟩
    · rw [List.mem_singleton.mp new, List.getElem?_concat_length, List.getElem?_concat_length]
      exact ⟨one, other, rfl, rfl, alike.mono le⟩
  · intro task below inside
    rw [← List.append_assoc, List.length_append] at below
    rcases Nat.lt_succ_iff_lt_or_eq.mp below with old | rfl
    · obtain ⟨other, paired⟩ := grown.whole₁ task old inside
      exact ⟨other, le paired⟩
    · exact ⟨_, List.mem_append_right _ (List.mem_singleton.mpr rfl)⟩
  · intro task below inside
    rw [← List.append_assoc, List.length_append] at below
    rcases Nat.lt_succ_iff_lt_or_eq.mp below with old | rfl
    · obtain ⟨other, paired⟩ := grown.whole₂ task old inside
      exact ⟨other, le paired⟩
    · exact ⟨_, List.mem_append_right _ (List.mem_singleton.mpr rfl)⟩

/-- The first run starts tasks that are not to be paired. -/
theorem startLeft (grown : ground.Grown pairs started started') (works : List Work)
    (free : ∀ task, (ground.ones ++ started).length ≤ task →
      task < (ground.ones ++ started).length + works.length → ¬ground.whole₁ task) :
    ground.Grown pairs (started ++ works) started' := by
  refine ⟨grown.keeps, grown.ordered, grown.fresh, ⟨?_, grown.low.2⟩, ?_, ?_, grown.whole₂⟩
  · have longer (ones : List Work) : ones.length ≤ (ones ++ works).length :=
      List.length_append ▸ Nat.le_add_right _ _
    rw [← List.append_assoc]
    exact Nat.le_trans grown.low.1 (longer _)
  · intro pair paired
    obtain ⟨one, other, there, there', same⟩ := grown.works pair paired
    rw [← List.append_assoc, List.getElem?_append_left (grown.below paired).1]
    exact ⟨one, other, there, there', same⟩
  · intro task last inside
    rw [← List.append_assoc, List.length_append] at last
    by_cases below : task < (ground.ones ++ started).length
    · exact grown.whole₁ task below inside
    · exact absurd inside (free task (Nat.le_of_not_lt below) last)

/-- The second run starts tasks that are not to be paired. -/
theorem startRight (grown : ground.Grown pairs started started') (works : List Work)
    (free : ∀ task, (ground.others ++ started').length ≤ task →
      task < (ground.others ++ started').length + works.length → ¬ground.whole₂ task) :
    ground.Grown pairs started (started' ++ works) := by
  refine ⟨grown.keeps, grown.ordered, grown.fresh, ⟨grown.low.1, ?_⟩, ?_, grown.whole₁, ?_⟩
  · have longer (others : List Work) : others.length ≤ (others ++ works).length :=
      List.length_append ▸ Nat.le_add_right _ _
    rw [← List.append_assoc]
    exact Nat.le_trans grown.low.2 (longer _)
  · intro pair paired
    obtain ⟨one, other, there, there', same⟩ := grown.works pair paired
    rw [← List.append_assoc, List.getElem?_append_left (grown.below paired).2]
    exact ⟨one, other, there, there', same⟩
  · intro task last inside
    rw [← List.append_assoc, List.length_append] at last
    by_cases below : task < (ground.others ++ started').length
    · exact grown.whole₂ task below inside
    · exact absurd inside (free task (Nat.le_of_not_lt below) last)

end Ground.Grown

theorem Operator.await_alike {like : Likeness} {pairs : Pairing} (operator : Operator)
    {left right left' right' : TaskId} (first : (left, left') ∈ pairs)
    (second : (right, right') ∈ pairs) :
    (operator.await left right).Alike like pairs (operator.await left' right') := by
  cases operator with
  | waitEither => exact .race first second
  | _ => exact .gather .operands (.cons (.wait first) (.cons (.wait second) .nil))

namespace Frame

theorem observeIn?_append {name : Name} {bindings observed : List Binding} (first : List Binding)
    (done : observeIn? name bindings = some observed) :
    observeIn? name (first ++ bindings) = some (first ++ observed) := by
  induction first with
  | nil => exact done
  | cons binding first ih => rw [List.cons_append, observeIn?, ih, List.cons_append]

theorem observeIn?_settled {name : Name} {bindings observed : List Binding}
    (done : observeIn? name bindings = some observed)
    (settled : ∀ binding ∈ bindings, binding.unobserved? = none) :
    ∀ binding ∈ observed, binding.unobserved? = none := by
  induction bindings generalizing observed with
  | nil => cases done
  | cons first bindings ih =>
      rw [List.forall_mem_cons] at settled
      rw [observeIn?] at done
      split at done
      · rename_i others later
        rw [← Option.some.inj done]
        exact List.forall_mem_cons.mpr ⟨settled.1, ih later settled.2⟩
      · split at done
        · rw [← Option.some.inj done]
          exact List.forall_mem_cons.mpr ⟨Binding.unobserved?_observe first, settled.2⟩
        · cases done

/-- Deeds that ask for no name but their own leave the bindings alone that were there before. -/
theorem performAll_own (first : List Binding) {deeds : List Deed} {own : List Binding}
    (reads : Seen (· ∈ own.flatMap Binding.names) (deeds.map Deed.mention))
    (settles : ∀ deed ∈ deeds, deed.Settled)
    (settled : ∀ binding ∈ own, binding.unobserved? = none) :
    ∃ later, (Frame.mk (first ++ own)).performAll deeds = ⟨first ++ later⟩ ∧
      ∀ binding ∈ later, binding.unobserved? = none := by
  induction deeds generalizing own with
  | nil => exact ⟨own, rfl, settled⟩
  | cons deed deeds ih =>
      rw [List.forall_mem_cons] at settles
      cases deed with
      | bind binding =>
          have all : ∀ each ∈ own ++ [binding], each.unobserved? = none :=
            List.forall_mem_append.mpr ⟨settled, List.forall_mem_singleton.mpr settles.1⟩
          have sees : Seen (· ∈ (own ++ [binding]).flatMap Binding.names)
              (deeds.map Deed.mention) := by
            refine Seen.mono reads fun name inside => ?_
            rw [List.flatMap_append, List.mem_append, List.flatMap_singleton]
            exact inside
          obtain ⟨later, done, rest⟩ := ih sees settles.2 all
          refine ⟨later, ?_, rest⟩
          rw [← done, ← List.append_assoc]
          rfl
      | read name =>
          obtain ⟨observed, done⟩ := Option.isSome_iff_exists.mp (observeIn?_isSome reads.1)
          have names := (observeIn?_map done).1
          have sees : Seen (· ∈ observed.flatMap Binding.names) (deeds.map Deed.mention) := by
            rw [List.flatMap_def, names, ← List.flatMap_def]
            exact reads.2
          obtain ⟨later, after, rest⟩ := ih sees settles.2 (observeIn?_settled done settled)
          refine ⟨later, ?_, rest⟩
          rw [← after]
          change ((Frame.mk (first ++ own)).observe name).performAll deeds = _
          rw [observe, observeIn?_append first done]
          rfl

end Frame

/-- A step that reads only its own names adds settled bindings of them to a frame. -/
theorem SetsUp.own {registry : Registry} {frame after : Frame} {next : TaskId} {step : Step}
    {work : Work} {started : List Work}
    (sets : SetsUp registry frame next [step] [work] started after) (bound : step.Bound []) :
    ∃ own, after = ⟨frame.bindings ++ own⟩ ∧ (∀ binding ∈ own, binding.unobserved? = none) ∧
      own.flatMap Binding.names = step.binders := by
  obtain ⟨deeds, mentions, settles, same⟩ := sets.deeds
  have reads : Seen (· ∈ ([] : List Binding).flatMap Binding.names) (deeds.map Deed.mention) := by
    rw [mentions, stepsMentions, stepsMentions]
    exact step.seen bound (List.forall_mem_nil _) fun _ _ => trivial
  obtain ⟨own, done, settled⟩ := Frame.performAll_own frame.bindings reads settles nofun
  rw [List.append_nil] at done
  refine ⟨own, same.trans done, settled, ?_⟩
  have names := sets.names
  rw [same.trans done, Frame.names, List.flatMap_append, stepsBinders, stepsBinders,
    List.append_nil] at names
  exact List.append_cancel_left names

namespace SetUp

/-- Between two set-ups that have come to the states, `rest` is still to be mentioned in both; the
names `base` are seen. -/
structure State.Alike (ground : Ground) (base : Name → Prop) (rest : List Mention)
    (pairs : Pairing) (one other : State) : Prop where
  frames : ∃ seen own, (∀ name, base name → seen name) ∧ Seen seen rest ∧
    BindingsAlike pairs seen own one.frame.bindings other.frame.bindings
  next₁ : one.next = (ground.ones ++ one.started).length
  next₂ : other.next = (ground.others ++ other.started).length
  grown : ground.Grown pairs one.started other.started
  told : told one.events = told other.events

/-- From the two states the parts both have results, which are as asked for, or both break down. -/
def Agree {α β : Type} (ground : Ground) (base : Name → Prop) (pairs : Pairing)
    (part : SetUp α) (part' : SetUp β) (one other : State) (rest : List Mention)
    (post : Pairing → α → β → Prop) : Prop :=
  ∃ later result after result' after', pairs ⊆ later ∧
    part.run.run one = (result, after) ∧ part'.run.run other = (result', after') ∧
    ground.Grown later after.started after'.started ∧ told after.events = told after'.events ∧
    match result, result' with
    | .ok a, .ok b => State.Alike ground base rest later after after' ∧ post later a b
    | .error _, .error _ => True
    | _, _ => False

variable {α β γ δ : Type} {ground : Ground} {base : Name → Prop} {pairs : Pairing}
  {one other : State} {rest middle : List Mention} {post : Pairing → α → β → Prop}

namespace Agree

theorem pure {a : α} {b : β} (alike : State.Alike ground base rest pairs one other)
    (holds : post pairs a b) :
    Agree ground base pairs (Pure.pure a) (Pure.pure b) one other rest post :=
  ⟨pairs, .ok a, one, .ok b, other, List.Subset.refl _, rfl, rfl, alike.grown, alike.told, alike,
    holds⟩

theorem throw {defect defect' : Defect} (alike : State.Alike ground base middle pairs one other) :
    Agree ground base pairs (MonadExcept.throw defect : SetUp α)
      (MonadExcept.throw defect' : SetUp β) one other rest post :=
  ⟨pairs, .error defect, one, .error defect', other, List.Subset.refl _, rfl, rfl, alike.grown,
    alike.told, trivial⟩

/-- After two parts that agree, what follows them has to. -/
theorem follow {part : SetUp α} {part' : SetUp β} {next : α → SetUp γ} {next' : β → SetUp δ}
    {final : Pairing → γ → δ → Prop}
    (head : Agree ground base pairs part part' one other middle post)
    (tail : ∀ {later : Pairing} {after after' : State} (a : α) (b : β), part.Gives one a after →
      part'.Gives other b after' → pairs ⊆ later →
      State.Alike ground base middle later after after' → post later a b →
        Agree ground base later (next a) (next' b) after after' rest final) :
    Agree ground base pairs (part >>= next) (part' >>= next') one other rest final := by
  obtain ⟨later, result, after, result', after', grows, run, run', grown, told, same⟩ := head
  have whole := run_bind part next one
  have whole' := run_bind part' next' other
  rw [run] at whole
  rw [run'] at whole'
  cases result with
  | error defect =>
      cases result' with
      | error defect' =>
          exact ⟨later, .error defect, after, .error defect', after', grows, whole, whole', grown,
            told, trivial⟩
      | ok b => exact same.elim
  | ok a =>
      cases result' with
      | error defect' => exact same.elim
      | ok b =>
          obtain ⟨last, result, after, result', after', more, run, run', rest⟩ :=
            tail a b run run' grows same.1 same.2
          exact ⟨last, result, after, result', after', List.Subset.trans grows more,
            whole.trans run, whole'.trans run', rest⟩

theorem bind {part : SetUp α} {part' : SetUp β} {next : α → SetUp γ} {next' : β → SetUp δ}
    {final : Pairing → γ → δ → Prop}
    (head : Agree ground base pairs part part' one other middle post)
    (tail : ∀ {later : Pairing} {after after' : State} (a : α) (b : β), pairs ⊆ later →
      State.Alike ground base middle later after after' → post later a b →
        Agree ground base later (next a) (next' b) after after' rest final) :
    Agree ground base pairs (part >>= next) (part' >>= next') one other rest final :=
  head.follow fun a b _ _ => tail a b

/-- Each run does something of its own before both go on alike. -/
theorem apart {part : SetUp α} {part' : SetUp β} {next : α → SetUp γ} {next' : β → SetUp δ}
    {final : Pairing → γ → δ → Prop} {a : α} {b : β} {after after' : State}
    (gives : part.Gives one a after) (gives' : part'.Gives other b after')
    (tail : Agree ground base pairs (next a) (next' b) after after' rest final) :
    Agree ground base pairs (part >>= next) (part' >>= next') one other rest final := by
  obtain ⟨later, result, last, result', last', grows, run, run', holds⟩ := tail
  have whole := run_bind part next one
  have whole' := run_bind part' next' other
  rw [gives] at whole
  rw [gives'] at whole'
  exact ⟨later, result, last, result', last', grows, whole.trans run, whole'.trans run', holds⟩

/-- The results of two parts are put into others. -/
theorem map {part : SetUp α} {part' : SetUp β} {f : α → γ} {f' : β → δ}
    {final : Pairing → γ → δ → Prop}
    (head : Agree ground base pairs part part' one other rest post)
    (holds : ∀ {later : Pairing} {a : α} {b : β}, post later a b → final later (f a) (f' b)) :
    Agree ground base pairs (part >>= fun a => Pure.pure (f a))
      (part' >>= fun b => Pure.pure (f' b)) one other rest final :=
  head.bind fun _ _ _ alike same => .pure alike (holds same)

theorem report {event event' : Event} (alike : State.Alike ground base rest pairs one other)
    (same : Runbook.told [event] = Runbook.told [event']) :
    Agree ground base pairs (report event) (report event') one other rest fun _ _ _ => True := by
  have told : Runbook.told (one.events ++ [event]) = Runbook.told (other.events ++ [event']) := by
    rw [told_append, told_append, alike.told, same]
  exact ⟨pairs, .ok (), { one with events := one.events ++ [event] }, .ok (),
    { other with events := other.events ++ [event'] }, List.Subset.refl _, rfl, rfl, alike.grown,
    told, ⟨alike.frames, alike.next₁, alike.next₂, alike.grown, told⟩, trivial⟩

/-- Like works become tasks, which are paired. -/
theorem start {work work' : Work} (alike : State.Alike ground base rest pairs one other)
    (same : work.Alike ground.like pairs work') :
    Agree ground base pairs (start work) (start work') one other rest
      fun later task task' => (task, task') ∈ later := by
  have grown := alike.grown.start (.fresh same)
  rw [← alike.next₁, ← alike.next₂] at grown
  obtain ⟨seen, own, sees, reads, frames⟩ := alike.frames
  have le : pairs ⊆ pairs ++ [(one.next, other.next)] := List.subset_append_left _ _
  have longer (works : List Work) (last : Work) : (works ++ [last]).length = works.length + 1 :=
    List.length_append
  refine ⟨_, .ok one.next,
    { one with next := one.next + 1, started := one.started ++ [.fresh work] }, .ok other.next,
    { other with next := other.next + 1, started := other.started ++ [.fresh work'] }, le, rfl, rfl,
    grown, alike.told, ⟨?_, ?_, ?_, grown, alike.told⟩, List.mem_append_right _ ?_⟩
  · exact ⟨seen, own, sees, reads, frames.mono le fun _ => id⟩
  · rw [← List.append_assoc]
    exact (congrArg (· + 1) alike.next₁).trans (longer _ _).symm
  · rw [← List.append_assoc]
    exact (congrArg (· + 1) alike.next₂).trans (longer _ _).symm
  · exact List.mem_singleton.mpr rfl

/-- Like works become tasks that are bound to the same names. -/
theorem register {names : List Name} {observed : Bool} {work work' : Work}
    (alike : State.Alike ground base (.binding names :: rest) pairs one other)
    (same : work.Alike ground.like pairs work') :
    Agree ground base pairs (SetUp.bind names observed work) (SetUp.bind names observed work') one
      other rest fun later task task' => (task, task') ∈ later := by
  refine .bind (.start alike same) fun {later after after'} task task' _ alike paired => ?_
  obtain ⟨seen, own, sees, reads, frames⟩ := alike.frames
  refine ⟨later, .ok task,
    { after with frame := after.frame.add (.started names task observed) }, .ok task',
    { after' with frame := after'.frame.add (.started names task' observed) },
    List.Subset.refl _, rfl, rfl, alike.grown, alike.told, ⟨?_, alike.next₁, alike.next₂,
      alike.grown, alike.told⟩, paired⟩
  exact ⟨_, _, fun name known => .inl (sees name known), reads, frames.snoc paired⟩

/-- A name that is seen gives like works. -/
theorem read {name : Name}
    (alike : State.Alike ground base (.reading name :: rest) pairs one other) :
    Agree ground base pairs (SetUp.read name) (SetUp.read name) one other rest
      fun later => Work.Alike ground.like later := by
  obtain ⟨seen, own, sees, reads, frames⟩ := alike.frames
  have alike : State.Alike ground base rest pairs one other :=
    ⟨⟨seen, own, sees, reads.2, frames⟩, alike.next₁, alike.next₂, alike.grown, alike.told⟩
  have means := frames.findIn? reads.1
  change Option.Rel _ (one.frame.find? name) (other.frame.find? name) at means
  cases found : one.frame.find? name with
  | none =>
      cases found' : other.frame.find? name with
      | none =>
          have fails {state : State} (missing : state.frame.find? name = none) :
              (SetUp.read name).run.run state = (.error (.unboundName name), state) := by
            rw [SetUp.read, run_bind, gives_get]
            simp only [missing]
            rfl
          exact ⟨pairs, _, one, _, other, List.Subset.refl _, fails found, fails found',
            alike.grown, alike.told, trivial⟩
      | some meaning' =>
          rw [found, found'] at means
          cases means
  | some meaning =>
      cases found' : other.frame.find? name with
      | none =>
          rw [found, found'] at means
          cases means
      | some meaning' =>
          rw [found, found'] at means
          cases means with
          | some same =>
              cases same with
              | parameter =>
                  exact ⟨pairs, _, one, _, other, List.Subset.refl _, gives_parameter found,
                    gives_parameter found', alike.grown, alike.told, alike, .done _⟩
              | started paired =>
                  refine ⟨pairs, _, _, _, _, List.Subset.refl _, gives_read found,
                    gives_read found', alike.grown, alike.told, ⟨?_, alike.next₁, alike.next₂,
                      alike.grown, alike.told⟩, .after _ (.wait paired)⟩
                  exact ⟨seen, own, sees, reads.2, frames.observe reads.1⟩

end Agree

variable {registry : Registry}

mutual

/-- A step is set up in like ways, if the names that it reads are seen. -/
theorem setUp_agree (setting : Setting) : ∀ (step : Step) {rest : List Mention} {pairs : Pairing}
    {one other : State}, State.Alike ground base (step.mentions ++ rest) pairs one other →
      Agree ground base pairs (setUp registry setting step) (setUp registry setting step) one other
        rest fun later => Work.Alike ground.like later
  | .literal literal, _, _, _, _, alike => setUpLiteral_agree setting literal alike
  | .bind names step, _, _, _, _, alike => by
      rw [Step.mentions, List.append_assoc] at alike
      rw [setUp]
      refine .bind (.report alike rfl) fun _ _ _ alike _ => ?_
      refine .bind (setUp_agree setting step alike) fun work work' _ alike same => ?_
      exact .map (.register alike same) .wait
  | .call callee argument, _, _, _, _, alike => by
      rw [setUp]
      exact .map (setUp_agree setting argument alike) (.after (.call callee))
  | .invoke name argument, _, _, _, _, alike => by
      rw [setUp]
      split
      · exact .throw alike
      · rename_i primitive _
        have whole := setUp_agree setting argument alike
        split
        · rename_i operator left right _
          rw [Step.mentions, Step.mentions, stepsMentions, stepsMentions, stepsMentions,
            List.append_nil, List.append_assoc] at alike
          refine .bind (setUp_agree setting left alike) fun work work' _ alike same => ?_
          refine .bind (.start alike same) fun one one' _ alike first => ?_
          refine .bind (setUp_agree setting right alike) fun work work' grows alike same => ?_
          refine .bind (.start alike same) fun other other' more alike second => ?_
          exact .pure alike (.after _ (Operator.await_alike operator (more (grows first)) second))
        · exact .map whole (.after (.invoke primitive))
  | .tuple steps, _, _, _, _, alike => by
      rw [setUp]
      exact .map (setUpAll_agree setting steps alike) (.gather .results)
  | .read name, _, _, _, _, alike => by
      rw [setUp]
      exact .read alike

theorem setUpLiteral_agree (setting : Setting) : ∀ (literal : Literal) {rest : List Mention}
    {pairs : Pairing} {one other : State},
    State.Alike ground base (literal.mentions ++ rest) pairs one other →
      Agree ground base pairs (setUpLiteral registry setting literal)
        (setUpLiteral registry setting literal) one other rest
        fun later => Work.Alike ground.like later
  | .unit, _, _, _, _, alike => .pure alike (.done _)
  | .text _, _, _, _, _, alike => .pure alike (.done _)
  | .quantity _, _, _, _, _, alike => .pure alike (.done _)
  | .tablet fields, _, _, _, _, alike => by
      rw [setUpLiteral]
      exact .map (setUpFields_agree setting fields alike) (.gather _)

theorem setUpAll_agree (setting : Setting) : ∀ (steps : List Step) {rest : List Mention}
    {pairs : Pairing} {one other : State},
    State.Alike ground base (stepsMentions steps ++ rest) pairs one other →
      Agree ground base pairs (setUpAll registry setting steps) (setUpAll registry setting steps)
        one other rest fun later => List.Forall₂ (Work.Alike ground.like later)
  | [], _, _, _, _, alike => .pure alike .nil
  | step :: steps, _, _, _, _, alike => by
      rw [stepsMentions, List.append_assoc] at alike
      rw [setUpAll]
      refine .bind (setUp_agree setting step alike) fun work work' _ alike same => ?_
      refine .bind (setUpAll_agree setting steps alike) fun works works' grows alike others => ?_
      exact .pure alike (.cons (same.mono grows) others)

theorem setUpFields_agree (setting : Setting) : ∀ (fields : List (Label × Step))
    {rest : List Mention} {pairs : Pairing} {one other : State},
    State.Alike ground base (fieldsMentions fields ++ rest) pairs one other →
      Agree ground base pairs (setUpFields registry setting fields)
        (setUpFields registry setting fields) one other rest
        fun later => List.Forall₂ (Work.Alike ground.like later)
  | [], _, _, _, _, alike => .pure alike .nil
  | (label, step) :: fields, _, _, _, _, alike => by
      rw [fieldsMentions, List.append_assoc] at alike
      rw [setUpFields]
      refine .bind (setUp_agree setting step alike) fun work work' _ alike same => ?_
      refine .bind (setUpFields_agree setting fields alike)
        fun works works' grows alike others => ?_
      exact .pure alike (.cons (same.mono grows) others)

end

/-- An entry is set up in like ways, if the names that it reads are seen. -/
theorem setUpEntry_agree (index : Nat) (isLast : Bool) (entry : Entry)
    (alike : State.Alike ground base (entry.step.mentions ++ rest) pairs one other) :
    Agree ground base pairs (setUpEntry registry index isLast entry)
      (setUpEntry registry index isLast entry) one other rest
      fun later => Work.Alike ground.like later := by
  rw [setUpEntry]
  refine .bind (.report alike rfl) fun _ _ _ alike _ => ?_
  split
  · rename_i names step same
    rw [same, Step.mentions, List.append_assoc] at alike
    refine .bind (.report alike rfl) fun _ _ _ alike _ => ?_
    refine .bind (setUp_agree entry.setting step alike) fun work work' _ alike same => ?_
    refine .bind (.register alike same) fun task task' _ alike paired => ?_
    split
    · exact .pure alike (.wait paired)
    · exact .pure alike (.done _)
  · exact setUp_agree entry.setting _ alike

/-- The first run sets a step up that reads only its own names, and these are not seen. -/
theorem State.Alike.setUpLeft {setting : Setting} {step : Step} {work : Work} {after : State}
    (alike : State.Alike ground base middle pairs one other)
    (gives : (setUp registry setting step).Gives one work after) (bound : step.Bound [])
    (hidden : ∀ name ∈ step.binders, ¬base name) (reads : Seen base rest)
    (free : ∀ task, one.next ≤ task → task < after.next → ¬ground.whole₁ task) :
    State.Alike ground base rest pairs after other := by
  obtain ⟨started, sets, next, all, tells⟩ := setUp_makes setting step gives
  obtain ⟨bindings, same, settled, names⟩ := sets.own bound
  obtain ⟨seen, own, sees, _, frames⟩ := alike.frames
  rw [next, alike.next₁] at free
  refine ⟨⟨base, own, fun _ => id, reads, ?_⟩, ?_, alike.next₂, ?_, tells.trans alike.told⟩
  · rw [same]
    rw [← names] at hidden
    exact (frames.mono (List.Subset.refl _) sees).appendLeft settled hidden
  · rw [next, alike.next₁, all, ← List.append_assoc]
    exact List.length_append.symm
  · rw [all]
    exact alike.grown.startLeft started free

/-- The first run starts a task. -/
theorem State.Alike.startLeft {work : Work} (alike : State.Alike ground base rest pairs one other)
    (free : ¬ground.whole₁ one.next) :
    State.Alike ground base rest pairs
      { one with next := one.next + 1, started := one.started ++ [.fresh work] } other := by
  have free : ∀ task, (ground.ones ++ one.started).length ≤ task →
      task < (ground.ones ++ one.started).length + [work.fresh].length → ¬ground.whole₁ task := by
    intro task above below
    rw [← alike.next₁] at above below
    rw [Nat.le_antisymm (Nat.le_of_lt_succ below) above]
    exact free
  refine ⟨alike.frames, ?_, alike.next₂, alike.grown.startLeft _ free, alike.told⟩
  have longer (works : List Work) : (works ++ [work.fresh]).length = works.length + 1 :=
    List.length_append
  rw [← List.append_assoc]
  exact (congrArg (· + 1) alike.next₁).trans (longer _).symm

/-- The second run sets a step up that reads only its own names, and these are not seen. -/
theorem State.Alike.setUpRight {setting : Setting} {step : Step} {work : Work} {after : State}
    (alike : State.Alike ground base middle pairs one other)
    (gives : (setUp registry setting step).Gives other work after) (bound : step.Bound [])
    (hidden : ∀ name ∈ step.binders, ¬base name) (reads : Seen base rest)
    (free : ∀ task, other.next ≤ task → task < after.next → ¬ground.whole₂ task) :
    State.Alike ground base rest pairs one after := by
  obtain ⟨started, sets, next, all, tells⟩ := setUp_makes setting step gives
  obtain ⟨bindings, same, settled, names⟩ := sets.own bound
  obtain ⟨seen, own, sees, _, frames⟩ := alike.frames
  rw [next, alike.next₂] at free
  refine ⟨⟨base, own, fun _ => id, reads, ?_⟩, alike.next₁, ?_, ?_, alike.told.trans tells.symm⟩
  · rw [same]
    rw [← names] at hidden
    exact (frames.mono (List.Subset.refl _) sees).appendRight settled hidden
  · rw [next, alike.next₂, all, ← List.append_assoc]
    exact List.length_append.symm
  · rw [all]
    exact alike.grown.startRight started free

/-- The second run starts a task. -/
theorem State.Alike.startRight {work : Work} (alike : State.Alike ground base rest pairs one other)
    (free : ¬ground.whole₂ other.next) :
    State.Alike ground base rest pairs one
      { other with next := other.next + 1, started := other.started ++ [.fresh work] } := by
  have free : ∀ task, (ground.others ++ other.started).length ≤ task →
      task < (ground.others ++ other.started).length + [work.fresh].length →
      ¬ground.whole₂ task := by
    intro task above below
    rw [← alike.next₂] at above below
    rw [Nat.le_antisymm (Nat.le_of_lt_succ below) above]
    exact free
  refine ⟨alike.frames, alike.next₁, ?_, alike.grown.startRight _ free, alike.told⟩
  have longer (works : List Work) : (works ++ [work.fresh]).length = works.length + 1 :=
    List.length_append
  rw [← List.append_assoc]
  exact (congrArg (· + 1) alike.next₂).trans (longer _).symm

/-- Whatever reads only the names of `base` may be mentioned next. -/
theorem State.Alike.again (alike : State.Alike ground base middle pairs one other)
    (reads : Seen base rest) : State.Alike ground base rest pairs one other := by
  obtain ⟨seen, own, sees, _, frames⟩ := alike.frames
  exact ⟨⟨seen, own, sees, reads.mono sees, frames⟩, alike.next₁, alike.next₂, alike.grown,
    alike.told⟩

end SetUp

end Runbook
