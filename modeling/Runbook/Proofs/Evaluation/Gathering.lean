import Runbook.Proofs.Evaluation.Finishing
import Runbook.Proofs.Evaluation.Readback
import Mathlib.Data.List.MinMax

/-!
When solitary works that are gathered have an outcome together.

Each member heads for an ending of its own. It moves in its turn and rests when the others do, and
comes no later to its ending for them. What ends the gathering is a matter of these endings alone:
the last of them if all have values, the first failure of few works, and of more works than are
gathered at once the failure that comes first in their order.
-/
namespace Runbook

/-- An outcome, and the moment from which on it is there. -/
structure Ending where
  outcome : Outcome
  moment : Nat

/-- The moment from which on all are there. -/
def lastMoment (endings : List Ending) : Nat := (endings.map Ending.moment).foldr max 0

theorem le_lastMoment {endings : List Ending} {ending : Ending} (inside : ending ∈ endings) :
    ending.moment ≤ lastMoment endings :=
  List.le_max_of_le (List.mem_map_of_mem inside) (Nat.le_refl _)

theorem lastMoment_le {endings : List Ending} {moment : Nat}
    (all : ∀ ending ∈ endings, ending.moment ≤ moment) : lastMoment endings ≤ moment :=
  List.max_le_of_forall_le _ _ (List.forall_mem_map.mpr all)

/-- A work that has the ending by the moment, or will have it by itself, after so many moves and
rests. -/
inductive Work.HeadsFor (machine : Machine) (allowed : Need → Prop) (clock : Nat) :
    Work → Ending → Nat → Prop
  | ended {outcome : Outcome} {moment : Nat} : moment ≤ clock →
      HeadsFor machine allowed clock (.done outcome) ⟨outcome, moment⟩ 0
  | ahead {work : Work} {log : List Logged} {outcome : Outcome} {moment count : Nat} :
      work.Solitary machine.registry allowed →
      work.Finishes machine clock log outcome moment count →
      HeadsFor machine allowed clock work ⟨outcome, moment⟩ count

/-- Each work heads for its ending, with so many moves and rests altogether. -/
inductive AllHeadFor (machine : Machine) (allowed : Need → Prop) (clock : Nat) :
    List Work → List Ending → Nat → Prop
  | nil : AllHeadFor machine allowed clock [] [] 0
  | cons {work : Work} {works : List Work} {ending : Ending} {endings : List Ending}
      {count rest : Nat} : work.HeadsFor machine allowed clock ending count →
      AllHeadFor machine allowed clock works endings rest →
      AllHeadFor machine allowed clock (work :: works) (ending :: endings) (count + rest)

variable {machine : Machine} {allowed : Need → Prop} {clock later count : Nat}

namespace Work.HeadsFor

variable {work : Work} {ending : Ending}

theorem done {outcome : Outcome}
    (heads : (Work.done outcome).HeadsFor machine allowed clock ending count) :
    ending.outcome = outcome ∧ ending.moment ≤ clock := by
  cases heads with
  | ended late => exact ⟨rfl, late⟩
  | ahead _ finishes =>
      cases finishes with
      | now => exact ⟨rfl, Nat.le_refl _⟩
      | move moved _ => cases moved
      | rest _ _ awaited _ _ => cases awaited

theorem unbroken {defect : Defect} :
    ¬(Work.broken defect).HeadsFor machine allowed clock ending count := by
  intro heads
  cases heads with
  | ahead _ finishes =>
      cases finishes with
      | move moved _ => cases moved
      | rest _ _ awaited _ _ => cases awaited

/-- What has failed has the failure for its ending. -/
theorem failed {failed : Work} (heads : work.HeadsFor machine allowed clock ending count)
    (fails : work.failed? = some failed) : ∃ failure, failed = .done (.error failure) ∧
      ending.outcome = .error failure ∧ ending.moment ≤ clock := by
  cases work with
  | done outcome =>
      cases outcome with
      | ok value => cases fails
      | error failure =>
          cases fails
          exact ⟨failure, rfl, heads.done⟩
  | broken defect => exact absurd heads unbroken
  | _ => cases fails

/-- What is to fail has not ended until it has failed. -/
theorem going (heads : work.HeadsFor machine allowed clock ending count) {failure : Failure}
    (fails : ending.outcome = .error failure) (unfailed : work.failed? = none) :
    work.ended? = none := by
  cases work with
  | done outcome =>
      rw [heads.done.1] at fails
      rw [fails] at unfailed
      cases unfailed
  | broken defect => exact absurd heads unbroken
  | _ => rfl

/-- A work has ended if its ending is past, and it cannot move. -/
theorem past (heads : work.HeadsFor machine allowed clock ending count)
    (still : machine.step? (.bare clock) work = none) (late : ending.moment ≤ clock) :
    work = .done ending.outcome := by
  cases heads with
  | ended _ => rfl
  | ahead _ finishes =>
      cases finishes with
      | now => rfl
      | move moved _ => cases still.symm.trans moved
      | rest _ less _ _ rest =>
          exact absurd (Nat.lt_of_lt_of_le less rest.le) (Nat.not_lt_of_le late)

theorem move (idle : machine.Idle allowed)
    (heads : work.HeadsFor machine allowed clock ending count) {change : Change}
    (moved : machine.step? (.bare clock) work = some change) :
    ∃ fewer < count, change.work.HeadsFor machine allowed clock ending fewer := by
  cases heads with
  | ended _ => cases moved
  | ahead solitary finishes =>
      cases finishes with
      | now => cases moved
      | move moves rest =>
          obtain rfl := Option.some.inj (moved.symm.trans moves)
          exact ⟨_, Nat.lt_succ_self _, .ahead ((solitary.moves idle _).2 _ moved).work rest⟩
      | rest still _ _ _ _ => cases still.symm.trans moved

/-- While it rests, the clock may go on to the first moment that it waits for. -/
theorem rest (heads : work.HeadsFor machine allowed clock ending count)
    (still : machine.step? (.bare clock) work = none) (less : clock < later)
    (early : ∀ wake ∈ work.wakes, later ≤ wake) :
    ∃ fewer, work.HeadsFor machine allowed later ending fewer ∧ fewer ≤ count ∧
      (later ∈ work.wakes → fewer < count) := by
  cases heads with
  | ended late => exact ⟨0, .ended (Nat.le_trans late (Nat.le_of_lt less)), Nat.le_refl _, nofun⟩
  | ahead solitary finishes =>
      cases finishes with
      | now => exact ⟨0, .ended (Nat.le_of_lt less), Nat.le_refl _, nofun⟩
      | move moved _ => cases still.symm.trans moved
      | @rest _ wake _ fewer _ _ _ _ past awaited first rest =>
          rcases Nat.eq_or_lt_of_le (early wake awaited) with rfl | before
          · exact ⟨fewer, .ahead solitary rest, Nat.le_succ _, fun _ => Nat.lt_succ_self _⟩
          · have sleeps : machine.step? (.bare later) work = none :=
              solitary.still still fun other inside =>
                Nat.lt_of_lt_of_le before (first other inside)
            exact ⟨fewer + 1, .ahead solitary (.rest sleeps before awaited first rest),
              Nat.le_refl _, fun inside => absurd (first later inside) (Nat.not_le_of_lt before)⟩

/-- A work that rests waits for a moment no later than its ending. -/
theorem awaits (heads : work.HeadsFor machine allowed clock ending count)
    (still : machine.step? (.bare clock) work = none) (going : work.ended? = none) :
    ∃ wake ∈ work.wakes, wake ≤ ending.moment := by
  cases heads with
  | ended _ => cases going
  | ahead _ finishes =>
      cases finishes with
      | now => cases going
      | move moved _ => cases still.symm.trans moved
      | rest _ _ awaited _ rest => exact ⟨_, awaited, rest.le⟩

end Work.HeadsFor

namespace AllHeadFor

variable {works : List Work} {endings : List Ending}

theorem length (all : AllHeadFor machine allowed clock works endings count) :
    endings.length = works.length := by
  induction all with
  | nil => rfl
  | cons _ _ ih => exact congrArg (· + 1) ih

theorem append {others : List Work} {endings' : List Ending} {count' : Nat}
    (all : AllHeadFor machine allowed clock works endings count)
    (more : AllHeadFor machine allowed clock others endings' count') :
    AllHeadFor machine allowed clock (works ++ others) (endings ++ endings') (count + count') := by
  induction all with
  | nil =>
      rw [Nat.zero_add]
      exact more
  | cons first _ ih =>
      rw [Nat.add_assoc]
      exact .cons first ih

theorem split {before after : List Work} {work : Work}
    (all : AllHeadFor machine allowed clock (before ++ work :: after) endings count) :
    ∃ firsts ending lasts a b c, endings = firsts ++ ending :: lasts ∧ count = a + (b + c) ∧
      AllHeadFor machine allowed clock before firsts a ∧
      work.HeadsFor machine allowed clock ending b ∧
      AllHeadFor machine allowed clock after lasts c := by
  induction before generalizing endings count with
  | nil =>
      cases all with
      | cons first rest => exact ⟨[], _, _, 0, _, _, rfl, (Nat.zero_add _).symm, .nil, first, rest⟩
  | cons other before ih =>
      cases all with
      | cons first rest =>
          obtain ⟨firsts, ending, lasts, a, b, c, rfl, rfl, before, here, after⟩ := ih rest
          exact ⟨_ :: firsts, ending, lasts, _, b, c, rfl, (Nat.add_assoc _ _ _).symm,
            .cons first before, here, after⟩

theorem get (all : AllHeadFor machine allowed clock works endings count) (place : Nat) :
    Option.Rel (fun work ending => ∃ count, Work.HeadsFor machine allowed clock work ending count)
      works[place]? endings[place]? := by
  induction all generalizing place with
  | nil => exact .none
  | cons first _ ih =>
      cases place with
      | zero => exact .some ⟨_, first⟩
      | succ place => exact ih place

section
variable {place : Nat}

theorem ending (all : AllHeadFor machine allowed clock works endings count) {work : Work}
    (there : works[place]? = some work) : ∃ ending count, endings[place]? = some ending ∧
      work.HeadsFor machine allowed clock ending count := by
  have heads := all.get place
  rw [there] at heads
  generalize endings[place]? = found at heads
  cases heads with
  | some heads =>
      obtain ⟨count, heads⟩ := heads
      exact ⟨_, count, rfl, heads⟩

theorem work (all : AllHeadFor machine allowed clock works endings count)
    {ending : Ending} (there : endings[place]? = some ending) : ∃ work count,
      works[place]? = some work ∧ work.HeadsFor machine allowed clock ending count := by
  have heads := all.get place
  rw [there] at heads
  generalize works[place]? = found at heads
  cases heads with
  | some heads =>
      obtain ⟨count, heads⟩ := heads
      exact ⟨_, count, rfl, heads⟩

/-- A member that has a value has it for its ending. -/
theorem value (all : AllHeadFor machine allowed clock works endings count)
    {outcome : Outcome} {ending : Ending} (there : works[place]? = some (.done outcome))
    (ends : endings[place]? = some ending) :
    ending.outcome = outcome ∧ ending.moment ≤ clock := by
  obtain ⟨other, _, found, heads⟩ := all.ending there
  obtain rfl := Option.some.inj (found.symm.trans ends)
  exact heads.done

end

theorem move (idle : machine.Idle allowed) {before after : List Work} {work : Work}
    {change : Change}
    (all : AllHeadFor machine allowed clock (before ++ work :: after) endings count)
    (moved : machine.step? (.bare clock) work = some change) :
    ∃ fewer < count,
      AllHeadFor machine allowed clock (before ++ change.work :: after) endings fewer := by
  obtain ⟨firsts, ending, lasts, a, b, c, rfl, rfl, first, here, last⟩ := all.split
  obtain ⟨fewer, less, heads⟩ := here.move idle moved
  exact ⟨_, Nat.add_lt_add_left (Nat.add_lt_add_right less c) a, first.append (.cons heads last)⟩

theorem rest (all : AllHeadFor machine allowed clock works endings count)
    (still : ∀ work ∈ works, machine.step? (.bare clock) work = none) (less : clock < later)
    (early : ∀ wake ∈ Work.wakesOfAll works, later ≤ wake) :
    ∃ fewer, AllHeadFor machine allowed later works endings fewer ∧ fewer ≤ count ∧
      (later ∈ Work.wakesOfAll works → fewer < count) := by
  induction all with
  | nil => exact ⟨0, .nil, Nat.le_refl _, nofun⟩
  | cons first _ ih =>
      obtain ⟨here, others⟩ := List.forall_mem_cons.mp still
      obtain ⟨first', rest'⟩ := List.forall_mem_append.mp early
      obtain ⟨fewer, heads, most, fewer'⟩ := first.rest here less first'
      obtain ⟨others, all, most', fewer''⟩ := ih others rest'
      refine ⟨fewer + others, .cons heads all, Nat.add_le_add most most', fun inside => ?_⟩
      rcases List.mem_append.mp inside with inside | inside
      · exact Nat.add_lt_add_of_lt_of_le (fewer' inside) most'
      · exact Nat.add_lt_add_of_le_of_lt most (fewer'' inside)

/-- When few works are gathered, those before one that has failed have come as far as they can. -/
def Ordered (machine : Machine) (clock : Nat) (works : List Work) : Prop :=
  works.length ≤ Work.gatheredAtOnce → ∀ (place : Nat) (work failed : Work),
    works[place]? = some work → work.failed? = some failed → ∀ before < place, ∀ other,
      works[before]? = some other → machine.step? (.bare clock) other = none

end AllHeadFor

/-- Works that head for these endings come to this one when they are gathered: they are not gathered
before, and wait for a member that does not come later. -/
structure Decides (machine : Machine) (allowed : Need → Prop) (shape : Shape)
    (endings : List Ending) (ending : Ending) : Prop where
  spoiled : ∀ {clock works count failed}, AllHeadFor machine allowed clock works endings count →
    clock ≤ ending.moment → AllHeadFor.Ordered machine clock works →
    Work.spoiled? works = some failed → failed = .done ending.outcome ∧ clock = ending.moment
  collected : ∀ {clock works count values}, AllHeadFor machine allowed clock works endings count →
    clock ≤ ending.moment → works.mapM Work.value? = some values →
    .ok (shape.collect values) = ending.outcome ∧ clock = ending.moment
  waits : ∀ {clock works count}, AllHeadFor machine allowed clock works endings count →
    Work.spoiled? works = none → works.mapM Work.value? = none →
    ∃ (place : Nat) (work : Work) (other : Ending), works[place]? = some work ∧
      endings[place]? = some other ∧ work.ended? = none ∧ other.moment ≤ ending.moment

theorem Work.unfailed_of_few {works : List Work} (whole : spoiled? works = none)
    (few : works.length ≤ gatheredAtOnce) : ∀ work ∈ works, work.failed? = none := by
  rw [spoiled?, if_pos few] at whole
  exact List.findSome?_eq_none_iff.mp whole

/-- Until one has failed, few works are in order. -/
theorem AllHeadFor.Ordered.of_whole {works : List Work} (whole : Work.spoiled? works = none) :
    Ordered machine clock works := by
  intro few place work failed there fails
  have unfailed := Work.unfailed_of_few whole few work (List.mem_of_getElem? there)
  rw [unfailed] at fails
  cases fails

/-- After the first that can move has moved, few works are in order still. -/
theorem AllHeadFor.Ordered.move {before after : List Work} {member work : Work}
    (whole : Work.spoiled? (before ++ member :: after) = none)
    (still : ∀ other ∈ before, machine.step? (.bare clock) other = none) :
    Ordered machine clock (before ++ work :: after) := by
  intro few place failing failed there fails earlier less other there'
  rw [List.length_append, List.length_cons, ← List.length_cons (a := member),
    ← List.length_append] at few
  have unfailed := Work.unfailed_of_few whole few
  rcases Nat.lt_trichotomy place before.length with first | rfl | last
  · rw [List.getElem?_append_left first] at there
    rw [unfailed failing (List.mem_append_left _ (List.mem_of_getElem? there))] at fails
    cases fails
  · rw [List.getElem?_append_left less] at there'
    exact still other (List.mem_of_getElem? there')
  · obtain ⟨more, rfl⟩ := Nat.exists_eq_add_of_lt last
    rw [Nat.add_assoc, List.getElem?_append_right (Nat.le_add_right _ _), Nat.add_sub_cancel_left,
      List.getElem?_cons_succ] at there
    rw [unfailed failing (List.mem_append_right _ (List.mem_cons_of_mem _
      (List.mem_of_getElem? there)))] at fails
    cases fails

/-- Gathered, the works come to the ending that theirs decide. -/
theorem AllHeadFor.finishes {shape : Shape} {endings : List Ending} {ending : Ending}
    (idle : machine.Idle allowed) (decides : Decides machine allowed shape endings ending) :
    ∀ {count clock : Nat} {works : List Work},
      AllHeadFor machine allowed clock works endings count → clock ≤ ending.moment →
      Ordered machine clock works →
      ∃ log moves, (Work.gather shape works).Finishes machine clock log ending.outcome ending.moment
        moves := by
  intro count
  induction count using Nat.strong_induction_on with
  | _ count ih =>
      intro clock works all early ordered
      have goes := machine.gathers (.bare clock) shape works
      generalize next : machine.step? (.bare clock) (.gather shape works) = change at goes
      cases goes with
      | spoiled found =>
          obtain ⟨rfl, rfl⟩ := decides.spoiled all early ordered found
          exact ⟨_, 1, .move next .now⟩
      | collected _ found =>
          obtain ⟨same, rfl⟩ := decides.collected all early found
          rw [same] at next
          exact ⟨_, 1, .move next .now⟩
      | @moves before member after change whole _ split still moved =>
          subst split
          obtain ⟨fewer, less, all'⟩ := all.move idle moved
          obtain ⟨log, moves, finishes⟩ := ih fewer less all' early (.move whole still)
          exact ⟨_, _, .move next finishes⟩
      | still whole uncollected parts =>
          obtain ⟨place, work, other, there, ends, going, soon⟩ :=
            decides.waits all whole uncollected
          have inside := List.mem_of_getElem? there
          obtain ⟨_, count, found, heads⟩ := all.ending there
          obtain rfl := Option.some.inj (found.symm.trans ends)
          obtain ⟨wake, awaited, come⟩ := heads.awaits (parts work inside) going
          have among : wake ∈ Work.wakesOfAll works :=
            Work.mem_wakesOfAll.mpr ⟨work, inside, awaited⟩
          obtain ⟨later, first⟩ := Option.isSome_iff_exists.mp (List.isSome_min?_of_mem among)
          obtain ⟨waits, least⟩ := List.min?_eq_some_iff.mp first
          have less : clock < later := by
            by_contra past
            exact @Machine.dueAll _ (.bare clock) _ (Nat.le_of_not_lt past) works waits parts
          obtain ⟨fewer, all', _, fewer'⟩ := all.rest parts less least
          obtain ⟨log, moves, finishes⟩ := ih fewer (fewer' waits) all'
            ((least wake among).trans (come.trans soon)) (.of_whole whole)
          exact ⟨log, _, .rest next less waits least finishes⟩

section
variable {works : List Work} {endings : List Ending} {place : Nat}

theorem AllHeadFor.values {values : List Value}
    (all : AllHeadFor machine allowed clock (values.map fun value => .done (.ok value)) endings
      count) :
    endings.map Ending.outcome = values.map Except.ok ∧
      ∀ ending ∈ endings, ending.moment ≤ clock := by
  induction values generalizing endings count with
  | nil =>
      cases all
      exact ⟨rfl, List.forall_mem_nil _⟩
  | cons value values ih =>
      cases all with
      | cons first rest =>
          obtain ⟨same, late⟩ := first.done
          obtain ⟨others, later⟩ := ih rest
          rw [List.map_cons, same, others]
          exact ⟨rfl, List.forall_mem_cons.mpr ⟨late, later⟩⟩

theorem unfailed_of_values {values : List Value} {ending : Ending}
    (same : endings.map Ending.outcome = values.map Except.ok) (inside : ending ∈ endings)
    (failure : Failure) : ending.outcome ≠ .error failure := by
  intro fails
  have among : ending.outcome ∈ values.map Except.ok := same ▸ List.mem_map_of_mem inside
  rw [fails] at among
  obtain ⟨_, _, other⟩ := List.mem_map.mp among
  cases other

/-- If all have values, the last of them decides. -/
theorem Decides.values {shape : Shape} {values : List Value}
    (have' : endings.map Ending.outcome = values.map Except.ok) :
    Decides machine allowed shape endings ⟨.ok (shape.collect values), lastMoment endings⟩ where
  spoiled all _ _ spoiled := by
    obtain ⟨member, inside, fails⟩ := Moves.spoiled_mem spoiled
    obtain ⟨place, there⟩ := List.mem_iff_getElem?.mp inside
    obtain ⟨ending, _, ends, heads⟩ := all.ending there
    obtain ⟨failure, _, same, _⟩ := heads.failed fails
    exact absurd same (unfailed_of_values have' (List.mem_of_getElem? ends) failure)
  collected all early collected := by
    obtain rfl := Work.eq_map_of_collected collected
    obtain ⟨same, late⟩ := all.values
    rw [have'] at same
    obtain rfl := List.map_injective_iff.mpr (fun _ _ same => Except.ok.inj same) same
    exact ⟨rfl, Nat.le_antisymm early (lastMoment_le late)⟩
  waits all whole uncollected := by
    obtain ⟨member, inside, going⟩ := Work.exists_going whole uncollected
    obtain ⟨place, there⟩ := List.mem_iff_getElem?.mp inside
    obtain ⟨ending, _, ends, _⟩ := all.ending there
    exact ⟨place, member, ending, there, ends, going, le_lastMoment (List.mem_of_getElem? ends)⟩

/-- At the place is the earliest failure, and the first of those that are as early. -/
structure Earliest (endings : List Ending) (place : Nat) (failure : Failure) (moment : Nat) :
    Prop where
  there : endings[place]? = some ⟨.error failure, moment⟩
  first : ∀ (other : Nat) (failure' : Failure) (moment' : Nat),
    endings[other]? = some ⟨.error failure', moment'⟩ →
      moment ≤ moment' ∧ (other < place → moment < moment')

/-- Of few, the earliest failure decides. -/
theorem Decides.earliest {shape : Shape} {failure : Failure} {moment : Nat}
    (earliest : Earliest endings place failure moment)
    (few : endings.length ≤ Work.gatheredAtOnce) :
    Decides machine allowed shape endings ⟨.error failure, moment⟩ where
  spoiled := by
    intro clock works count failed all early ordered spoiled
    have few' : works.length ≤ Work.gatheredAtOnce := all.length ▸ few
    obtain ⟨before, work, after, rfl, fails, unfailed⟩ :=
      List.findSome?_eq_some_iff.mp ((if_pos few').symm.trans spoiled)
    have there := getElem?_middle before work after
    obtain ⟨⟨outcome, moment'⟩, _, ends, heads⟩ := all.ending there
    obtain ⟨failure', rfl, same, late⟩ := heads.failed fails
    cases same
    obtain ⟨least, later⟩ := earliest.first _ failure' moment' ends
    obtain rfl : moment = moment' := Nat.le_antisymm least (late.trans early)
    obtain rfl : clock = moment := Nat.le_antisymm early late
    rcases Nat.lt_trichotomy before.length place with left | rfl | right
    · exact absurd (later left) (Nat.lt_irrefl _)
    · cases ends.symm.trans earliest.there
      exact ⟨rfl, rfl⟩
    · -- the earliest failure would have come before
      obtain ⟨other, _, found, heads⟩ := all.work earliest.there
      have still := ordered few' _ _ _ there fails place right other found
      rw [List.getElem?_append_left right] at found
      rw [heads.past still late] at found
      cases unfailed _ (List.mem_of_getElem? found)
  collected := by
    intro clock works count values all early collected
    obtain rfl := Work.eq_map_of_collected collected
    exact absurd rfl (unfailed_of_values all.values.1 (List.mem_of_getElem? earliest.there) failure)
  waits := by
    intro clock works count all whole _
    obtain ⟨work, _, there, heads⟩ := all.work earliest.there
    have unfailed := Work.unfailed_of_few whole (all.length ▸ few) work (List.mem_of_getElem? there)
    exact ⟨place, work, _, there, earliest.there, heads.going rfl unfailed, Nat.le_refl _⟩

/-- The first failure in the order of the members. -/
structure Leftmost (endings : List Ending) (place : Nat) (failure : Failure) (moment : Nat) :
    Prop where
  there : endings[place]? = some ⟨.error failure, moment⟩
  before : ∀ other < place, ∃ value moment', endings[other]? = some ⟨.ok value, moment'⟩

/-- The first work that has no value is looked at when many are gathered. -/
theorem Work.exists_first (works : List Work) :
    (∀ work ∈ works, ∃ value, work = .done (.ok value)) ∨
    ∃ before work after, works = before ++ work :: after ∧
      (∀ other ∈ before, ∃ value, other = .done (.ok value)) ∧ work.value? = none ∧
      (works.dropWhile (·.value?.isSome)).head? = some work := by
  induction works with
  | nil => exact .inl (List.forall_mem_nil _)
  | cons first works ih =>
      rw [List.dropWhile_cons]
      cases has : first.value? with
      | none => exact .inr ⟨[], first, works, rfl, List.forall_mem_nil _, has, rfl⟩
      | some value =>
          have valued : ∃ value, first = .done (.ok value) := by
            cases first with
            | done outcome =>
                cases outcome with
                | ok value => exact ⟨value, rfl⟩
                | error failure => cases has
            | _ => cases has
          refine ih.imp (fun all => List.forall_mem_cons.mpr ⟨valued, all⟩) fun found => ?_
          obtain ⟨before, work, after, rfl, all, none, head⟩ := found
          exact ⟨first :: before, work, after, rfl, List.forall_mem_cons.mpr ⟨valued, all⟩, none,
            head⟩

theorem Work.spoiled?_of_many (many : Work.gatheredAtOnce < works.length)
    (unbroken : ∀ work ∈ works, work.broken? = none) :
    spoiled? works = (works.dropWhile (·.value?.isSome)).head?.bind failed? := by
  rw [spoiled?, if_neg (Nat.not_le_of_lt many), List.findSome?_eq_none_iff.mpr unbroken]

theorem AllHeadFor.unbroken (all : AllHeadFor machine allowed clock works endings count) :
    ∀ work ∈ works, work.broken? = none := by
  intro work inside
  obtain ⟨place, there⟩ := List.mem_iff_getElem?.mp inside
  obtain ⟨_, _, _, heads⟩ := all.ending there
  cases work with
  | broken defect => exact absurd heads Work.HeadsFor.unbroken
  | _ => rfl

/-- Until the failure that comes first in their order, many works wait for a member up to it. -/
theorem Leftmost.looks {failure : Failure} {moment : Nat}
    (leftmost : Leftmost endings place failure moment)
    (all : AllHeadFor machine allowed clock works endings count) :
    ∃ before work after, works = before ++ work :: after ∧ before.length ≤ place ∧
      (∀ other ∈ before, ∃ value, other = .done (.ok value)) ∧ work.value? = none ∧
      (works.dropWhile (·.value?.isSome)).head? = some work := by
  obtain ⟨failing, _, there, heads⟩ := all.work leftmost.there
  have valueless (value : Value) : failing ≠ .done (.ok value) := by
    rintro rfl
    cases heads.done.1
  rcases Work.exists_first works with valued | found
  · obtain ⟨value, same⟩ := valued failing (List.mem_of_getElem? there)
    exact absurd same (valueless value)
  · obtain ⟨before, work, after, rfl, valued, none, head⟩ := found
    refine ⟨before, work, after, rfl, ?_, valued, none, head⟩
    by_contra past
    rw [List.getElem?_append_left (Nat.lt_of_not_le past)] at there
    obtain ⟨value, same⟩ := valued failing (List.mem_of_getElem? there)
    exact valueless value same

theorem le_lastMoment_take {ending : Ending} {other : Nat} (there : endings[other]? = some ending)
    (upto : other ≤ place) : ending.moment ≤ lastMoment (endings.take (place + 1)) := by
  refine le_lastMoment (List.mem_of_getElem? (i := other) ?_)
  rw [List.getElem?_take_of_lt (Nat.lt_succ_of_le upto)]
  exact there

/-- Of many, the failure that comes first in their order decides, once all up to it have ended. -/
theorem Decides.leftmost {shape : Shape} {failure : Failure} {moment : Nat}
    (leftmost : Leftmost endings place failure moment)
    (many : Work.gatheredAtOnce < endings.length) :
    Decides machine allowed shape endings
      ⟨.error failure, lastMoment (endings.take (place + 1))⟩ where
  spoiled := by
    intro clock works count failed all early _ spoiled
    obtain ⟨before, work, after, rfl, upto, valued, _, head⟩ := leftmost.looks all
    rw [Work.spoiled?_of_many (all.length ▸ many) all.unbroken, head, Option.bind_some] at spoiled
    obtain ⟨ending, _, ends, heads⟩ := all.ending (getElem?_middle before work after)
    obtain ⟨failure', rfl, same, late⟩ := heads.failed spoiled
    rcases Nat.eq_or_lt_of_le upto with rfl | less
    · cases leftmost.there.symm.trans ends
      cases same
      refine ⟨rfl, Nat.le_antisymm early (lastMoment_le fun other inside => ?_)⟩
      obtain ⟨place, there⟩ := List.mem_iff_getElem?.mp inside
      have below : place < before.length + 1 :=
        (List.getElem?_eq_some_iff.mp there).1.trans_le (List.length_take_le _ _)
      rw [List.getElem?_take_of_lt below] at there
      rcases Nat.lt_succ_iff_lt_or_eq.mp below with less | rfl
      · obtain ⟨value, same⟩ := valued before[place] (List.getElem_mem less)
        have found : (before ++ work :: after)[place]? = some (.done (.ok value)) := by
          rw [List.getElem?_append_left less, List.getElem?_eq_getElem less, same]
        exact (all.value found there).2
      · cases there.symm.trans ends
        exact late
    · obtain ⟨value, _, has⟩ := leftmost.before _ less
      cases has.symm.trans ends
      cases same
  collected := by
    intro clock works count values all _ collected
    obtain rfl := Work.eq_map_of_collected collected
    exact absurd rfl (unfailed_of_values all.values.1 (List.mem_of_getElem? leftmost.there) failure)
  waits := by
    intro clock works count all whole _
    obtain ⟨before, work, after, rfl, upto, valued, none, head⟩ := leftmost.looks all
    rw [Work.spoiled?_of_many (all.length ▸ many) all.unbroken, head, Option.bind_some] at whole
    have there := getElem?_middle before work after
    obtain ⟨ending, _, ends, heads⟩ := all.ending there
    refine ⟨before.length, work, ending, there, ends, ?_, le_lastMoment_take ends upto⟩
    cases work with
    | done outcome =>
        cases outcome with
        | ok value => cases none
        | error failure => cases whole
    | broken defect => exact absurd heads Work.HeadsFor.unbroken
    | _ => rfl

theorem Earliest.head {failure : Failure} {moment : Nat}
    (least : ∀ ending ∈ endings, ∀ failure, ending.outcome = .error failure →
      moment ≤ ending.moment) : Earliest (⟨.error failure, moment⟩ :: endings) 0 failure moment := by
  refine ⟨rfl, fun other failure' moment' there => ?_⟩
  cases other with
  | zero =>
      cases there
      exact ⟨Nat.le_refl _, nofun⟩
  | succ other => exact ⟨least _ (List.mem_of_getElem? there) failure' rfl, nofun⟩

theorem Earliest.behind {failure : Failure} {moment : Nat}
    (earliest : Earliest endings place failure moment) {first : Ending}
    (later : ∀ failure, first.outcome = .error failure → moment < first.moment) :
    Earliest (first :: endings) (place + 1) failure moment := by
  refine ⟨earliest.there, fun other failure' moment' there => ?_⟩
  cases other with
  | zero =>
      cases there
      exact ⟨Nat.le_of_lt (later failure' rfl), fun _ => later failure' rfl⟩
  | succ other =>
      obtain ⟨least, sooner⟩ := earliest.first other failure' moment' there
      exact ⟨least, fun less => sooner (Nat.lt_of_succ_lt_succ less)⟩

theorem Leftmost.behind {failure : Failure} {moment : Nat}
    (leftmost : Leftmost endings place failure moment) (value : Value) (moment' : Nat) :
    Leftmost (⟨.ok value, moment'⟩ :: endings) (place + 1) failure moment := by
  refine ⟨leftmost.there, fun other less => ?_⟩
  cases other with
  | zero => exact ⟨value, moment', rfl⟩
  | succ other => exact leftmost.before other (Nat.lt_of_succ_lt_succ less)

/-- All have values, or there is an earliest failure and one that comes first in the order. -/
theorem exists_failures (endings : List Ending) :
    (∃ values : List Value, endings.map Ending.outcome = values.map Except.ok) ∨
    (∃ place failure moment, Earliest endings place failure moment) ∧
      ∃ place failure moment, Leftmost endings place failure moment := by
  induction endings with
  | nil => exact .inl ⟨[], rfl⟩
  | cons first endings ih =>
      obtain ⟨outcome, moment⟩ := first
      cases outcome with
      | ok value =>
          refine ih.imp (fun all => ?_) (And.imp (fun some => ?_) fun some => ?_)
          · obtain ⟨values, same⟩ := all
            exact ⟨value :: values, congrArg (_ :: ·) same⟩
          · obtain ⟨place, failure, least, earliest⟩ := some
            exact ⟨_, failure, least, earliest.behind nofun⟩
          · obtain ⟨place, failure, its, leftmost⟩ := some
            exact ⟨_, failure, its, leftmost.behind value moment⟩
      | error failure =>
          refine .inr ⟨?_, 0, failure, moment, rfl, nofun⟩
          rcases ih with ⟨values, same⟩ | ⟨⟨place, other, least, earliest⟩, _⟩
          · exact ⟨0, failure, moment, .head fun ending inside _ fails =>
              absurd fails (unfailed_of_values same inside _)⟩
          · rcases Nat.lt_or_ge least moment with less | more
            · exact ⟨_, other, least, earliest.behind fun _ _ => less⟩
            · refine ⟨0, failure, moment, .head fun ending inside _ fails => ?_⟩
              obtain ⟨place, there⟩ := List.mem_iff_getElem?.mp inside
              obtain ⟨outcome, moment'⟩ := ending
              subst fails
              exact more.trans (earliest.first place _ moment' there).1

/-- What works come to when they are gathered, if by themselves they come to these endings: to their
values when all have one, or else to a failure. Of few it is the earliest. Of more than are gathered
at once it is the one that comes first in their order, when it and all before it are there. -/
inductive EndsTogether (shape : Shape) (endings : List Ending) : Ending → Prop
  | values {values : List Value} : endings.map Ending.outcome = values.map Except.ok →
      EndsTogether shape endings ⟨.ok (shape.collect values), lastMoment endings⟩
  | earliest {place : Nat} {failure : Failure} {moment : Nat} :
      endings.length ≤ Work.gatheredAtOnce → Earliest endings place failure moment →
      EndsTogether shape endings ⟨.error failure, moment⟩
  | leftmost {place : Nat} {failure : Failure} {moment : Nat} :
      Work.gatheredAtOnce < endings.length → Leftmost endings place failure moment →
      EndsTogether shape endings ⟨.error failure, lastMoment (endings.take (place + 1))⟩

theorem exists_endsTogether (shape : Shape) (endings : List Ending) :
    ∃ ending, EndsTogether shape endings ending := by
  rcases exists_failures endings with ⟨values, same⟩ | ⟨⟨_, _, _, early⟩, _, _, _, left⟩
  · exact ⟨_, .values same⟩
  · rcases Nat.lt_or_ge Work.gatheredAtOnce endings.length with many | few
    · exact ⟨_, .leftmost many left⟩
    · exact ⟨_, .earliest few early⟩

theorem EndsTogether.decides {shape : Shape} {ending : Ending}
    (ends : EndsTogether shape endings ending) : Decides machine allowed shape endings ending := by
  cases ends with
  | values have' => exact .values have'
  | earliest few early => exact .earliest early few
  | leftmost many left => exact .leftmost left many

/-! A member that fails before the clock moves, with those before it that do not. -/

/-- No member fails by the moment. -/
def NoneFails (clock : Nat) (endings : List Ending) : Prop :=
  ∀ ending ∈ endings, ∀ failure, ending.outcome = .error failure → clock < ending.moment

theorem AllHeadFor.fine (all : AllHeadFor machine allowed clock works endings count)
    (none : NoneFails clock endings) : ∀ work ∈ works, work.failed? = .none := by
  intro work inside
  obtain ⟨place, there⟩ := List.mem_iff_getElem?.mp inside
  obtain ⟨ending, _, ends, heads⟩ := all.ending there
  cases fails : work.failed? with
  | none => rfl
  | some failed =>
      obtain ⟨failure, _, same, late⟩ := heads.failed fails
      exact absurd (none ending (List.mem_of_getElem? ends) failure same) (Nat.not_lt_of_le late)

/-- With what stands behind them the works come to others, logging that much, before any of those
behind has moved. -/
def Rushes (machine : Machine) (clock : Nat) (works others : List Work) (log : List Logged) :
    Prop :=
  ∀ (shape : Shape) (work : Work) (behind : List Work), work.ended? = none →
    (∀ other ∈ behind, other.failed? = none) → ∀ {told outcome moment count},
    (Work.gather shape (others ++ work :: behind)).Finishes machine clock told outcome moment
      count →
    ∃ count, (Work.gather shape (works ++ work :: behind)).Finishes machine clock (log ++ told)
      outcome moment count

/-- Members of which none fails come as far as they can at the moment. -/
theorem AllHeadFor.rushes (idle : machine.Idle allowed) (none : NoneFails clock endings) :
    ∀ {count : Nat} {works : List Work},
      AllHeadFor machine allowed clock works endings count →
      ∃ others log count, AllHeadFor machine allowed clock others endings count ∧
        (∀ work ∈ others, machine.step? (.bare clock) work = .none) ∧
        Rushes machine clock works others log := by
  intro count
  induction count using Nat.strong_induction_on with
  | _ count ih =>
      intro works all
      rcases Machine.stepFirst?_cases machine (.bare clock) works (.gather .results) with
        found | still
      · obtain ⟨before, member, after, change, rfl, still, moved, _⟩ := found
        obtain ⟨fewer, less, all'⟩ := all.move idle moved
        obtain ⟨others, log, count, all', stays, rush⟩ := ih fewer less all'
        refine ⟨others, change.events.map (⟨clock, ·⟩) ++ log, count, all', stays, ?_⟩
        intro shape work behind going fine told outcome moment _ finishes
        obtain ⟨moves, finishes⟩ := rush shape work behind going fine finishes
        obtain ⟨fine', fine''⟩ := List.forall_mem_append.mp (all.fine none)
        have unfailed : work.failed? = .none := by
          cases work with
          | done outcome => cases going
          | broken defect => cases going
          | _ => rfl
        have rest : ∀ other ∈ before ++ (after ++ work :: behind), other.failed? = .none :=
          List.forall_mem_append.mpr ⟨fine', List.forall_mem_append.mpr
            ⟨(List.forall_mem_cons.mp fine'').2, List.forall_mem_cons.mpr ⟨unfailed, fine⟩⟩⟩
        rw [List.append_assoc, List.cons_append] at finishes
        rw [List.append_assoc, List.append_assoc, List.cons_append]
        exact ⟨_, .within (Work.step?_gather before moved still rest) finishes⟩
      · exact ⟨works, [], count, all, Machine.stepFirst?_eq_none still,
          fun _ _ _ _ _ {_ _ _ count} finishes => ⟨count, finishes⟩⟩

/-- What spoils a gathering is the first failure, if few are gathered or all before have values. -/
theorem Work.spoiled?_of_first {before behind : List Work} {failure : Failure}
    (fine : ∀ work ∈ before ++ behind, work.failed? = none)
    (looks : (before ++ .done (.error failure) :: behind).length ≤ gatheredAtOnce ∨
      ∀ work ∈ before, ∃ value, work = .done (.ok value)) :
    spoiled? (before ++ .done (.error failure) :: behind) = some (.done (.error failure)) := by
  obtain ⟨first, rest⟩ := List.forall_mem_append.mp fine
  by_cases few : (before ++ Work.done (.error failure) :: behind).length ≤ gatheredAtOnce
  · rw [spoiled?, if_pos few]
    exact List.findSome?_eq_some_iff.mpr ⟨before, _, behind, rfl, rfl, first⟩
  · have valued := looks.resolve_left few
    rw [spoiled?_of_many (Nat.lt_of_not_le few), List.dropWhile_append_of_pos]
    · rfl
    · intro work inside
      obtain ⟨value, rfl⟩ := valued work inside
      rfl
    · exact List.forall_mem_append.mpr ⟨fun work inside => broken?_of_failed? (first work inside),
        List.forall_mem_cons.mpr ⟨rfl, fun work inside => broken?_of_failed? (rest work inside)⟩⟩

/-- When those before it have come as far as they can, a member that fails at once is the next to
move, and ends the gathering. -/
theorem Work.Finishes.at_once {before behind : List Work} {work : Work} {log : List Logged}
    {failure : Failure} {moment : Nat} {outcome : Outcome}
    (finishes : work.Finishes machine clock log outcome moment count) (now : moment = clock)
    (fails : outcome = .error failure)
    (still : ∀ work ∈ before, machine.step? (.bare clock) work = none)
    (fine : ∀ work ∈ before ++ behind, work.failed? = none) (shape : Shape)
    (looks : (before ++ work :: behind).length ≤ gatheredAtOnce ∨
      ∀ work ∈ before, ∃ value, work = .done (.ok value)) :
    ∃ count, (gather shape (before ++ work :: behind)).Finishes machine clock log outcome moment
      count := by
  induction finishes with
  | @now clock =>
      subst fails
      have moved : machine.step? (.bare clock)
          (gather shape (before ++ .done (.error failure) :: behind)) =
          some (.become (.done (.error failure))) := by
        rw [Machine.step?, spoiled?_of_first fine looks]
      exact ⟨1, .move moved .now⟩
  | move moved rest ih =>
      rw [List.length_append, List.length_cons] at looks
      obtain ⟨moves, finishes⟩ := ih now fails still (by rwa [List.length_append, List.length_cons])
      exact ⟨_, .within (step?_gather before moved still fine) finishes⟩
  | rest _ less _ _ rest =>
      exact absurd (Nat.lt_of_lt_of_le less rest.le) (now ▸ Nat.lt_irrefl _)

/-- A member that fails at once ends the gathering at once, if few are gathered or all before it
have values by then. What is logged until then is the same whatever stands behind it. -/
theorem AllHeadFor.at_once (idle : machine.Idle allowed)
    (all : AllHeadFor machine allowed clock works endings count) (none : NoneFails clock endings)
    {work : Work} {told : List Logged} {failure : Failure} {moves : Nat}
    (going : work.ended? = .none)
    (finishes : work.Finishes machine clock told (.error failure) clock moves) :
    ∃ log, ∀ (shape : Shape) (behind : List Work), (∀ other ∈ behind, other.failed? = .none) →
      (endings.length + 1 + behind.length ≤ Work.gatheredAtOnce ∨ ∀ ending ∈ endings,
        ∃ value, ending.outcome = .ok value ∧ ending.moment ≤ clock) →
      ∃ count, (Work.gather shape (works ++ work :: behind)).Finishes machine clock log
        (.error failure) clock count := by
  obtain ⟨others, log, _, all', still, rush⟩ := all.rushes idle none
  refine ⟨log ++ told, fun shape behind fine looks => ?_⟩
  have first := all'.fine none
  have looks : (others ++ work :: behind).length ≤ Work.gatheredAtOnce ∨
      ∀ other ∈ others, ∃ value, other = .done (.ok value) := by
    refine looks.imp (fun few => ?_) fun values other inside => ?_
    · rw [List.length_append, List.length_cons, ← all'.length]
      omega
    · obtain ⟨place, there⟩ := List.mem_iff_getElem?.mp inside
      obtain ⟨ending, _, ends, heads⟩ := all'.ending there
      obtain ⟨value, same, late⟩ := values ending (List.mem_of_getElem? ends)
      exact ⟨value, same ▸ heads.past (still other inside) late⟩
  obtain ⟨count, ends⟩ := finishes.at_once rfl rfl still
    (List.forall_mem_append.mpr ⟨first, fine⟩) shape looks
  exact rush shape work behind going fine ends

end

end Runbook
