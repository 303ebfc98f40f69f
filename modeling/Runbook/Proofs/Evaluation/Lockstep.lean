import Runbook.Proofs.Evaluation.AlikeSetUp

/-!
Two like works go on in like ways.

In each of two runs a work waits for paired tasks, which have ended in both or in none, and for
moments, which have come in both or in none. Then both works can move or none can; where the clocks
agree too, they become like works, and the tasks that they start are paired.
-/
namespace Runbook

/-- A change begins the entry of that number at that place of a work. -/
def Begun (work : Work) (change : Change) (place : List Nat) (index : Nat) (entries : List Entry) :
    Prop :=
  ∃ frame value after, work.part? place = some (.body frame (.done (.ok value)) index entries) ∧
    change.work.part? place = some after ∧ after ≠ .body frame (.done (.ok value)) index entries

/-- What is asked of two machines, so that their works go on in like ways. Entries that are like are
set up in like ways where `begins` is so of the numbers of the tasks that are started next. -/
structure Likeness.Lawful (like : Likeness)
    (begins : Nat → List Entry → List Entry → Nat → Nat → Prop) (machine machine' : Machine) :
    Prop where
  routines : ∀ callee, Option.Rel
    (fun routine routine' : Routine => routine.procedure = routine'.procedure ∧
      routine.parameters = routine'.parameters ∧
      like.entries 0 routine.sequence routine'.sequence)
    (machine.library.get? callee) (machine'.library.get? callee)
  last : ∀ {index entries}, like.entries index [] entries → entries = []
  next : ∀ {index entry entries others}, like.entries index (entry :: entries) others →
    ∃ entry' entries', others = entry' :: entries' ∧ like.entries (index + 1) entries entries'
  begin : ∀ {index entry entries entry' entries' ground pairs one other}, ground.like = like →
    (∀ task, ground.whole₁ task ∨ ground.whole₂ task → like.whole) →
    like.entries index (entry :: entries) (entry' :: entries') →
    begins index (entry :: entries) (entry' :: entries') one.next other.next →
    (∀ rest, Seen like.shared rest →
      SetUp.State.Alike ground like.shared rest pairs one other) →
    SetUp.Agree ground like.shared pairs
      (setUpEntry machine.registry index entries.isEmpty entry)
      (setUpEntry machine'.registry index entries'.isEmpty entry') one other []
      fun later => Work.Alike like later

/-- Two worlds before like works move in them. -/
def World.ground (like : Likeness) (pairs : Pairing) (world world' : World) : Ground where
  like := like
  pairs := pairs
  ones := world.tasks
  others := world'.tasks
  first₁ := world.tasks.length
  first₂ := world'.tasks.length
  whole₁ task := like.whole ∧ world.tasks.length ≤ task
  whole₂ task := like.whole ∧ world'.tasks.length ≤ task

/-- Two changes of like works make like works of them. -/
structure Change.Alike (ground : Ground) (pairs : Pairing) (one other : Change) : Prop where
  grown : ground.Grown pairs one.started other.started
  work : one.work.Alike ground.like pairs other.work
  told : told one.events = told other.events

/-- A task that a part of the work races against one which outruns it has not ended. -/
def Work.Calm (outruns : TaskId → TaskId → Prop) (world : World) (work : Work) : Prop :=
  ∀ place left right, work.part? place = some (.race left right) →
    (outruns left right → world.tasks[right]?.bind Work.ended? = none) ∧
      (outruns right left → world.tasks[left]?.bind Work.ended? = none)

/-- Two works wait in two worlds for what has come in both or in none. -/
structure Work.Timely (like : Likeness) (world world' : World) (one other : Work) : Prop where
  calm₁ : one.Calm like.outruns₁ world
  calm₂ : other.Calm like.outruns₂ world'
  wakes : ∀ moment ∈ one.wakes, moment ≤ world.clock ↔ moment ≤ world'.clock

/-- Where both changes begin an entry, `begins` is so of the tasks that are started next. -/
def Permitted (begins : Nat → List Entry → List Entry → Nat → Nat → Prop) (world world' : World)
    (one : Work) (change : Change) (other : Work) (change' : Change) : Prop :=
  ∀ place index entries entries', Begun one change place index entries →
    Begun other change' place index entries' →
      begins index entries entries' world.tasks.length world'.tasks.length

theorem Work.wakes_inner {work part : Work} {index : Nat} (there : work.inner? index = some part) :
    part.wakes ⊆ work.wakes := by
  cases work with
  | gather shape members =>
      change members[index]? = some part at there
      rw [wakes]
      intro moment inside
      exact mem_wakesOfAll.mpr ⟨part, List.mem_of_getElem? there, inside⟩
  | after source next =>
      cases index with
      | zero =>
          cases there
          exact fun _ inside => inside
      | succ index => cases there
  | body frame current number entries =>
      cases index with
      | zero =>
          cases there
          exact fun _ inside => inside
      | succ index => cases there
  | _ => cases index <;> cases there

section
variable {like : Likeness} {world world' : World} {one other part part' : Work} {index : Nat}
  {begins : Nat → List Entry → List Entry → Nat → Nat → Prop}

theorem Work.Calm.inner {outruns : TaskId → TaskId → Prop} (calm : one.Calm outruns world)
    (there : one.inner? index = some part) : part.Calm outruns world := by
  intro place left right found
  refine calm (index :: place) left right ?_
  rw [part?, there]
  exact found

theorem Work.Timely.inner (timely : Timely like world world' one other)
    (there : one.inner? index = some part) (there' : other.inner? index = some part') :
    Timely like world world' part part' where
  calm₁ := timely.calm₁.inner there
  calm₂ := timely.calm₂.inner there'
  wakes moment inside := timely.wakes moment (Work.wakes_inner there inside)

theorem Begun.inner {change : Change} {context : Work → Work} {place : List Nat} {number : Nat}
    {entries : List Entry} (there : one.inner? index = some part)
    (later : (context change.work).inner? index = some change.work)
    (begun : Begun part change place number entries) :
    Begun one (change.within context) (index :: place) number entries := by
  obtain ⟨frame, value, after, before, moved, differs⟩ := begun
  refine ⟨frame, value, after, ?_, ?_, differs⟩
  · rw [Work.part?, there]
    exact before
  · rw [Change.within, Work.part?, later]
    exact moved

theorem Permitted.inner {change change' : Change} {context context' : Work → Work}
    (permitted : Permitted begins world world' one (change.within context) other
      (change'.within context'))
    (there : one.inner? index = some part) (there' : other.inner? index = some part')
    (later : (context change.work).inner? index = some change.work)
    (later' : (context' change'.work).inner? index = some change'.work) :
    Permitted begins world world' part change part' change' :=
  fun place number entries entries' begun begun' =>
    permitted (index :: place) number entries entries' (begun.inner there later)
      (begun'.inner there' later')

end

theorem forall₂_set {α β : Type} {same : α → β → Prop} {ones : List α} {others : List β}
    (all : List.Forall₂ same ones others) (index : Nat) {one : α} {other : β}
    (here : same one other) : List.Forall₂ same (ones.set index one) (others.set index other) := by
  induction all generalizing index with
  | nil => exact .nil
  | cons first rest ih =>
      cases index with
      | zero => exact .cons here rest
      | succ index => exact .cons first (ih index)

namespace Change.Alike

variable {ground : Ground} {pairs : Pairing}

theorem still {work work' : Work} {events events' : List Event} {met met' : Option TaskId}
    (grown : ground.Grown pairs [] []) (alike : work.Alike ground.like pairs work')
    (same : Runbook.told events = Runbook.told events') :
    Change.Alike ground pairs ⟨work, [], events, met⟩ ⟨work', [], events', met'⟩ :=
  ⟨grown, alike, same⟩

theorem within {one other : Change} {context context' : Work → Work}
    (alike : Change.Alike ground pairs one other)
    (holds : (context one.work).Alike ground.like pairs (context' other.work)) :
    Change.Alike ground pairs (one.within context) (other.within context') :=
  ⟨alike.grown, holds, alike.told⟩

theorem meeting {one other : Change} (alike : Change.Alike ground pairs one other)
    (task task' : TaskId) : Change.Alike ground pairs (one.meeting task) (other.meeting task') :=
  ⟨alike.grown, alike.work, alike.told⟩

end Change.Alike

namespace Machine

variable {machine machine' : Machine} {world world' : World} {like : Likeness} {pairs : Pairing}
  {begins : Nat → List Entry → List Entry → Nat → Nat → Prop}

/-- Works can move both or neither; `Moved` is what becomes of them then. -/
def Moved (begins : Nat → List Entry → List Entry → Nat → Nat → Prop) (like : Likeness)
    (pairs : Pairing) (world world' : World) (one other : Work) (change change' : Change) : Prop :=
  world.clock = world'.clock → Permitted begins world world' one change other change' →
    ∃ later, Change.Alike (world.ground like pairs world') later change change'

/-- Routines that are like are entered in like ways. -/
theorem enter_alike {ground : Ground} {routine routine' : Routine} (value : Value)
    (grown : ground.Grown pairs [] []) (named : routine.procedure = routine'.procedure)
    (takes : routine.parameters = routine'.parameters)
    (entries : ground.like.entries 0 routine.sequence routine'.sequence) :
    Change.Alike ground pairs (enter routine value) (enter routine' value) := by
  obtain ⟨procedure, parameters, sequence, library⟩ := routine
  obtain ⟨procedure', parameters', sequence', library'⟩ := routine'
  obtain rfl : procedure = procedure' := named
  obtain rfl : parameters = parameters' := takes
  rw [enter, enter]
  split
  · exact .still grown (.body 0 .nil (.done _) entries) rfl
  · dsimp only
    split
    · rename_i values _ _
      obtain ⟨own, frames⟩ := BindingsAlike.parameters (parameters.zip values)
      exact .still grown (.body 0 frames (.done _) entries) rfl
    · exact .still grown (.done _) rfl

theorem goOn_alike {ground : Ground} (lawful : ground.like.Lawful begins machine machine')
    (grown : ground.Grown pairs [] []) (clock : Nat) (value : Value) (next : Continuation) :
    Change.Alike ground pairs (machine.goOn clock value next) (machine'.goOn clock value next) := by
  have performed (primitive : Primitive) (events : List Event) :
      Change.Alike ground pairs (goOn.perform clock value primitive events)
        (goOn.perform clock value primitive events) := by
    rw [goOn.perform]
    split
    · exact .still grown (.done _) rfl
    · exact .still grown (.sleep _ _) rfl
  cases next with
  | pick names place =>
      rw [goOn, goOn]
      split
      · exact .still grown (.done _) rfl
      · exact .still grown (.done _) rfl
  | call callee =>
      have same := lawful.routines callee
      rw [goOn, goOn]
      generalize machine.library.get? callee = found at same ⊢
      generalize machine'.library.get? callee = found' at same ⊢
      cases same with
      | none => exact .still grown (.broken _ _) rfl
      | some same => exact enter_alike value grown same.1 same.2.1 same.2.2
  | invoke primitive => exact performed primitive _
  | join primitive => exact performed primitive _

theorem race_alike {left right left' right' : Option Work}
    (first : Option.Rel (Work.Alike like pairs) (left.bind Work.ended?) (left'.bind Work.ended?))
    (second : Option.Rel (Work.Alike like pairs) (right.bind Work.ended?)
      (right'.bind Work.ended?)) :
    Option.Rel (Work.Alike like pairs) (race left right) (race left' right') := by
  rw [race, race]
  generalize left.bind Work.ended? = one at first ⊢
  generalize left'.bind Work.ended? = one' at first ⊢
  generalize right.bind Work.ended? = other at second ⊢
  generalize right'.bind Work.ended? = other' at second ⊢
  -- what has ended first in one run has done so in the other, and both make the same of it
  cases first with
  | some alike =>
      have same := alike
      cases alike with
      | done outcome =>
          cases outcome with
          | ok value => exact .some (.done _)
          | error failure => exact .some same
      | _ => exact .some same
  | none =>
      cases second with
      | some alike =>
          have same := alike
          cases alike with
          | done outcome =>
              cases outcome with
              | ok value => exact .some (.done _)
              | error failure => exact .some same
          | _ => exact .some same
      | none => exact .none

/-- A paired task has ended in both runs or in none. -/
theorem ended?_paired (grown : (world.ground like pairs world').Grown pairs [] [])
    {task task' : TaskId} (paired : (task, task') ∈ pairs) :
    Option.Rel (Work.Alike like pairs) (world.tasks[task]?.bind Work.ended?)
      (world'.tasks[task']?.bind Work.ended?) := by
  obtain ⟨one, other, there, there', alike⟩ := grown.works _ paired
  change (world.tasks ++ [])[task]? = _ at there
  change (world'.tasks ++ [])[task']? = _ at there'
  rw [List.append_nil] at there there'
  rw [there, there']
  exact alike.ended?

theorem settle_alike (grown : (world.ground like pairs world').Grown pairs [] [])
    {task task' count : Nat} {bindings bindings' : List (TaskId × Nat)} (result : Value)
    (paired : (task, task') ∈ pairs) (settles : List.Forall₂ pairs.Settles bindings bindings') :
    Option.Rel (Change.Alike (world.ground like pairs world') pairs)
      (world.tasks[task]?.bind (settle count bindings result))
      (world'.tasks[task']?.bind (settle count bindings' result)) := by
  obtain ⟨one, other, there, there', alike⟩ := grown.works _ paired
  change (world.tasks ++ [])[task]? = _ at there
  change (world'.tasks ++ [])[task']? = _ at there'
  rw [List.append_nil] at there there'
  rw [there, there', Option.bind_some, Option.bind_some]
  cases alike with
  | done outcome =>
      cases outcome with
      | ok value =>
          rw [settle, settle]
          split
          · exact .some (.still grown (.settle result settles) rfl)
          · exact .some (.still grown (.done _) rfl)
      | error failure => exact .some (.still grown (.done _) rfl)
  | broken first second => exact .some (.still grown (.broken _ _) rfl)
  | _ => exact .none

theorem begin_begun (machine : Machine) (frame : Frame) (value : Value) (index : Nat) (entry : Entry)
    (entries : List Entry) (next : TaskId) :
    Begun (.body frame (.done (.ok value)) index (entry :: entries))
      (machine.begin next frame index entry entries) [] index (entry :: entries) := by
  refine ⟨frame, value, _, rfl, rfl, ?_⟩
  rw [begin]
  split
  · intro same
    injection same with _ _ number _
    exact Nat.succ_ne_self index number
  · intro same
    cases same

/-- Like entries are begun in like ways. -/
theorem begin_alike (lawful : like.Lawful begins machine machine')
    (grown : (world.ground like pairs world').Grown pairs [] []) {frame frame' : Frame}
    {own : List Name} {index : Nat} {entry entry' : Entry} {entries entries' : List Entry}
    (frames : BindingsAlike pairs like.shared own frame.bindings frame'.bindings)
    (same : like.entries index (entry :: entries) (entry' :: entries'))
    (later : like.entries (index + 1) entries entries')
    (begins : begins index (entry :: entries) (entry' :: entries') world.tasks.length
      world'.tasks.length) :
    ∃ later, Change.Alike (world.ground like pairs world') later
      (machine.begin world.tasks.length frame index entry entries)
      (machine'.begin world'.tasks.length frame' index entry' entries') := by
  have agree : SetUp.Agree (world.ground like pairs world') like.shared pairs
      (setUpEntry machine.registry index entries.isEmpty entry)
      (setUpEntry machine'.registry index entries'.isEmpty entry')
      ⟨frame, world.tasks.length, [], []⟩ ⟨frame', world'.tasks.length, [], []⟩ []
      fun later => Work.Alike like later :=
    lawful.begin rfl (fun _ whole => whole.elim And.left And.left) same begins fun rest reads =>
      ⟨⟨like.shared, own, fun _ => id, reads, frames⟩,
        (congrArg List.length (List.append_nil _)).symm,
        (congrArg List.length (List.append_nil _)).symm, grown, rfl⟩
  obtain ⟨pairs, result, after, result', after', _, run, run', grown, told, rest⟩ := agree
  refine ⟨pairs, ?_⟩
  rw [begin, begin, run, run']
  cases result with
  | error defect =>
      cases result' with
      | error defect' => exact ⟨grown, .broken _ _, told⟩
      | ok work' => exact rest.elim
  | ok work =>
      cases result' with
      | error defect' => exact rest.elim
      | ok work' =>
          obtain ⟨⟨⟨seen, own, sees, _, frames⟩, _, _, _, _⟩, alike⟩ := rest
          exact ⟨grown, .body _ (frames.mono (List.Subset.refl _) sees) alike later, told⟩

/-- Of works in a context the first that can move does. If those of two lists can move at the same
places, it is the same one in both. -/
theorem stepFirst?_rel {ones others : List Work} {context context' : List Work → Work}
    {same : Work → Work → Change → Change → Prop}
    (all : List.Forall₂ (fun one other => Option.Rel (same one other) (step? machine world one)
      (step? machine' world' other)) ones others) :
    (stepFirst? machine world context ones = none ∧
      stepFirst? machine' world' context' others = none) ∨
    ∃ index one other change change', ones[index]? = some one ∧ others[index]? = some other ∧
      same one other change change' ∧
      stepFirst? machine world context ones =
        some (change.within fun work => context (ones.set index work)) ∧
      stepFirst? machine' world' context' others =
        some (change'.within fun work => context' (others.set index work)) := by
  induction all generalizing context context' with
  | nil => exact .inl ⟨rfl, rfl⟩
  | @cons one other ones others first _ ih =>
      rw [stepFirst?, stepFirst?]
      cases moved : step? machine world one with
      | some change =>
          cases moved' : step? machine' world' other with
          | some change' =>
              rw [moved, moved'] at first
              cases first with
              | some same =>
                  exact .inr ⟨0, one, other, change, change', rfl, rfl, same, rfl, rfl⟩
          | none =>
              rw [moved, moved'] at first
              cases first
      | none =>
          cases moved' : step? machine' world' other with
          | some change' =>
              rw [moved, moved'] at first
              cases first
          | none =>
              rcases ih with none | ⟨index, found⟩
              · exact .inl none
              · exact .inr ⟨index + 1, found⟩

theorem rel_map {α β γ δ : Type} {same : α → β → Prop} {later : γ → δ → Prop} {f : α → γ}
    {g : β → δ} {one : Option α} {other : Option β} (rel : Option.Rel same one other)
    (holds : ∀ {a b}, same a b → later (f a) (g b)) :
    Option.Rel later (one.map f) (other.map g) := by
  cases rel with
  | none => exact .none
  | some same => exact .some (holds same)

mutual

/-- Like works, which wait for what has come in both worlds or in none, can move both or neither,
and become like works. -/
theorem step?_alike (lawful : like.Lawful begins machine machine')
    (grown : (world.ground like pairs world').Grown pairs [] []) : ∀ (one : Work) {other : Work},
    one.Alike like pairs other → one.Timely like world world' other →
      Option.Rel (Moved begins like pairs world world' one other) (step? machine world one)
        (step? machine' world' other)
  | .done _, _, alike, _ => by
      cases alike
      exact .none
  | .broken _, _, alike, _ => by
      cases alike
      exact .none
  | .fresh _, _, alike, _ => by
      cases alike with
      | fresh same => exact .some fun _ _ => ⟨pairs, .still grown same rfl⟩
  | .wait task, _, alike, _ => by
      cases alike with
      | wait paired =>
          rw [step?, step?]
          exact rel_map (ended?_paired grown paired) fun same _ _ =>
            ⟨pairs, (Change.Alike.still grown same rfl).meeting _ _⟩
  | .race left right, _, alike, timely => by
      have decided {left' right' : TaskId}
          (won : Option.Rel (Work.Alike like pairs) (race world.tasks[left]? world.tasks[right]?)
            (race world'.tasks[left']? world'.tasks[right']?)) :
          Option.Rel (Moved begins like pairs world world' (.race left right) (.race left' right'))
            (step? machine world (.race left right)) (step? machine' world' (.race left' right')) := by
        rw [step?, step?]
        exact rel_map won fun same _ _ => ⟨pairs, .still grown same rfl⟩
      have calm := timely.calm₁ [] left right rfl
      cases alike with
      | race first second =>
          exact decided (race_alike (ended?_paired grown first) (ended?_paired grown second))
      | @raceLeft _ _ left' right' first outruns outruns' =>
          have calm' := timely.calm₂ [] left' right' rfl
          refine decided (race_alike (ended?_paired grown first) ?_)
          rw [calm.1 outruns, calm'.1 outruns']
          exact .none
      | @raceRight _ _ left' right' second outruns outruns' =>
          have calm' := timely.calm₂ [] left' right' rfl
          refine decided (race_alike ?_ (ended?_paired grown second))
          rw [calm.2 outruns, calm'.2 outruns']
          exact .none
  | .sleep wake outcome, _, alike, timely => by
      cases alike
      have come := timely.wakes wake (List.mem_singleton.mpr rfl)
      rw [step?, step?]
      by_cases now : wake ≤ world.clock
      · rw [if_pos now, if_pos (come.mp now)]
        exact .some fun _ _ => ⟨pairs, .still grown (.done _) rfl⟩
      · rw [if_neg now, if_neg fun there => now (come.mpr there)]
        exact .none
  | .after source next, _, alike, timely => by
      cases alike with
      | @after _ source' _ same =>
          by_cases going : source.ended? = none
          · have going' := same.ended?_eq_none going
            rw [step?_after next going, step?_after next going']
            have inside : (Work.after source next).inner? 0 = some source := rfl
            refine rel_map (step?_alike lawful grown source same (timely.inner inside rfl)) ?_
            intro change change' moved clocks permitted
            obtain ⟨later, changes⟩ := moved clocks (permitted.inner inside rfl rfl rfl)
            exact ⟨later, changes.within (.after next changes.work)⟩
          · cases same with
            | done outcome =>
                cases outcome with
                | ok value =>
                    rw [step?, step?]
                    refine .some fun clocks _ => ⟨pairs, ?_⟩
                    rw [clocks]
                    exact goOn_alike lawful grown world'.clock value next
                | error failure =>
                    rw [step?, step?]
                    exact .some fun _ _ => ⟨pairs, .still grown (.done _) rfl⟩
            | broken defect defect' =>
                rw [step?, step?]
                exact .some fun _ _ => ⟨pairs, .still grown (.broken _ _) rfl⟩
            | _ => exact absurd rfl going
  | .gather shape ones, _, alike, timely => by
      cases alike with
      | @gather _ others _ same =>
          have spoiled := Work.spoiled?_alike same
          rw [step?, step?, Work.mapM_value?_alike same]
          generalize Work.spoiled? ones = failed at spoiled ⊢
          generalize Work.spoiled? others = failed' at spoiled ⊢
          cases spoiled with
          | some failed => exact .some fun _ _ => ⟨pairs, .still grown failed rfl⟩
          | none =>
              cases others.mapM Work.value? with
              | some values => exact .some fun _ _ => ⟨pairs, .still grown (.done _) rfl⟩
              | none =>
                  have members := stepAll_alike lawful grown ones same
                    fun index one other there there' => timely.inner there there'
                  rcases stepFirst?_rel members with ⟨still, still'⟩ | found
                  · dsimp only
                    rw [still, still']
                    exact .none
                  · obtain ⟨place, one, other, change, change', there, there', moved, first,
                      second⟩ := found
                    dsimp only
                    rw [first, second]
                    refine .some fun clocks permitted => ?_
                    have later (work : Work) : (ones.set place work)[place]? = some work :=
                      List.getElem?_set_self (List.getElem?_eq_some_iff.mp there).1
                    have later' (work : Work) : (others.set place work)[place]? = some work :=
                      List.getElem?_set_self (List.getElem?_eq_some_iff.mp there').1
                    obtain ⟨pairs, changes⟩ := moved clocks
                      (permitted.inner there there' (later change.work) (later' change'.work))
                    refine ⟨pairs, changes.within (.gather shape ?_)⟩
                    exact forall₂_set (Work.alikeAll_mono changes.grown.keeps ones same) place
                      changes.work
  | .body frame current index entries, _, alike, timely => by
      cases alike with
      | @body _ frame' _ current' _ entries' own _ frames same ahead =>
          by_cases going : current.ended? = none
          · have going' := same.ended?_eq_none going
            rw [step?_body frame index entries going, step?_body frame' index entries' going']
            have inside : (Work.body frame current index entries).inner? 0 = some current := rfl
            refine rel_map (step?_alike lawful grown current same (timely.inner inside rfl)) ?_
            intro change change' moved clocks permitted
            obtain ⟨later, changes⟩ := moved clocks (permitted.inner inside rfl rfl rfl)
            have frames := frames.mono changes.grown.keeps fun _ => id
            exact ⟨later, changes.within (.body index frames changes.work ahead)⟩
          · cases same with
            | done outcome =>
                cases outcome with
                | ok value =>
                    cases entries with
                    | nil =>
                        obtain rfl := lawful.last ahead
                        rw [step?, step?]
                        exact .some fun _ _ => ⟨pairs, .still grown (.settle _ frames.unobserved) rfl⟩
                    | cons entry entries =>
                        obtain ⟨entry', entries', rfl, later⟩ := lawful.next ahead
                        rw [step?, step?]
                        refine .some fun _ permitted => begin_alike lawful grown frames ahead later ?_
                        exact permitted [] index _ _ (begin_begun machine frame value index entry
                          entries _) (begin_begun machine' frame' value index entry' entries' _)
                | error failure =>
                    rw [step?, step?]
                    exact .some fun _ _ => ⟨pairs, .still grown (.done _) rfl⟩
            | broken defect defect' =>
                rw [step?, step?]
                exact .some fun _ _ => ⟨pairs, .still grown (.broken _ _) rfl⟩
            | _ => exact absurd rfl going
  | .settle bindings result, _, alike, _ => by
      cases alike with
      | settle _ same =>
          cases same with
          | nil =>
              rw [step?, step?]
              exact .some fun _ _ => ⟨pairs, .still grown (.done _) rfl⟩
          | @cons binding binding' bindings bindings' first rest =>
              obtain ⟨task, count⟩ := binding
              obtain ⟨task', count'⟩ := binding'
              obtain ⟨paired, counts⟩ := first
              obtain rfl : count = count' := counts
              rw [step?, step?]
              exact rel_map (settle_alike grown result paired rest) fun same _ _ =>
                ⟨pairs, same.meeting _ _⟩

theorem stepAll_alike (lawful : like.Lawful begins machine machine')
    (grown : (world.ground like pairs world').Grown pairs [] []) : ∀ (ones : List Work)
    {others : List Work}, List.Forall₂ (Work.Alike like pairs) ones others →
      (∀ (index : Nat) (one other : Work), ones[index]? = some one → others[index]? = some other →
        one.Timely like world world' other) →
      List.Forall₂ (fun one other => Option.Rel (Moved begins like pairs world world' one other)
        (step? machine world one) (step? machine' world' other)) ones others
  | [], _, alike, _ => by
      cases alike
      exact .nil
  | one :: ones, _, alike, timely => by
      cases alike with
      | cons same rest =>
          exact .cons (step?_alike lawful grown one same (timely 0 _ _ rfl rfl))
            (stepAll_alike lawful grown ones rest fun index one other there there' =>
              timely (index + 1) one other there there')

end

end Machine

end Runbook
