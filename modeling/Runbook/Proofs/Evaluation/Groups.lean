import Runbook.Proofs.Evaluation.Readers
import Runbook.Proofs.Evaluation.Table

/-!
Which groups of names an invocation has registered.

Its parameters are registered first, and then the groups that the entries mention which it begins,
in their order. So where a step stands in the sequence decides which groups there are when it is
its turn; and if it reads a name, which binding the name means, and which value of the binding.
-/
namespace Runbook

/-- The group of names that is bound. -/
def Mention.group? : Mention → Option (List Name)
  | .binding names => some names
  | .reading _ => none

/-- The groups of names that are registered when it is the turn of the step at the place. -/
def Site.groups (site : Site) (parameters : List Name) : List (List Name) :=
  parameters.map ([·]) ++
    (site.before.mentions ++ site.context.earlier).filterMap Mention.group?

/-- The frame has been made from values of the parameters, by what is mentioned. -/
def Frame.Made (parameters : List Name) (mentions : List Mention) (frame : Frame) : Prop :=
  ∃ values deeds, values.length = parameters.length ∧ deeds.map Deed.mention = mentions ∧
    frame = (Frame.ofParameters parameters values).performAll deeds

namespace Frame

variable {parameters : List Name} {mentions : List Mention} {frame : Frame}

theorem groups_ofParameters {values : List Value} (length : values.length = parameters.length) :
    (ofParameters parameters values).bindings.map Binding.names = parameters.map ([·]) := by
  rw [ofParameters, List.map_map]
  induction parameters generalizing values with
  | nil => rfl
  | cons parameter parameters ih =>
      cases values with
      | nil => cases length
      | cons value values =>
          rw [List.zip_cons_cons, List.map_cons, List.map_cons, ih (Nat.succ.inj length)]
          rfl

theorem groups_performAll (frame : Frame) (deeds : List Deed) :
    (frame.performAll deeds).bindings.map Binding.names = frame.bindings.map Binding.names ++
      (deeds.map Deed.mention).filterMap Mention.group? := by
  induction deeds generalizing frame with
  | nil => exact (List.append_nil _).symm
  | cons deed deeds ih =>
      rw [performAll, List.foldl_cons, ← performAll, ih]
      cases deed with
      | bind binding =>
          rw [perform, add, List.map_append, List.append_assoc]
          rfl
      | read name =>
          rw [perform, (observe_map frame name).1]
          rfl

theorem Made.groups (made : frame.Made parameters mentions) :
    frame.table.groups = parameters.map ([·]) ++ mentions.filterMap Mention.group? := by
  obtain ⟨values, deeds, length, rfl, rfl⟩ := made
  rw [Table.groups, bindings_table, groups_performAll, groups_ofParameters length]

theorem Made.does {more : List Mention} {before after : SetUp.State}
    (made : before.frame.Made parameters mentions) (does : SetUp.Does more before after) :
    after.frame.Made parameters (mentions ++ more) := by
  obtain ⟨values, deeds, length, rfl, same⟩ := made
  obtain ⟨others, rfl, frame⟩ := does.frame
  refine ⟨values, deeds ++ others, length, List.map_append, ?_⟩
  rw [frame, same, performAll_append]

/-- A name that means nothing is in no group. -/
theorem absent_of_find? {name : Name} (missing : frame.find? name = none) :
    ∀ group ∈ frame.table.groups, name ∉ group := by
  intro group among inside
  rw [Table.groups, bindings_table] at among
  obtain ⟨binding, stands, rfl⟩ := List.mem_map.mp among
  have found := find?_isSome (List.mem_flatMap.mpr ⟨binding, stands, inside⟩)
  rw [missing] at found
  cases found

/-- A routine that is entered has only its parameters. -/
theorem made_enter {routine : Routine} {argument : Value} {current : Work} {index : Nat}
    {entries : List Entry}
    (entered : (enter routine argument).work = .body frame current index entries) :
    frame.Made routine.parameters [] := by
  rw [enter] at entered
  split at entered
  · rename_i empty
    cases entered
    rw [List.isEmpty_iff] at empty
    exact ⟨[], [], (congrArg List.length empty).symm, rfl, by rw [empty]; rfl⟩
  · dsimp only at entered
    split at entered
    · rename_i values length _
      cases entered
      exact ⟨values, [], length, rfl, rfl⟩
    · cases entered

end Frame

/-- The frame of the invocation has been made by the entries that it has begun; the others follow
them in the sequence. -/
def Work.Keeping (routine : Routine) : Work → Prop :=
  Entered fun frame index entries =>
    frame.Made routine.parameters (Sequence.mentions (routine.sequence.take index)) ∧
      routine.sequence.drop index = entries

section
variable {machine : Machine} {main routine : Routine} {argument : Value} {task : TaskId}
  {place : List Nat} {start world next : World} {frame : Frame} {current : Work} {index : Nat}
  {entries : List Entry} {site : Site} {step : Step} {state : SetUp.State}

theorem Sequence.mentions_snoc (sequence : Sequence) (entry : Entry) :
    Sequence.mentions (sequence ++ [entry]) = sequence.mentions ++ entry.step.mentions := by
  rw [mentions, List.map_append, stepsMentions_append]
  exact congrArg _ (List.append_nil _)

theorem Lasting.keeping (machine : Machine) (routine : Routine) :
    Lasting machine fun _ work => work.Keeping routine :=
  entered fun {frame next index entry entries work state} gives held => by
    obtain ⟨made, ahead⟩ := held
    have behind : routine.sequence.drop (index + 1) = entries := by
      rw [← List.tail_drop, ahead, List.tail_cons]
    have before : routine.sequence.take (index + 1) = routine.sequence.take index ++ [entry] := by
      rw [List.take_add_one, ← List.head?_drop, ahead]
      rfl
    refine ⟨?_, behind⟩
    obtain ⟨values, deeds, length, same, rfl⟩ := made
    obtain ⟨more, does, same'⟩ := (SetUp.setUpEntry_makes gives).does
    obtain ⟨_, _, _, mentions, _⟩ := does
    refine ⟨values, deeds ++ more, length, ?_, ?_⟩
    · rw [List.map_append, same, mentions, before, Sequence.mentions_snoc]
    · rw [same', Frame.performAll_append]

theorem Opens.keeping (opens : Opens machine main argument routine task place start) {work : Work}
    (there : start.part? task place = some work) : work.Keeping routine := by
  obtain ⟨value, entered⟩ := opens.enters
  obtain rfl := Option.some.inj (entered.symm.trans there)
  rcases Moves.enter_cases routine value with ⟨frame, same⟩ | ⟨outcome, same⟩
  · rw [same]
    exact ⟨Frame.made_enter same, rfl⟩
  · rw [same]
    trivial

/-- The frame of an invocation has been made by the entries that it has begun. -/
theorem Opens.made {now : Standing} (opens : Opens machine main argument routine task place start)
    (proceeds : Proceeds machine task place ⟨start, []⟩ now)
    (there : now.world.part? task place = some (.body frame current index entries)) :
    frame.Made routine.parameters (Sequence.mentions (routine.sequence.take index)) ∧
      routine.sequence.drop index = entries :=
  (Lasting.keeping machine routine).proceeds proceeds (fun _ => opens.keeping) _ there

/-- When it is the turn of a step, what stands before it has been done. -/
theorem Site.Arrives.made (arrives : site.Arrives machine task place start step world next state)
    (opens : Opens machine main argument routine task place start)
    (inside : routine.sequence = site.sequence step) :
    state.frame.Made routine.parameters (site.before.mentions ++ site.context.earlier) := by
  obtain ⟨bound, frame, value, proceeds, _, there, _, arrives⟩ := arrives
  have made := (opens.made proceeds there).1
  rw [inside, Site.sequence, List.take_left] at made
  exact made.does arrives.does

theorem Site.Arrives.groups
    (arrives : site.Arrives machine task place start step world next state)
    (opens : Opens machine main argument routine task place start)
    (inside : routine.sequence = site.sequence step) :
    state.frame.table.groups = site.groups routine.parameters :=
  (arrives.made opens inside).groups

/-- Each body in a run is that of an invocation. -/
theorem World.Reaches.invoked (reaches : (World.start main argument).Reaches machine world)
    (there : world.part? task place = some (.body frame current index entries)) :
    ∃ routine start bound, Opens machine main argument routine task place start ∧
      Proceeds machine task place ⟨start, []⟩ ⟨world, bound⟩ := by
  induction reaches generalizing frame current index entries with
  | refl =>
      obtain ⟨work, stands, there⟩ := Option.bind_eq_some_iff.mp there
      cases task with
      | succ task => cases stands
      | zero =>
          cases stands
          cases place with
          | nil => exact ⟨main, _, [], .run rfl rfl rfl, .refl⟩
          | cons index place => cases Moves.enter_part there
  | tail reaches stepped ih =>
      rcases Reaches.body_origin reaches stepped there with
        ⟨_, _, _, _, stood, _⟩ | ⟨value, callee, routine, waits, found, entered⟩
      · obtain ⟨routine, start, bound, opens, proceeds⟩ := ih stood
        exact ⟨routine, start, _, opens, proceeds.tail ⟨stepped, _, _, stood, rfl, there, rfl⟩⟩
      · refine ⟨routine, _, [], .call reaches stepped waits found ?_, .refl⟩
        rw [there, entered]

end

namespace SetUp

/-- A name that is asked for in the table is read from the binding that the table has for it; a name
for which it has none breaks the setting up down. -/
theorem read_table (before : State) (name : Name) :
    (before.frame.table.ask name = .error .unbound ∧ before.frame.table.index? name = none ∧
      (read name).Breaks before (.unboundName name) before) ∨
    ∃ (index : Nat) (binding : Binding) (position : Fin binding.names.length) (work : Work)
      (after : State), before.frame.table.index? name = some (index, position.val) ∧
        before.frame.bindings[index]? = some binding ∧
        (read name).Gives before work after ∧
        before.frame.table.ask name = .ok (binding, position.val, after.frame.table) ∧
        ∀ world, binding.ReadBy world work position := by
  have found := before.frame.ask_table name
  rcases before.frame.table_indexed.ask_cases name with
    ⟨asked, missing⟩ | ⟨index, position, binding, there, stands, asked⟩
  · left
    refine ⟨asked, missing, ?_⟩
    cases means : before.frame.find? name with
    | some meaning =>
        rw [means, asked] at found
        cases found
    | none =>
        refine gives_get.breaks ?_
        rw [means]
        rfl
  · right
    cases means : before.frame.find? name with
    | none =>
        rw [means, asked] at found
        cases found
    | some meaning =>
        rw [means] at found
        obtain ⟨same, same'⟩ := Prod.mk.inj (Except.ok.inj (asked.symm.trans found))
        obtain ⟨rfl, _⟩ := Prod.mk.inj same'
        subst same
        rw [Frame.bindings_table] at stands
        obtain ⟨binding, position⟩ := meaning
        cases binding with
        | parameter other value =>
            refine ⟨index, _, position, _, _, there, stands, gives_parameter means, ?_,
              fun _ => rfl⟩
            rw [found, Frame.observe_parameter means]
        | started names task observed =>
            exact ⟨index, _, position, _, _, there, stands, gives_read means, found,
              fun _ => .waits⟩

end SetUp

end Runbook
