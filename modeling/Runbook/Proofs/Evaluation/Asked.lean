import Runbook.Proofs.Evaluation.SetUp

/-!
Which bindings are asked for.

The mentions of a step are the groups of names that it binds and the names that it reads, in the
order in which setting it up meets them. They decide which bindings of a frame are asked for: those
of which a name is read while no later binding has it. So what a body has to settle at its end can
be told from its sequence.
-/
namespace Runbook

/-- What setting up meets of names. -/
inductive Mention where
  | binding (names : List Name)
  | reading (name : Name)

mutual

/-- The mentions of a step, with all that is nested in it, in the order in which it is set up. -/
def Step.mentions : Step → List Mention
  | .literal literal => literal.mentions
  | .bind names step => step.mentions ++ [.binding names]
  | .call _ argument | .invoke _ argument => argument.mentions
  | .tuple steps => stepsMentions steps
  | .read name => [.reading name]

def Literal.mentions : Literal → List Mention
  | .unit | .text _ | .quantity _ => []
  | .tablet fields => fieldsMentions fields

def stepsMentions : List Step → List Mention
  | [] => []
  | step :: steps => step.mentions ++ stepsMentions steps

def fieldsMentions : List (Label × Step) → List Mention
  | [] => []
  | (_, step) :: fields => step.mentions ++ fieldsMentions fields

end

theorem fieldsMentions_eq (fields : List (Label × Step)) :
    fieldsMentions fields = stepsMentions (fields.map Prod.snd) := by
  induction fields with
  | nil => rfl
  | cons field fields ih => simp only [fieldsMentions, List.map_cons, stepsMentions, ih]

/-- Is one of the names read before it is bound again? -/
def asked (names : List Name) : List Mention → Bool
  | [] => false
  | .binding others :: mentions => asked (names.filter (· ∉ others)) mentions
  | .reading name :: mentions => name ∈ names || asked names mentions

namespace Sequence

def mentions (sequence : Sequence) : List Mention := stepsMentions (sequence.map Entry.step)

/-- The entry of that number is a binding of the names, and no step asks for one of them. -/
def Unread (sequence : Sequence) (index : Nat) (names : List Name) : Prop :=
  ∃ setting step, sequence[index]? = some ⟨setting, .bind names step⟩ ∧
    asked names (Sequence.mentions (sequence.drop (index + 1))) = false

/-- Of the bindings that the entries make those that are to be settled, where `bound` are the tasks
that they bind. The binding of the last entry is not: its value is waited for. -/
def unsettled : Sequence → List (Option TaskId) → List (TaskId × Nat)
  | entry :: entries, bound :: others =>
    match entry.step, bound with
    | .bind names _, some task =>
      if entries.isEmpty || asked names (mentions entries) then unsettled entries others
      else (task, names.length) :: unsettled entries others
    | _, _ => unsettled entries others
  | _, _ => []

end Sequence

/-- What setting up does to a frame. -/
inductive Deed where
  | bind (binding : Binding)
  | read (name : Name)

namespace Deed

def mention : Deed → Mention
  | .bind binding => .binding binding.names
  | .read name => .reading name

/-- The deed leaves nothing to be settled. -/
def Settled : Deed → Prop
  | .bind binding => binding.unobserved? = none
  | .read _ => True

end Deed

namespace Binding

@[simp] theorem names_observe (binding : Binding) : binding.observe.names = binding.names := by
  cases binding <;> rfl

@[simp] theorem observe_observe (binding : Binding) :
    binding.observe.observe = binding.observe := by
  cases binding <;> rfl

theorem unobserved?_observe (binding : Binding) : binding.observe.unobserved? = none := by
  cases binding <;> rfl

end Binding

namespace Frame

def perform (frame : Frame) : Deed → Frame
  | .bind binding => frame.add binding
  | .read name => frame.observe name

/-- The frame after deeds. -/
def performAll (frame : Frame) (deeds : List Deed) : Frame := deeds.foldl perform frame

theorem performAll_append (frame : Frame) (first rest : List Deed) :
    frame.performAll (first ++ rest) = (frame.performAll first).performAll rest :=
  List.foldl_append

theorem observeIn?_eq_none {name : Name} {bindings : List Binding}
    (absent : name ∉ bindings.flatMap Binding.names) : observeIn? name bindings = none := by
  induction bindings with
  | nil => rfl
  | cons binding bindings ih =>
      rw [List.flatMap_cons, List.mem_append, not_or] at absent
      rw [observeIn?, ih absent.2]
      exact if_neg absent.1

theorem observeIn?_isSome {name : Name} {bindings : List Binding}
    (present : name ∈ bindings.flatMap Binding.names) : (observeIn? name bindings).isSome := by
  induction bindings with
  | nil => cases present
  | cons binding bindings ih =>
      rw [observeIn?]
      split
      · rfl
      · rename_i missing
        rw [List.flatMap_cons, List.mem_append] at present
        rcases present with here | later
        · rw [if_pos here]
          rfl
        · rw [missing] at ih
          exact absurd (ih later) Bool.false_ne_true

/-- Reading a name reaches the first binding only if no other one has the name. -/
theorem observe_cons (binding : Binding) (bindings : List Binding) (name : Name) :
    (Frame.mk (binding :: bindings)).observe name =
      ⟨(if name ∈ binding.names ∧ name ∉ bindings.flatMap Binding.names then binding.observe
        else binding) :: ((Frame.mk bindings).observe name).bindings⟩ := by
  by_cases later : name ∈ bindings.flatMap Binding.names
  · obtain ⟨observed, done⟩ := Option.isSome_iff_exists.mp (observeIn?_isSome later)
    simp only [observe, observeIn?, done, Option.getD_some, later, not_true, and_false, if_false]
  · simp only [observe, observeIn?, observeIn?_eq_none later, later, not_false_eq_true, and_true,
      Option.getD_none]
    split <;> rfl

/-- Deeds ask for the first binding if they read a name of it that no other binding has. -/
theorem performAll_cons (binding : Binding) (bindings : List Binding) (deeds : List Deed) :
    (Frame.mk (binding :: bindings)).performAll deeds =
      ⟨(if asked (binding.names.filter (· ∉ bindings.flatMap Binding.names))
          (deeds.map Deed.mention) then binding.observe else binding) ::
        ((Frame.mk bindings).performAll deeds).bindings⟩ := by
  induction deeds generalizing binding bindings with
  | nil => rfl
  | cons deed deeds ih =>
      cases deed with
      | bind other =>
          change (Frame.mk (binding :: (bindings ++ [other]))).performAll deeds = _
          rw [ih]
          simp [asked, Deed.mention, List.filter_filter, performAll, perform, add, Bool.and_comm]
      | read name =>
          change ((Frame.mk (binding :: bindings)).observe name).performAll deeds = _
          have later : ((Frame.mk bindings).observe name).bindings.flatMap Binding.names =
              bindings.flatMap Binding.names := names_observe ⟨bindings⟩ name
          rw [observe_cons, ih, later]
          by_cases here : name ∈ binding.names ∧ name ∉ bindings.flatMap Binding.names
          · rw [if_pos here, Binding.names_observe, Binding.observe_observe, ite_self]
            simp only [asked, Deed.mention, List.map_cons, List.mem_filter, decide_not,
              Bool.not_eq_true', decide_eq_false_iff_not, here, not_false_eq_true, and_self,
              decide_true, Bool.true_or, if_true]
            rfl
          · rw [if_neg here]
            simp only [asked, Deed.mention, List.map_cons, List.mem_filter, decide_not,
              Bool.not_eq_true', decide_eq_false_iff_not, here, decide_false, Bool.false_or]
            rfl

/-- Parameters are not to be settled. -/
theorem unobserved_parameters (parameters : List Name) (values : List Value) (deeds : List Deed) :
    ((ofParameters parameters values).performAll deeds).unobserved =
      (empty.performAll deeds).unobserved := by
  rw [ofParameters]
  induction parameters.zip values with
  | nil => rfl
  | cons given others ih =>
      rw [List.map_cons, performAll_cons]
      simp only [Binding.observe, ite_self]
      exact ih

theorem unobserved_bind (binding : Binding) (deeds : List Deed) :
    (empty.performAll (.bind binding :: deeds)).unobserved =
      (if asked binding.names (deeds.map Deed.mention) then none
        else binding.unobserved?).toList ++ (empty.performAll deeds).unobserved := by
  change ((Frame.mk [binding]).performAll deeds).unobserved = _
  have all : binding.names.filter (· ∉ ([] : List Binding).flatMap Binding.names) =
      binding.names := List.filter_eq_self.mpr fun _ _ => rfl
  rw [performAll_cons, all]
  split
  · simp [unobserved, Binding.unobserved?_observe, empty]
  · cases unread : binding.unobserved? <;> simp [unobserved, unread, empty]

/-- Settled deeds leave what others do as it is. -/
theorem unobserved_settled {first : List Deed} (settled : ∀ deed ∈ first, deed.Settled)
    (rest : List Deed) :
    (empty.performAll (first ++ rest)).unobserved = (empty.performAll rest).unobserved := by
  induction first with
  | nil => rfl
  | cons deed first ih =>
      rw [List.forall_mem_cons] at settled
      rw [List.cons_append]
      cases deed with
      | read name => exact ih settled.2
      | bind binding =>
          rw [unobserved_bind, show binding.unobserved? = none from settled.1, ite_self]
          exact ih settled.2

end Frame

/-- Setting steps up does what is mentioned in them, and all that they bind is settled. -/
theorem SetsUp.deeds {registry : Registry} {frame after : Frame} {next : TaskId}
    {steps : List Step} {works started : List Work}
    (sets : SetsUp registry frame next steps works started after) :
    ∃ deeds, deeds.map Deed.mention = stepsMentions steps ∧ (∀ deed ∈ deeds, deed.Settled) ∧
      after = frame.performAll deeds := by
  induction sets with
  | nil => exact ⟨[], rfl, nofun, rfl⟩
  | cons _ _ first rest =>
      obtain ⟨deeds, mentions, settled, rfl⟩ := first
      obtain ⟨more, others, kept, rfl⟩ := rest
      refine ⟨deeds ++ more, ?_, List.forall_mem_append.mpr ⟨settled, kept⟩,
        (Frame.performAll_append _ _ _).symm⟩
      rw [List.map_append, mentions, others]
      simp only [stepsMentions, List.append_nil]
  | constant constant =>
      rename_i literal _
      refine ⟨[], ?_, nofun, rfl⟩
      cases literal with
      | tablet fields => cases constant
      | _ => rfl
  | tablet _ ih =>
      obtain ⟨deeds, mentions, rest⟩ := ih
      refine ⟨deeds, ?_, rest⟩
      rw [mentions, ← fieldsMentions_eq]
      simp only [stepsMentions, Step.mentions, Literal.mentions, List.append_nil]
  | @bind frame next names step work started after _ ih =>
      obtain ⟨deeds, mentions, settled, rfl⟩ := ih
      have last : (Deed.bind (.started names (next + started.length) true)).Settled := rfl
      refine ⟨deeds ++ [.bind (.started names (next + started.length) true)], ?_,
        List.forall_mem_append.mpr ⟨settled, List.forall_mem_singleton.mpr last⟩, ?_⟩
      · rw [List.map_append, mentions]
        simp only [stepsMentions, Step.mentions, List.append_nil, List.map_cons, List.map_nil,
          Deed.mention, Binding.names]
      · rw [Frame.performAll_append]
        rfl
  | call _ ih => exact ih
  | invoke _ _ ih => exact ih
  | operands _ _ _ _ first second =>
      obtain ⟨deeds, mentions, settled, rfl⟩ := first
      obtain ⟨more, others, kept, rfl⟩ := second
      refine ⟨deeds ++ more, ?_, List.forall_mem_append.mpr ⟨settled, kept⟩,
        (Frame.performAll_append _ _ _).symm⟩
      rw [List.map_append, mentions, others]
      simp only [stepsMentions, Step.mentions, List.append_nil]
  | tuple _ ih =>
      obtain ⟨deeds, mentions, rest⟩ := ih
      refine ⟨deeds, ?_, rest⟩
      rw [mentions]
      simp only [stepsMentions, Step.mentions, List.append_nil]
  | parameter _ => exact ⟨[.read _], rfl, List.forall_mem_singleton.mpr trivial,
      (Frame.observe_parameter ‹_›).symm⟩
  | read _ => exact ⟨[.read _], rfl, List.forall_mem_singleton.mpr trivial, rfl⟩

/-- Setting an entry up does what is mentioned in it. What is nested in it is settled; the binding
that the entry itself is has the task `bound`. -/
def Entry.Does (entry : Entry) (isLast : Bool) (bound : Option TaskId) (deeds : List Deed) : Prop :=
  ∃ nested own, deeds = nested ++ own ∧ deeds.map Deed.mention = entry.step.mentions ∧
    (∀ deed ∈ nested, deed.Settled) ∧
    match entry.step with
    | .bind names _ => ∃ task, bound = some task ∧ own = [.bind (.started names task isLast)]
    | _ => bound = none ∧ own = []

namespace Sequence

/-- The entries did these deeds, and others follow them: the last entry of all is told apart. -/
inductive Did (others : Sequence) : Sequence → List (Option TaskId) → List Deed → Prop
  | nil : Did others [] [] []
  | cons {entry entries bound tasks deeds more} :
      entry.Does (entries ++ others).isEmpty bound deeds → Did others entries tasks more →
      Did others (entry :: entries) (bound :: tasks) (deeds ++ more)

namespace Did

variable {others entries : Sequence} {tasks : List (Option TaskId)} {deeds : List Deed}

/-- One more entry is begun. -/
theorem snoc {entry : Entry} {bound : Option TaskId} {more : List Deed}
    (did : Did (entry :: others) entries tasks deeds) (does : entry.Does others.isEmpty bound more) :
    Did others (entries ++ [entry]) (tasks ++ [bound]) (deeds ++ more) := by
  generalize same : entry :: others = following at did
  induction did with
  | nil => simpa using cons does .nil
  | @cons first entries own tasks deeds rest one _ ih =>
      subst same
      rw [List.cons_append, List.cons_append, List.append_assoc]
      refine cons ?_ ih
      rwa [List.append_assoc, List.singleton_append]

theorem length (did : Did others entries tasks deeds) : tasks.length = entries.length := by
  induction did with
  | nil => rfl
  | cons _ _ ih => rw [List.length_cons, ih, List.length_cons]

/-- Each entry that is a binding has bound a task. -/
theorem bound {setting : Setting} {names : List Name} {step : Step} {index : Nat}
    (did : Did others entries tasks deeds)
    (there : entries[index]? = some ⟨setting, .bind names step⟩) :
    ∃ own, tasks[index]? = some (some own) := by
  induction did generalizing index with
  | nil => cases there
  | cons does _ ih =>
      cases index with
      | succ index => exact ih there
      | zero =>
          obtain rfl := Option.some.inj there
          obtain ⟨_, _, _, _, _, own, rfl, _⟩ := does
          exact ⟨own, rfl⟩

theorem mentions (did : Did others entries tasks deeds) :
    deeds.map Deed.mention = Sequence.mentions entries := by
  induction did with
  | nil => rfl
  | cons does _ ih =>
      obtain ⟨_, _, _, mentions, _⟩ := does
      rw [List.map_append, mentions, ih]
      rfl

/-- What a whole sequence leaves to be settled. -/
theorem unobserved (did : Did [] entries tasks deeds) :
    (Frame.empty.performAll deeds).unobserved = unsettled entries tasks := by
  induction did with
  | nil => rfl
  | @cons entry entries bound tasks deeds more does did ih =>
      obtain ⟨nested, own, rfl, _, settled, rest⟩ := does
      obtain ⟨setting, step⟩ := entry
      rw [List.append_assoc, Frame.unobserved_settled settled]
      cases step with
      | bind names step =>
          obtain ⟨task, rfl, rfl⟩ := rest
          rw [List.singleton_append, Frame.unobserved_bind, did.mentions, ih, List.append_nil]
          change _ = if entries.isEmpty || asked names (Sequence.mentions entries) then _ else _
          cases last : entries.isEmpty with
          | true => simp [Binding.unobserved?]
          | false =>
              cases read : asked names (Sequence.mentions entries) with
              | true => simp [Binding.names, read]
              | false => simp [Binding.names, Binding.unobserved?, read]
      | _ =>
          obtain ⟨rfl, rfl⟩ := rest
          exact ih

end Did

section
variable {entry : Entry} {entries : Sequence} {index : Nat} {names : List Name}

theorem unread_succ : Unread (entry :: entries) (index + 1) names ↔ Unread entries index names :=
  .rfl

theorem unread_zero {setting : Setting} {step : Step} :
    Unread (⟨setting, .bind names step⟩ :: entries) 0 names ↔
      asked names (mentions entries) = false := by
  constructor
  · intro unread
    obtain ⟨_, _, _, unasked⟩ := unread
    exact unasked
  · intro unasked
    exact ⟨setting, step, rfl, unasked⟩

theorem unsettled_bind (setting : Setting) (step : Step) (task : TaskId)
    (others : List (Option TaskId)) :
    unsettled (⟨setting, .bind names step⟩ :: entries) (some task :: others) =
      if entries.isEmpty || asked names (mentions entries) then unsettled entries others
      else (task, names.length) :: unsettled entries others := rfl

/-- The first entry leaves nothing to be settled, or is a binding that no later one asks for. -/
theorem unsettled_cons (bound : Option TaskId) (others : List (Option TaskId)) :
    unsettled (entry :: entries) (bound :: others) = unsettled entries others ∨
      ∃ names task, Unread (entry :: entries) 0 names ∧ bound = some task ∧
        unsettled (entry :: entries) (bound :: others) =
          (task, names.length) :: unsettled entries others := by
  obtain ⟨setting, step⟩ := entry
  cases step with
  | bind names step =>
      cases bound with
      | none => exact .inl rfl
      | some task =>
          rw [unsettled_bind]
          split
          · exact .inl rfl
          · rename_i left
            rw [Bool.or_eq_true, not_or, Bool.not_eq_true, Bool.not_eq_true] at left
            exact .inr ⟨names, task, unread_zero.mpr left.2, rfl, rfl⟩
  | _ => exact .inl rfl

end

/-- A binding that no step asks for is to be settled, unless it is the last entry; those that are
settled before it are earlier ones. -/
theorem unsettled_split {sequence : Sequence} {tasks : List (Option TaskId)} {index : Nat}
    {names : List Name} {task : TaskId} (unread : sequence.Unread index names)
    (within : index + 1 < sequence.length) (bound : tasks[index]? = some (some task)) :
    ∃ before after, sequence.unsettled tasks = before ++ (task, names.length) :: after ∧
      ∀ binding ∈ before, ∃ earlier others, earlier < index ∧ sequence.Unread earlier others ∧
        tasks[earlier]? = some (some binding.1) ∧ binding.2 = others.length := by
  induction sequence generalizing index tasks with
  | nil => cases within
  | cons entry entries ih =>
      cases tasks with
      | nil => cases bound
      | cons own others =>
          cases index with
          | zero =>
              obtain ⟨setting, step, same, unasked⟩ := unread
              obtain rfl := Option.some.inj same
              obtain rfl := Option.some.inj bound
              refine ⟨[], unsettled entries others, ?_, nofun⟩
              have more : entries.isEmpty = false := by
                cases entries with
                | nil => cases within with | step le => cases le
                | cons _ _ => rfl
              rw [unsettled_bind, more]
              exact if_neg (by rw [Bool.false_or]; exact Bool.eq_false_iff.mp unasked)
          | succ index =>
              obtain ⟨before, after, same, earlier⟩ := ih (unread_succ.mp unread)
                (Nat.lt_of_succ_lt_succ within) bound
              have shift (binding : TaskId × Nat) (mem : binding ∈ before) :
                  ∃ earlier others', earlier < index + 1 ∧
                    Unread (entry :: entries) earlier others' ∧
                    (own :: others)[earlier]? = some (some binding.1) ∧
                    binding.2 = others'.length := by
                obtain ⟨place, group, less, rest⟩ := earlier binding mem
                exact ⟨place + 1, group, Nat.succ_lt_succ less, rest⟩
              rcases @unsettled_cons entry entries own others with
                rest | ⟨group, first, unread, rfl, rest⟩
              · exact ⟨before, after, rest.trans same, shift⟩
              · refine ⟨(first, group.length) :: before, after, ?_, ?_⟩
                · rw [rest, same, List.cons_append]
                · refine List.forall_mem_cons.mpr ⟨?_, shift⟩
                  exact ⟨0, group, Nat.succ_pos index, unread, rfl, rfl⟩

end Sequence

/-- The task that the entry binds, by the frame that setting it up leaves. -/
def Entry.bound? (entry : Entry) (frame : Frame) : Option TaskId :=
  match entry.step with
  | .bind _ _ => frame.bindings.getLast?.bind Binding.task?
  | _ => none

theorem SetsUpEntry.does {registry : Registry} {frame after : Frame} {next : TaskId}
    {isLast : Bool} {entry : Entry} {work : Work} {started : List Work}
    (sets : SetsUpEntry registry frame next isLast entry.step work started after) :
    ∃ deeds, entry.Does isLast (entry.bound? after) deeds ∧ after = frame.performAll deeds := by
  obtain ⟨setting, step⟩ := entry
  cases sets with
  | @bind names inner work started after sets =>
      obtain ⟨deeds, mentions, settled, rfl⟩ := sets.deeds
      let binding : Binding := .started names (next + started.length) isLast
      refine ⟨deeds ++ [.bind binding], ⟨deeds, [.bind binding], rfl, ?_, settled, ?_⟩, ?_⟩
      · rw [List.map_append, mentions]
        simp only [stepsMentions, Step.mentions, List.append_nil]
        rfl
      · refine ⟨next + started.length, ?_, rfl⟩
        simp [Entry.bound?, Frame.add, Binding.task?]
      · rw [Frame.performAll_append]
        rfl
  | other unbound sets =>
      obtain ⟨deeds, mentions, settled, rfl⟩ := sets.deeds
      refine ⟨deeds, ⟨deeds, [], (List.append_nil _).symm, ?_, settled, ?_⟩, rfl⟩
      · rw [mentions, stepsMentions, stepsMentions, List.append_nil]
      · cases step with
        | bind names inner => exact absurd rfl (unbound names inner)
        | _ => exact ⟨rfl, rfl⟩

/-- The binding of the last entry is waited for. -/
theorem SetsUpEntry.waits {registry : Registry} {frame after : Frame} {next own : TaskId}
    {entry : Entry} {names : List Name} {step : Step} {work : Work} {started : List Work}
    (sets : SetsUpEntry registry frame next true entry.step work started after)
    (binds : entry.step = .bind names step) (bound : entry.bound? after = some own) :
    work = .wait own := by
  obtain ⟨setting, inner⟩ := entry
  simp only at sets binds
  subst binds
  cases sets with
  | bind sets =>
      simp only [Entry.bound?, Frame.add, List.getLast?_concat, Option.bind_some, Binding.task?,
        Option.some.injEq] at bound
      rw [if_pos rfl, bound]
  | other unbound => exact absurd rfl (unbound names step)

end Runbook
