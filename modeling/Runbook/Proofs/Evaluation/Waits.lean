import Runbook.Proofs.Evaluation.Upkeep
import Runbook.Proofs.Evaluation.Moves

/-!
What works wait for.

Setting an entry up starts tasks one after the other. Whether it succeeds or breaks down, each of
them waits only for tasks of the frame and for tasks that were started before it, and where it waits
to have the value of a name, for one that was registered in the frame before it. Moves add to what a
work waits for only what they start and what is in the frames of the work.
-/
namespace Runbook

mutual

/-- The tasks that the work waits for, with those that it waits for after them. -/
def Work.awaits : Work → List TaskId
  | .done _ | .broken _ | .sleep _ _ => []
  | .fresh work => work.awaits
  | .wait task => [task]
  | .race left right => [left, right]
  | .after source _ => source.awaits
  | .gather _ members => awaitsOfAll members
  | .body _ current _ _ => current.awaits
  | .settle bindings _ => bindings.map Prod.fst

def Work.awaitsOfAll : List Work → List TaskId
  | [] => []
  | work :: works => work.awaits ++ awaitsOfAll works

end

mutual

/-- What the work asks for the values of names: their group's values are those of these works. What
a body in it asks for is the body's. -/
def Work.reads : Work → List Work
  | .done _ | .broken _ | .sleep _ _ | .wait _ | .race _ _ | .body _ _ _ _ | .settle _ _ => []
  | .fresh work => work.reads
  | .after source next =>
    match next with
    | .pick _ _ => [source]
    | _ => source.reads
  | .gather _ members => readsOfAll members

def Work.readsOfAll : List Work → List Work
  | [] => []
  | work :: works => work.reads ++ readsOfAll works

end

mutual

/-- The bodies in the work: their frames, and the works of their current entries. -/
def Work.bodies : Work → List (Frame × Work)
  | .done _ | .broken _ | .sleep _ _ | .wait _ | .race _ _ | .settle _ _ => []
  | .fresh work => work.bodies
  | .after source _ => source.bodies
  | .gather _ members => bodiesOfAll members
  | .body frame current _ _ => (frame, current) :: current.bodies

def Work.bodiesOfAll : List Work → List (Frame × Work)
  | [] => []
  | work :: works => work.bodies ++ bodiesOfAll works

end

namespace Work

theorem mem_awaitsOfAll {works : List Work} {task : TaskId} :
    task ∈ awaitsOfAll works ↔ ∃ work ∈ works, task ∈ work.awaits := by
  induction works with
  | nil => simp [awaitsOfAll]
  | cons work works ih => rw [awaitsOfAll, List.mem_append, ih, List.exists_mem_cons_iff]

theorem mem_readsOfAll {works : List Work} {source : Work} :
    source ∈ readsOfAll works ↔ ∃ work ∈ works, source ∈ work.reads := by
  induction works with
  | nil => simp [readsOfAll]
  | cons work works ih => rw [readsOfAll, List.mem_append, ih, List.exists_mem_cons_iff]

theorem mem_bodiesOfAll {works : List Work} {body : Frame × Work} :
    body ∈ bodiesOfAll works ↔ ∃ work ∈ works, body ∈ work.bodies := by
  induction works with
  | nil => simp [bodiesOfAll]
  | cons work works ih => rw [bodiesOfAll, List.mem_append, ih, List.exists_mem_cons_iff]

mutual

theorem awaits_of_reads : ∀ (work : Work) {source : Work}, source ∈ work.reads →
    source.awaits ⊆ work.awaits
  | .fresh work, _, mem => awaits_of_reads work mem
  | .after source next, other, mem => by
      cases next with
      | pick names place =>
          rw [List.mem_singleton.mp mem]
          exact List.Subset.refl _
      | call callee => exact awaits_of_reads source mem
      | invoke primitive => exact awaits_of_reads source mem
      | join primitive => exact awaits_of_reads source mem
  | .gather _ members, _, mem => awaitsOfAll_of_reads members mem

theorem awaitsOfAll_of_reads : ∀ (works : List Work) {source : Work}, source ∈ readsOfAll works →
    source.awaits ⊆ awaitsOfAll works
  | work :: works, _, mem => by
      rw [awaitsOfAll]
      rcases List.mem_append.mp mem with mem | mem
      · exact List.subset_append_of_subset_left _ (awaits_of_reads work mem)
      · exact List.subset_append_of_subset_right _ (awaitsOfAll_of_reads works mem)

end

/-- For the values of names the work waits for tasks that `has` them, or has waited. -/
def Asks (has : TaskId → Prop) (work : Work) : Prop :=
  ∀ source ∈ work.reads, source.ended? = some source ∨ ∃ task, source = .wait task ∧ has task

theorem Asks.mono {has more : TaskId → Prop} {work : Work} (asks : work.Asks has)
    (le : ∀ task, has task → more task) : work.Asks more := by
  intro source mem
  refine (asks source mem).imp_right fun waits => ?_
  obtain ⟨task, same, having⟩ := waits
  exact ⟨task, same, le task having⟩

/-- The frames in the work have values from certain tasks, in the order in which they were started,
and from them the values of the names that their bodies ask for. -/
def Framed (own : TaskId → Prop) (work : Work) : Prop :=
  ∀ body ∈ work.bodies, (∀ task ∈ body.1.tasks, own task) ∧
    body.1.tasks.Pairwise (· < ·) ∧ body.2.Asks (· ∈ body.1.tasks)

theorem Framed.mono {own others : TaskId → Prop} {work : Work} (framed : work.Framed own)
    (among : ∀ task, own task → others task) : work.Framed others := by
  intro body mem
  obtain ⟨filled, rest⟩ := framed body mem
  exact ⟨fun task member => among task (filled task member), rest⟩

@[simp] theorem awaits_meet (work : Work) : work.meet.awaits = work.awaits := by
  cases work <;> rfl

@[simp] theorem reads_meet (work : Work) : work.meet.reads = work.reads := by
  cases work <;> rfl

@[simp] theorem bodies_meet (work : Work) : work.meet.bodies = work.bodies := by
  cases work <;> rfl

section
variable {shape : Shape} {members : List Work} {has own : TaskId → Prop}

theorem awaits_gather : (∀ task ∈ (gather shape members).awaits, has task) ↔
    ∀ member ∈ members, ∀ task ∈ member.awaits, has task := by
  rw [awaits]
  simp only [mem_awaitsOfAll]
  exact ⟨fun all member inside task mem => all task ⟨member, inside, mem⟩,
    fun all task found => found.elim fun member mem => all member mem.1 task mem.2⟩

theorem asks_gather : (gather shape members).Asks has ↔ ∀ member ∈ members, member.Asks has := by
  rw [Asks, reads]
  simp only [mem_readsOfAll]
  exact ⟨fun all member inside source mem => all source ⟨member, inside, mem⟩,
    fun all source found => found.elim fun member mem => all member mem.1 source mem.2⟩

theorem framed_gather :
    (gather shape members).Framed own ↔ ∀ member ∈ members, member.Framed own := by
  rw [Framed, bodies]
  simp only [mem_bodiesOfAll]
  exact ⟨fun all member inside body mem => all body ⟨member, inside, mem⟩,
    fun all body found => found.elim fun member mem => all member mem.1 body mem.2⟩

end

end Work

namespace SetUp

/-- The work waits for tasks before `next` which were in the frame or are started from `first` on,
and on names for those of them that are in the frame by now. -/
structure Fits (frame : Frame) (first : TaskId) (now : Frame) (next : TaskId) (work : Work) :
    Prop where
  awaits : ∀ task ∈ work.awaits, (task ∈ frame.tasks ∨ first ≤ task) ∧ task < next
  asks : work.Asks (· ∈ now.tasks)
  bodies : work.bodies = []

/-- What setting up has done from a frame and the number of a task on. -/
structure Ranked (frame : Frame) (first : TaskId) (state : State) : Prop where
  next : state.next = first + state.started.length
  filled : ∀ task ∈ state.frame.tasks, (task ∈ frame.tasks ∨ first ≤ task) ∧ task < state.next
  sorted : state.frame.tasks.Pairwise (· < ·)
  started : ∀ (index : Nat) (work : Work), state.started[index]? = some work →
    Fits frame first state.frame (first + index) work

section
variable {frame now : Frame} {first next : TaskId} {before : State}

theorem Fits.later {after : Frame} {last : TaskId} {work : Work}
    (fits : Fits frame first now next work) (grows : now.tasks ⊆ after.tasks)
    (more : next ≤ last) : Fits frame first after last work where
  awaits task mem := (fits.awaits task mem).imp_right fun below => Nat.lt_of_lt_of_le below more
  asks := fits.asks.mono fun _ mem => grows mem
  bodies := fits.bodies

theorem Ranked.first_le (ranked : Ranked frame first before) : first ≤ before.next := by
  rw [ranked.next]
  exact Nat.le_add_right _ _

/-- A work that fits becomes a task, maybe in the frame. -/
theorem Ranked.start {work : Work} (ranked : Ranked frame first before)
    (fits : Fits frame first before.frame before.next work) (bindings : List Binding)
    (task : bindings.filterMap Binding.task? ⊆ [before.next])
    (once : (bindings.filterMap Binding.task?).Pairwise (· < ·)) :
    Ranked frame first { before with
      frame := ⟨before.frame.bindings ++ bindings⟩
      next := before.next + 1
      started := before.started ++ [.fresh work] } := by
  have tasks : (⟨before.frame.bindings ++ bindings⟩ : Frame).tasks =
      before.frame.tasks ++ bindings.filterMap Binding.task? := List.filterMap_append
  have above := ranked.first_le
  have grows : before.frame.tasks ⊆ (⟨before.frame.bindings ++ bindings⟩ : Frame).tasks := by
    rw [tasks]
    exact List.subset_append_left _ _
  refine ⟨?_, fun other mem => ?_, ?_, fun index other found => ?_⟩
  · rw [List.length_append, ← Nat.add_assoc, ← ranked.next]
    rfl
  · rw [tasks, List.mem_append] at mem
    rcases mem with mem | mem
    · exact (ranked.filled other mem).imp_right Nat.lt_succ_of_lt
    · rw [List.mem_singleton.mp (task mem)]
      exact ⟨.inr above, Nat.lt_succ_self _⟩
  · rw [tasks, List.pairwise_append]
    refine ⟨ranked.sorted, once, fun earlier mem later more => ?_⟩
    rw [List.mem_singleton.mp (task more)]
    exact (ranked.filled earlier mem).2
  · rcases Nat.lt_or_ge index before.started.length with below | beyond
    · rw [List.getElem?_append_left below] at found
      exact (ranked.started index other found).later grows (Nat.le_refl _)
    · rw [List.getElem?_append_right beyond] at found
      have last : index = before.started.length := by
        have := (List.getElem?_eq_some_iff.mp found).1
        rw [List.length_singleton] at this
        omega
      rw [last, Nat.sub_self] at found
      obtain rfl := Option.some.inj found
      rw [last, ← ranked.next]
      exact Fits.later ⟨fits.awaits, fits.asks, fits.bodies⟩ grows (Nat.le_refl _)

theorem Fits.done {value : Value} : Fits frame first now next (.done (.ok value)) :=
  ⟨nofun, nofun, rfl⟩

theorem Fits.wait {task : TaskId} (above : first ≤ task) (below : task < next) :
    Fits frame first now next (.wait task) := by
  refine ⟨fun other mem => ?_, nofun, rfl⟩
  rw [List.mem_singleton.mp mem]
  exact ⟨.inr above, below⟩

theorem Fits.after {registry : Registry} {source : Work} {use : Continuation}
    (fits : Fits frame first now next source) (applies : use.Applies registry) :
    Fits frame first now next (.after source use) := by
  refine ⟨fits.awaits, ?_, fits.bodies⟩
  cases use with
  | pick names place => exact applies.elim
  | call callee => exact fits.asks
  | invoke primitive => exact fits.asks
  | join primitive => exact fits.asks

theorem Fits.gather {shape : Shape} {members : List Work}
    (fits : ∀ member ∈ members, Fits frame first now next member) :
    Fits frame first now next (.gather shape members) where
  awaits := Work.awaits_gather.mpr fun member inside => (fits member inside).awaits
  asks := Work.asks_gather.mpr fun member inside => (fits member inside).asks
  bodies := by
    refine List.eq_nil_iff_forall_not_mem.mpr fun body mem => ?_
    obtain ⟨member, inside, mem⟩ := Work.mem_bodiesOfAll.mp mem
    rw [(fits member inside).bodies] at mem
    cases mem

theorem Fits.await {operator : Operator} {left right : TaskId}
    (one : first ≤ left ∧ left < next) (other : first ≤ right ∧ right < next) :
    Fits frame first now next (operator.await left right) := by
  have waits {task : TaskId} (mem : task ∈ [left, right]) :
      (task ∈ frame.tasks ∨ first ≤ task) ∧ task < next := by
    rcases List.mem_cons.mp mem with rfl | mem
    · exact ⟨.inr one.1, one.2⟩
    · rw [List.mem_singleton.mp mem]
      exact ⟨.inr other.1, other.2⟩
  cases operator with
  | waitEither => exact ⟨fun _ => waits, nofun, rfl⟩
  | waitBoth => exact ⟨fun _ => waits, nofun, rfl⟩
  | combine => exact ⟨fun _ => waits, nofun, rfl⟩

/-- A name is read from a task that the frame has by now. -/
theorem Ranked.read {name : Name} {names : List Name} {task : TaskId} {observed : Bool}
    {place : Fin (Binding.started names task observed).names.length}
    (ranked : Ranked frame first before)
    (found : before.frame.find? name = some ⟨.started names task observed, place⟩) :
    Ranked frame first { before with frame := before.frame.observe name } ∧
      Fits frame first (before.frame.observe name) before.next
        (.after (.wait task) (.pick names.length place)) := by
  have inside : task ∈ before.frame.tasks :=
    List.mem_filterMap.mpr ⟨_, Frame.find?_mem found, rfl⟩
  have tasks := Frame.tasks_observe before.frame name
  have same : before.frame.tasks ⊆ (before.frame.observe name).tasks := tasks ▸ List.Subset.refl _
  refine ⟨⟨ranked.next, ?_, ?_, fun index work found => ?_⟩, fun other mem => ?_,
    fun source mem => .inr ⟨task, List.mem_singleton.mp mem, same inside⟩, rfl⟩
  · rw [tasks]
    exact ranked.filled
  · rw [tasks]
    exact ranked.sorted
  · exact (ranked.started index work found).later same (Nat.le_refl _)
  · rw [List.mem_singleton.mp mem]
    exact ranked.filled task inside

end

/-- States stay ranked. -/
def Upkeep.ranking (registry : Registry) (frame : Frame) (first : TaskId) : Upkeep registry where
  holds := Ranked frame first
  grows before after := before.frame.tasks ⊆ after.frame.tasks ∧ before.next ≤ after.next
  fits state := Fits frame first state.frame state.next
  known state task := first ≤ task ∧ task < state.next
  refl _ := ⟨List.Subset.refl _, Nat.le_refl _⟩
  trans one two := ⟨List.Subset.trans one.1 two.1, Nat.le_trans one.2 two.2⟩
  fits_later grows fits := fits.later grows.1 grows.2
  known_later grows known := ⟨known.1, Nat.lt_of_lt_of_le known.2 grows.2⟩
  report _ ranked := ⟨⟨ranked.next, ranked.filled, ranked.sorted, ranked.started⟩,
    List.Subset.refl _, Nat.le_refl _⟩
  start {before _} ranked fits := by
    have after := ranked.start fits [] (List.nil_subset _) .nil
    rw [List.append_nil] at after
    exact ⟨after, ⟨List.Subset.refl _, Nat.le_succ _⟩, ranked.first_le, Nat.lt_succ_self _⟩
  register {before} names observed _ ranked fits := by
    have after := ranked.start fits [.started names before.next observed] (List.Subset.refl _)
      (List.pairwise_singleton _ _)
    refine ⟨after, ⟨?_, Nat.le_succ _⟩, ranked.first_le, Nat.lt_succ_self _⟩
    rw [Frame.tasks_add]
    exact List.subset_append_left _ _
  read {before name _ _ _ _} ranked found := by
    obtain ⟨later, fits⟩ := ranked.read found
    exact ⟨later, ⟨(Frame.tasks_observe before.frame name).symm ▸ List.Subset.refl _,
      Nat.le_refl _⟩, fits⟩
  done _ _ := .done
  wait known := .wait known.1 known.2
  after := .after
  gather _ := .gather
  await _ := .await

/-- An entry is set up in a frame whose tasks were started before. -/
theorem ranks_setUpEntry {registry : Registry} {frame : Frame} {first : TaskId} (index : Nat)
    (isLast : Bool) (entry : Entry) (below : ∀ task ∈ frame.tasks, task < first)
    (sorted : frame.tasks.Pairwise (· < ·)) :
    ∃ result after, (setUpEntry registry index isLast entry).run.run ⟨frame, first, [], []⟩ =
      (result, after) ∧ Ranked frame first after ∧
        ∀ work, result = .ok work → Fits frame first after.frame after.next work := by
  have ranked : Ranked frame first ⟨frame, first, [], []⟩ :=
    ⟨rfl, fun task mem => ⟨.inl mem, below task mem⟩, sorted, nofun⟩
  obtain ⟨result, after, run, ranked, _, fits⟩ :=
    setUpEntry_keeps (.ranking registry frame first) index isLast entry ranked
  exact ⟨result, after, run, ranked, fits⟩

end SetUp

end Runbook
