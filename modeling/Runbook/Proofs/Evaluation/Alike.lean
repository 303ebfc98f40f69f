import Runbook.Proofs.Evaluation.Invocation
import Mathlib.Data.List.Forall2
import Mathlib.Data.Option.Basic

/-!
Works of two runs that do the same.

Two runs are compared task by task: some tasks of one do as some tasks of the other, which have
other numbers there. A work of one run is like a work of the other if they wait for tasks that are
paired, and have the same values at hand. Each run may have tasks besides that the other knows
nothing of, and bindings of those in its frames, as long as nothing asks for them.
-/
namespace Runbook

/-- The tasks of two runs that do the same, by their numbers. -/
abbrev Pairing := List (Nat × Nat)

/-- In both runs the tasks of the pairs were started in the same order. -/
def Pairing.Ordered (pairs : Pairing) : Prop :=
  pairs.Pairwise fun first second => first.1 < second.1 ∧ first.2 < second.2

/-- In what two runs are compared. -/
structure Likeness where
  /-- The names that mean the same in frames of both. -/
  shared : Name → Prop
  /-- Entries of sequences, from that number on, which do the same. -/
  entries : Nat → List Entry → List Entry → Prop
  /-- In the one run, the first task has its outcome before the second. -/
  outruns₁ : TaskId → TaskId → Prop
  outruns₂ : TaskId → TaskId → Prop
  /-- What a paired task starts is paired. -/
  whole : Prop

/-- Both settle the same number of names, of paired tasks. -/
def Pairing.Settles (pairs : Pairing) (one other : TaskId × Nat) : Prop :=
  (one.1, other.1) ∈ pairs ∧ one.2 = other.2

/-- Bindings of two frames are alike: those of paired tasks, whose names are listed, and those of
parameters, stand in the same order. A binding that only one frame has has been asked for, and a
name that is seen means it only if a later binding of both has the name. -/
inductive BindingsAlike (pairs : Pairing) (seen : Name → Prop) :
    List Name → List Binding → List Binding → Prop
  | nil : BindingsAlike pairs seen [] [] []
  | parameter {own ones others} (name : Name) (value : Value) :
      BindingsAlike pairs seen own ones others →
      BindingsAlike pairs seen (name :: own) (.parameter name value :: ones)
        (.parameter name value :: others)
  | started {own ones others one other} (names : List Name) (observed : Bool) :
      (one, other) ∈ pairs → BindingsAlike pairs seen own ones others →
      BindingsAlike pairs seen (names ++ own) (.started names one observed :: ones)
        (.started names other observed :: others)
  | left {own ones others binding} : binding.unobserved? = none →
      (∀ name ∈ binding.names, seen name → name ∈ own) →
      BindingsAlike pairs seen own ones others →
      BindingsAlike pairs seen own (binding :: ones) others
  | right {own ones others binding} : binding.unobserved? = none →
      (∀ name ∈ binding.names, seen name → name ∈ own) →
      BindingsAlike pairs seen own ones others →
      BindingsAlike pairs seen own ones (binding :: others)

/-- What a name means in two frames is alike. -/
inductive Frame.Meaning.Alike (pairs : Pairing) : Frame.Meaning → Frame.Meaning → Prop
  | parameter {name value place} : Alike pairs ⟨.parameter name value, place⟩
      ⟨.parameter name value, place⟩
  | started {names one other observed place} : (one, other) ∈ pairs →
      Alike pairs ⟨.started names one observed, place⟩ ⟨.started names other observed, place⟩

/-- The works of two tasks do the same. Of the two tasks that a race waits for, one may be no
counterpart of the other, if the one that is outruns it in both runs. -/
inductive Work.Alike (like : Likeness) (pairs : Pairing) : Work → Work → Prop
  | done (outcome : Outcome) : Alike like pairs (.done outcome) (.done outcome)
  | broken (one other : Defect) : Alike like pairs (.broken one) (.broken other)
  | fresh {one other} : Alike like pairs one other → Alike like pairs (.fresh one) (.fresh other)
  | wait {one other} : (one, other) ∈ pairs → Alike like pairs (.wait one) (.wait other)
  | race {left right left' right'} : (left, left') ∈ pairs → (right, right') ∈ pairs →
      Alike like pairs (.race left right) (.race left' right')
  | raceLeft {left right left' right'} : (left, left') ∈ pairs → like.outruns₁ left right →
      like.outruns₂ left' right' → Alike like pairs (.race left right) (.race left' right')
  | raceRight {left right left' right'} : (right, right') ∈ pairs → like.outruns₁ right left →
      like.outruns₂ right' left' → Alike like pairs (.race left right) (.race left' right')
  | sleep (wake : Nat) (outcome : Outcome) :
      Alike like pairs (.sleep wake outcome) (.sleep wake outcome)
  | after {one other} (next : Continuation) : Alike like pairs one other →
      Alike like pairs (.after one next) (.after other next)
  | gather {ones others} (shape : Shape) : List.Forall₂ (Alike like pairs) ones others →
      Alike like pairs (.gather shape ones) (.gather shape others)
  | body {one other current current' entries entries' own} (index : Nat) :
      BindingsAlike pairs like.shared own one.bindings other.bindings →
      Alike like pairs current current' → like.entries index entries entries' →
      Alike like pairs (.body one current index entries) (.body other current' index entries')
  | settle {ones others} (result : Value) : List.Forall₂ pairs.Settles ones others →
      Alike like pairs (.settle ones result) (.settle others result)

namespace BindingsAlike

variable {pairs more : Pairing} {seen fewer : Name → Prop} {own : List Name}
  {ones others : List Binding} {name : Name}

theorem mono (alike : BindingsAlike pairs seen own ones others) (le : pairs ⊆ more)
    (sees : ∀ name, fewer name → seen name) : BindingsAlike more fewer own ones others := by
  induction alike with
  | nil => exact .nil
  | parameter name value _ ih => exact .parameter name value ih
  | started names observed paired _ ih => exact .started names observed (le paired) ih
  | left settled hidden _ ih =>
      exact .left settled (fun name named few => hidden name named (sees name few)) ih
  | right settled hidden _ ih =>
      exact .right settled (fun name named few => hidden name named (sees name few)) ih

/-- A name of a binding of both frames has a meaning in both. -/
theorem findIn?_isSome (alike : BindingsAlike pairs seen own ones others) (owned : name ∈ own) :
    (Frame.findIn? name ones).isSome ∧ (Frame.findIn? name others).isSome := by
  have later {binding : Binding} {bindings : List Binding}
      (found : (Frame.findIn? name bindings).isSome) :
      (Frame.findIn? name (binding :: bindings)).isSome := by
    obtain ⟨meaning, found⟩ := Option.isSome_iff_exists.mp found
    rw [Frame.findIn?, found]
    rfl
  have here {binding : Binding} {bindings : List Binding} (named : name ∈ binding.names) :
      (Frame.findIn? name (binding :: bindings)).isSome := by
    rw [Frame.findIn?]
    split
    · rfl
    · rw [Option.isSome_map]
      exact Frame.placeOf?_isSome named
  induction alike with
  | nil => cases owned
  | parameter other value _ ih =>
      rcases List.mem_cons.mp owned with rfl | owned
      · exact ⟨here (List.mem_singleton.mpr rfl), here (List.mem_singleton.mpr rfl)⟩
      · exact ⟨later (ih owned).1, later (ih owned).2⟩
  | started names observed _ _ ih =>
      rcases List.mem_append.mp owned with named | owned
      · exact ⟨here named, here named⟩
      · exact ⟨later (ih owned).1, later (ih owned).2⟩
  | left _ _ _ ih => exact ⟨later (ih owned).1, (ih owned).2⟩
  | right _ _ _ ih => exact ⟨(ih owned).1, later (ih owned).2⟩

/-- A binding that a name is not seen to mean can be left out. -/
theorem findIn?_foreign {binding : Binding} {bindings : List Binding}
    (hidden : name ∈ binding.names → (Frame.findIn? name bindings).isSome) :
    Frame.findIn? name (binding :: bindings) = Frame.findIn? name bindings := by
  rw [Frame.findIn?]
  cases found : Frame.findIn? name bindings with
  | some meaning => rfl
  | none =>
      rw [found] at hidden
      have unnamed : placeOf? name binding.names = none := by
        rw [← Option.not_isSome_iff_eq_none, Frame.placeOf?_isSome_iff]
        exact fun named => absurd (hidden named) Bool.false_ne_true
      rw [unnamed]
      rfl

/-- A name that is seen means the same in both frames. -/
theorem findIn? (alike : BindingsAlike pairs seen own ones others) (sees : seen name) :
    Option.Rel (Frame.Meaning.Alike pairs) (Frame.findIn? name ones)
      (Frame.findIn? name others) := by
  induction alike with
  | nil => exact .none
  | @parameter own ones others called value _ ih =>
      rw [Frame.findIn?, Frame.findIn?]
      generalize Frame.findIn? name ones = first at ih ⊢
      generalize Frame.findIn? name others = second at ih ⊢
      cases ih with
      | some same => exact .some same
      | none =>
          simp only [Binding.names]
          cases placeOf? name [called] with
          | none => exact .none
          | some place => exact .some .parameter
  | @started own ones others one other names observed paired _ ih =>
      rw [Frame.findIn?, Frame.findIn?]
      generalize Frame.findIn? name ones = first at ih ⊢
      generalize Frame.findIn? name others = second at ih ⊢
      cases ih with
      | some same => exact .some same
      | none =>
          simp only [Binding.names]
          cases placeOf? name names with
          | none => exact .none
          | some place => exact .some (.started paired)
  | left _ hidden alike ih =>
      rw [findIn?_foreign fun named => (alike.findIn?_isSome (hidden name named sees)).1]
      exact ih
  | right _ hidden alike ih =>
      rw [findIn?_foreign fun named => (alike.findIn?_isSome (hidden name named sees)).2]
      exact ih

/-- Asking for a name that is seen marks bindings of both frames or of none. -/
theorem observeIn? (alike : BindingsAlike pairs seen own ones others) (sees : seen name) :
    Option.Rel (BindingsAlike pairs seen own) (Frame.observeIn? name ones)
        (Frame.observeIn? name others) ∧
      (name ∈ own → (Frame.observeIn? name ones).isSome) := by
  induction alike with
  | nil => exact ⟨.none, nofun⟩
  | @parameter own ones others called value alike ih =>
      obtain ⟨same, asks⟩ := ih
      simp only [Frame.observeIn?]
      generalize Frame.observeIn? name ones = first at same asks ⊢
      generalize Frame.observeIn? name others = second at same asks ⊢
      cases same with
      | some same => exact ⟨.some (.parameter called value same), fun _ => rfl⟩
      | none =>
          by_cases here : name ∈ [called]
          · simp only [Binding.names, here, if_true]
            exact ⟨.some (.parameter called value alike), fun _ => rfl⟩
          · simp only [Binding.names, here, if_false]
            refine ⟨.none, fun owned => ?_⟩
            rcases List.mem_cons.mp owned with rfl | owned
            · exact absurd (List.mem_singleton.mpr rfl) here
            · exact asks owned
  | @started own ones others one other names observed paired alike ih =>
      obtain ⟨same, asks⟩ := ih
      simp only [Frame.observeIn?]
      generalize Frame.observeIn? name ones = first at same asks ⊢
      generalize Frame.observeIn? name others = second at same asks ⊢
      cases same with
      | some same => exact ⟨.some (.started names observed paired same), fun _ => rfl⟩
      | none =>
          by_cases here : name ∈ names
          · simp only [Binding.names, here, if_true]
            exact ⟨.some (.started names true paired alike), fun _ => rfl⟩
          · simp only [Binding.names, here, if_false]
            refine ⟨.none, fun owned => ?_⟩
            rcases List.mem_append.mp owned with named | owned
            · exact absurd named here
            · exact asks owned
  | @left own ones others binding settled hidden alike ih =>
      obtain ⟨same, asks⟩ := ih
      simp only [Frame.observeIn?]
      generalize Frame.observeIn? name ones = first at same asks ⊢
      generalize Frame.observeIn? name others = second at same asks ⊢
      cases same with
      | some same => exact ⟨.some (.left settled hidden same), fun _ => rfl⟩
      | none =>
          rw [if_neg fun named => absurd (asks (hidden name named sees)) Bool.false_ne_true]
          exact ⟨.none, asks⟩
  | @right own ones others binding settled hidden alike ih =>
      obtain ⟨same, asks⟩ := ih
      simp only [Frame.observeIn?]
      generalize Frame.observeIn? name ones = first at same asks ⊢
      generalize Frame.observeIn? name others = second at same asks ⊢
      cases same with
      | some same => exact ⟨.some (.right settled hidden same), fun _ => rfl⟩
      | none =>
          rw [if_neg fun named => absurd (asks (hidden name named sees)) Bool.false_ne_true]
          exact ⟨.none, asks⟩

theorem observe {one other : Frame}
    (alike : BindingsAlike pairs seen own one.bindings other.bindings) (sees : seen name) :
    BindingsAlike pairs seen own (one.observe name).bindings (other.observe name).bindings := by
  have same := (alike.observeIn? sees).1
  rw [Frame.observe, Frame.observe]
  generalize Frame.observeIn? name one.bindings = first at same ⊢
  generalize Frame.observeIn? name other.bindings = second at same ⊢
  cases same with
  | some same => exact same
  | none => exact alike

theorem unobserved (alike : BindingsAlike pairs seen own ones others) :
    List.Forall₂ pairs.Settles (ones.filterMap Binding.unobserved?)
      (others.filterMap Binding.unobserved?) := by
  induction alike with
  | nil => exact .nil
  | parameter _ _ _ ih => exact ih
  | started names observed paired _ ih =>
      cases observed with
      | true => exact ih
      | false => exact .cons ⟨paired, rfl⟩ ih
  | left settled _ _ ih =>
      rw [List.filterMap_cons_none settled]
      exact ih
  | right settled _ _ ih =>
      rw [List.filterMap_cons_none settled]
      exact ih

/-- Both frames get a binding of paired tasks; its names are seen from then on. -/
theorem snoc {names : List Name} {one other : TaskId} {observed : Bool}
    (alike : BindingsAlike pairs seen own ones others) (paired : (one, other) ∈ pairs) :
    BindingsAlike pairs (fun name => seen name ∨ name ∈ names) (own ++ names)
      (ones ++ [.started names one observed]) (others ++ [.started names other observed]) := by
  induction alike with
  | nil =>
      have none : BindingsAlike pairs (fun name => seen name ∨ name ∈ names) [] [] [] := .nil
      have last := none.started names observed paired
      rw [List.append_nil] at last
      exact last
  | parameter name value _ ih => exact .parameter name value ih
  | started others observed paired _ ih =>
      rw [List.append_assoc]
      exact .started others observed paired ih
  | left settled hidden _ ih =>
      refine .left settled (fun name named sees => ?_) ih
      rw [List.mem_append]
      exact sees.imp_left (hidden name named)
  | right settled hidden _ ih =>
      refine .right settled (fun name named sees => ?_) ih
      rw [List.mem_append]
      exact sees.imp_left (hidden name named)

/-- One frame gets a binding whose names are not seen. -/
theorem snocLeft {binding : Binding} (alike : BindingsAlike pairs seen own ones others)
    (settled : binding.unobserved? = none) (hidden : ∀ name ∈ binding.names, ¬seen name) :
    BindingsAlike pairs seen own (ones ++ [binding]) others := by
  induction alike with
  | nil => exact .left settled (fun name named sees => absurd sees (hidden name named)) .nil
  | parameter name value _ ih => exact .parameter name value ih
  | started names observed paired _ ih => exact .started names observed paired ih
  | left others shadowed _ ih => exact .left others shadowed ih
  | right others shadowed _ ih => exact .right others shadowed ih

theorem appendLeft {bindings : List Binding} (alike : BindingsAlike pairs seen own ones others)
    (settled : ∀ binding ∈ bindings, binding.unobserved? = none)
    (hidden : ∀ name ∈ bindings.flatMap Binding.names, ¬seen name) :
    BindingsAlike pairs seen own (ones ++ bindings) others := by
  induction bindings generalizing ones with
  | nil =>
      rw [List.append_nil]
      exact alike
  | cons binding bindings ih =>
      rw [List.forall_mem_cons] at settled
      rw [List.flatMap_cons, List.forall_mem_append] at hidden
      rw [← List.singleton_append, ← List.append_assoc]
      exact ih (alike.snocLeft settled.1 hidden.1) settled.2 hidden.2

theorem flip (alike : BindingsAlike pairs seen own ones others) :
    BindingsAlike (pairs.map Prod.swap) seen own others ones := by
  induction alike with
  | nil => exact .nil
  | parameter name value _ ih => exact .parameter name value ih
  | started names observed paired _ ih =>
      exact .started names observed (List.mem_map.mpr ⟨_, paired, rfl⟩) ih
  | left settled hidden _ ih => exact .right settled hidden ih
  | right settled hidden _ ih => exact .left settled hidden ih

theorem appendRight {bindings : List Binding} (alike : BindingsAlike pairs seen own ones others)
    (settled : ∀ binding ∈ bindings, binding.unobserved? = none)
    (hidden : ∀ name ∈ bindings.flatMap Binding.names, ¬seen name) :
    BindingsAlike pairs seen own ones (others ++ bindings) := by
  have same := (alike.flip.appendLeft settled hidden).flip
  rw [List.map_map, Prod.swap_swap_eq, List.map_id] at same
  exact same

theorem parameters (bindings : List (Name × Value)) :
    ∃ own, BindingsAlike pairs seen own (bindings.map fun (name, value) => .parameter name value)
      (bindings.map fun (name, value) => .parameter name value) := by
  induction bindings with
  | nil => exact ⟨[], .nil⟩
  | cons binding bindings ih =>
      obtain ⟨own, alike⟩ := ih
      exact ⟨_, .parameter binding.1 binding.2 alike⟩

end BindingsAlike

theorem Pairing.settles_mono {pairs more : Pairing} (le : pairs ⊆ more) {one other : TaskId × Nat}
    (settles : pairs.Settles one other) : more.Settles one other :=
  ⟨le settles.1, settles.2⟩

namespace Work

variable {like : Likeness} {pairs more : Pairing}

mutual

theorem alike_mono (le : pairs ⊆ more) : ∀ (one : Work) {other : Work},
    one.Alike like pairs other → one.Alike like more other
  | .done _, _, alike => by
      cases alike
      exact .done _
  | .broken _, _, alike => by
      cases alike
      exact .broken _ _
  | .fresh one, _, alike => by
      cases alike with
      | fresh same => exact .fresh (alike_mono le one same)
  | .wait _, _, alike => by
      cases alike with
      | wait paired => exact .wait (le paired)
  | .race _ _, _, alike => by
      cases alike with
      | race left right => exact .race (le left) (le right)
      | raceLeft left first second => exact .raceLeft (le left) first second
      | raceRight right first second => exact .raceRight (le right) first second
  | .sleep _ _, _, alike => by
      cases alike
      exact .sleep _ _
  | .after one _, _, alike => by
      cases alike with
      | after _ same => exact .after _ (alike_mono le one same)
  | .gather _ ones, _, alike => by
      cases alike with
      | gather _ same => exact .gather _ (alikeAll_mono le ones same)
  | .body _ current _ _, _, alike => by
      cases alike with
      | body _ frames same entries =>
          exact .body _ (frames.mono le fun _ => id) (alike_mono le current same) entries
  | .settle _ _, _, alike => by
      cases alike with
      | settle _ same =>
          exact .settle _ (same.imp fun _ _ => Pairing.settles_mono le)

theorem alikeAll_mono (le : pairs ⊆ more) : ∀ (ones : List Work) {others : List Work},
    List.Forall₂ (Alike like pairs) ones others → List.Forall₂ (Alike like more) ones others
  | [], _, alike => by
      cases alike
      exact .nil
  | one :: ones, _, alike => by
      cases alike with
      | cons same rest => exact .cons (alike_mono le one same) (alikeAll_mono le ones rest)

end

theorem getElem?_alike {ones others : List Work}
    (alike : List.Forall₂ (Alike like pairs) ones others) (index : Nat) :
    Option.Rel (Alike like pairs) ones[index]? others[index]? := by
  induction alike generalizing index with
  | nil => exact .none
  | cons same _ ih =>
      cases index with
      | zero => exact .some same
      | succ index => exact ih index

namespace Alike

variable {one other : Work}

theorem mono (alike : one.Alike like pairs other) (le : pairs ⊆ more) :
    one.Alike like more other := alike_mono le one alike

theorem ended? (alike : one.Alike like pairs other) :
    Option.Rel (Alike like pairs) one.ended? other.ended? := by
  cases alike with
  | done outcome => exact .some (.done outcome)
  | broken first second => exact .some (.broken first second)
  | _ => exact .none

theorem ended?_eq_none (alike : one.Alike like pairs other) (going : one.ended? = none) :
    other.ended? = none := by
  have same := alike.ended?
  rw [going] at same
  generalize other.ended? = ended at same ⊢
  cases same
  rfl

theorem value? (alike : one.Alike like pairs other) : one.value? = other.value? := by
  cases alike with
  | done outcome => rfl
  | _ => rfl

theorem broken? (alike : one.Alike like pairs other) :
    Option.Rel (Alike like pairs) one.broken? other.broken? := by
  cases alike with
  | broken first second => exact .some (.broken first second)
  | _ => exact .none

theorem failed? (alike : one.Alike like pairs other) :
    Option.Rel (Alike like pairs) one.failed? other.failed? := by
  cases alike with
  | done outcome =>
      cases outcome with
      | ok value => exact .none
      | error failure => exact .some (.done _)
  | broken first second => exact .some (.broken first second)
  | _ => exact .none

theorem meetLeft (alike : one.Alike like pairs other) : one.meet.Alike like pairs other := by
  have same := alike
  cases alike with
  | broken first second => exact .broken _ _
  | _ => exact same

theorem meetRight (alike : one.Alike like pairs other) : one.Alike like pairs other.meet := by
  have same := alike
  cases alike with
  | broken first second => exact .broken _ _
  | _ => exact same

theorem inner? (alike : one.Alike like pairs other) (index : Nat) :
    Option.Rel (Alike like pairs) (one.inner? index) (other.inner? index) := by
  cases alike with
  | after next same =>
      cases index with
      | zero => exact .some same
      | succ index => exact .none
  | body number frames same entries =>
      cases index with
      | zero => exact .some same
      | succ index => exact .none
  | gather shape same =>
      exact getElem?_alike same index
  | _ => cases index <;> exact .none

/-- Like works have like parts at the same places. -/
theorem part? {place : List Nat} (alike : one.Alike like pairs other) :
    Option.Rel (Alike like pairs) (one.part? place) (other.part? place) := by
  induction place generalizing one other with
  | nil => exact .some alike
  | cons index place ih =>
      have inner := alike.inner? index
      rw [Work.part?, Work.part?]
      generalize one.inner? index = first at inner ⊢
      generalize other.inner? index = second at inner ⊢
      cases inner with
      | none => exact .none
      | some same => exact ih same

end Alike

section
variable {ones others : List Work}

theorem findSome?_alike {f : Work → Option Work}
    (same : ∀ {one other : Work}, one.Alike like pairs other →
      Option.Rel (Alike like pairs) (f one) (f other))
    (alike : List.Forall₂ (Alike like pairs) ones others) :
    Option.Rel (Alike like pairs) (ones.findSome? f) (others.findSome? f) := by
  induction alike with
  | nil => exact .none
  | @cons one other ones others first _ ih =>
      have here := same first
      rw [List.findSome?_cons, List.findSome?_cons]
      generalize f one = found at here ⊢
      generalize f other = found' at here ⊢
      cases here with
      | some same => exact .some same
      | none => exact ih

theorem mapM_value?_alike (alike : List.Forall₂ (Alike like pairs) ones others) :
    ones.mapM value? = others.mapM value? := by
  induction alike with
  | nil => rfl
  | cons first _ ih => rw [List.mapM_cons, List.mapM_cons, first.value?, ih]

theorem spoiled?_alike (alike : List.Forall₂ (Alike like pairs) ones others) :
    Option.Rel (Alike like pairs) (spoiled? ones) (spoiled? others) := by
  have first : Option.Rel (Alike like pairs)
      ((ones.dropWhile (·.value?.isSome)).head?.bind Work.failed?)
      ((others.dropWhile (·.value?.isSome)).head?.bind Work.failed?) := by
    induction alike with
    | nil => exact .none
    | @cons one other ones others same _ ih =>
        rw [List.dropWhile_cons, List.dropWhile_cons, same.value?]
        by_cases value : other.value?.isSome
        · rw [if_pos value, if_pos value]
          exact ih
        · rw [if_neg value, if_neg value]
          exact same.failed?
  have broken := findSome?_alike (fun same => same.broken?) alike
  rw [spoiled?, spoiled?, alike.length_eq]
  split
  · exact findSome?_alike (fun same => same.failed?) alike
  · generalize ones.findSome? Work.broken? = one at broken ⊢
    generalize others.findSome? Work.broken? = other at broken ⊢
    cases broken with
    | some same => exact .some same
    | none => exact first

end

mutual

theorem wakes_alike : ∀ (one : Work) {other : Work}, one.Alike like pairs other →
    one.wakes = other.wakes
  | .fresh one, _, alike => by
      cases alike with
      | fresh same =>
          rw [wakes, wakes]
          exact wakes_alike one same
  | .after one _, _, alike => by
      cases alike with
      | after _ same =>
          rw [wakes, wakes]
          exact wakes_alike one same
  | .gather _ ones, _, alike => by
      cases alike with
      | gather _ same =>
          rw [wakes, wakes]
          exact wakesOfAll_alike ones same
  | .body _ current _ _, _, alike => by
      cases alike with
      | body _ _ same _ =>
          rw [wakes, wakes]
          exact wakes_alike current same
  | .sleep _ _, _, alike => by
      cases alike
      rfl
  | .done _, _, alike | .broken _, _, alike | .wait _, _, alike | .race _ _, _, alike
  | .settle _ _, _, alike => by cases alike <;> rfl

theorem wakesOfAll_alike : ∀ (ones : List Work) {others : List Work},
    List.Forall₂ (Alike like pairs) ones others → wakesOfAll ones = wakesOfAll others
  | [], _, alike => by
      cases alike
      rfl
  | one :: ones, _, alike => by
      cases alike with
      | cons same rest =>
          rw [wakesOfAll, wakesOfAll, wakes_alike one same, wakesOfAll_alike ones rest]

end

end Work

end Runbook
