import Runbook.Evaluation.Work
import Runbook.Proofs.Lowering.Supported
import Mathlib.Order.Filter.AtTopBot.Basic

/-!
The evaluation of routines from left to right.

There are no tasks and no time: each step is evaluated where it stands, and the first failure ends
the evaluation. The value of a binding is stored, and split where a step reads one of its names or,
if none does, at the end of the body. Calls are nested up to some depth; what an evaluation gives at
one depth, it gives at all greater ones.
-/
namespace Runbook

/-- Why an evaluation gives no value. -/
inductive Stop where
  | failed (failure : Failure)
  | broken (defect : Defect)
  /-- Calls are nested too deep. -/
  | exhausted
  deriving DecidableEq, Repr

/-- A stored value: the group of names that stand for it, and whether it has been asked for. -/
structure Stored where
  names : List Name
  value : Value
  taken : Bool
  deriving DecidableEq, Repr

/-- The part of the value that a name at that place of the group stands for. -/
def Stored.part (stored : Stored) (place : Fin stored.names.length) : Except Stop Value :=
  match stored.value.split stored.names.length with
  | .ok ⟨values, same⟩ => .ok (values.get (place.cast same.symm))
  | .error failure => .error (.failed failure)

/-- Stored values, the last one first. -/
abbrev Store := List Stored

namespace Store

/-- Reads a name: what was stored last under it is asked for. -/
def read (name : Name) : Store → Except Stop (Value × Store)
  | [] => .error (.broken (.unboundName name))
  | stored :: store =>
    match placeOf? name stored.names with
    | some place => do
      let value ← stored.part place
      pure (value, { stored with taken := true } :: store)
    | none => do
      let (value, store) ← read name store
      pure (value, stored :: store)

/-- Splits the values that have not been asked for, the first one first. -/
def settle : Store → Except Stop Unit
  | [] => pure ()
  | stored :: store => do
    settle store
    if stored.taken then pure ()
    else
      match stored.value.split stored.names.length with
      | .ok _ => pure ()
      | .error failure => throw (.failed failure)

end Store

/-- What routines are evaluated with. -/
structure Host where
  library : Library
  /-- What a primitive gives for its argument. -/
  primitives : Identifier → Option (Value → Outcome)
  /-- Is a binding asked for where its whole value is taken: that of the last entry, and one inside
  of another step? -/
  wholes : Bool

namespace Host

/-- What the primitive of that name gives. -/
def perform (host : Host) (name : Identifier) (argument : Value) : Except Stop Value :=
  match host.primitives name with
  | none => .error (.broken (.unknownPrimitive name))
  | some action =>
    match action argument with
    | .ok value => .ok value
    | .error failure => .error (.failed failure)

variable (host : Host) (call : Callee → Value → Except Stop Value)

mutual

/-- The value of a step, and the store after it. -/
def evaluate (store : Store) : Step → Except Stop (Value × Store)
  | .literal literal => evaluateLiteral store literal
  | .bind names step => do
    let (value, store) ← evaluate store step
    pure (value, ⟨names, value, host.wholes⟩ :: store)
  | .call callee argument => do
    let (value, store) ← evaluate store argument
    let result ← call callee value
    pure (result, store)
  | .invoke name argument => do
    let (value, store) ← evaluate store argument
    let result ← host.perform name value
    pure (result, store)
  | .tuple steps => do
    let (values, store) ← evaluateAll store steps
    pure (.ofResults values, store)
  | .read name => store.read name

def evaluateLiteral (store : Store) : Literal → Except Stop (Value × Store)
  | .unit => pure (.unit, store)
  | .text text => pure (.text text, store)
  | .quantity quantity => pure (.quantity quantity, store)
  | .tablet fields => do
    let (values, store) ← evaluateFields store fields
    pure (.tablet ((fields.map Prod.fst).zip values), store)

def evaluateAll (store : Store) : List Step → Except Stop (List Value × Store)
  | [] => pure ([], store)
  | step :: steps => do
    let (value, store) ← evaluate store step
    let (values, store) ← evaluateAll store steps
    pure (value :: values, store)

def evaluateFields (store : Store) : List (Label × Step) → Except Stop (List Value × Store)
  | [] => pure ([], store)
  | (_, step) :: fields => do
    let (value, store) ← evaluate store step
    let (values, store) ← evaluateFields store fields
    pure (value :: values, store)

end

/-- The value of an entry. That of a binding is stored and is the entry's only if it is the last. -/
def evaluateEntry (isLast : Bool) (store : Store) : Step → Except Stop (Value × Store)
  | .bind names step => do
    let (value, store) ← host.evaluate call store step
    if isLast then pure (value, ⟨names, value, host.wholes⟩ :: store)
    else pure (.unit, ⟨names, value, false⟩ :: store)
  | step => host.evaluate call store step

/-- The value of the last entry, or the given one if there is none. -/
def evaluateEntries (store : Store) (value : Value) : List Entry → Except Stop (Value × Store)
  | [] => pure (value, store)
  | entry :: entries => do
    let (value, store) ← host.evaluateEntry call entries.isEmpty store entry.step
    evaluateEntries store value entries

/-- The value of a body after its store has been begun. -/
def evaluateBody (store : Store) (value : Value) (entries : List Entry) : Except Stop Value := do
  let (value, store) ← host.evaluateEntries call store value entries
  store.settle
  pure value

/-- The store that parameters begin with. -/
def bindParameters (parameters : List Name) (argument : Value) : Except Stop Store :=
  if parameters.isEmpty then .ok []
  else
    match argument.split parameters.length with
    | .ok ⟨values, _⟩ =>
      .ok ((parameters.zip values).map fun (name, value) => ⟨[name], value, true⟩).reverse
    | .error failure => .error (.failed failure)

def evaluateRoutine (routine : Routine) (argument : Value) : Except Stop Value := do
  let store ← bindParameters routine.parameters argument
  host.evaluateBody call store .unit routine.sequence

/-- Calls a routine of the library, in which calls are nested at most so deep. -/
def callUpTo (host : Host) : Nat → Callee → Value → Except Stop Value
  | 0, _, _ => .error .exhausted
  | depth + 1, callee, argument =>
    match host.library.get? callee with
    | none => .error (.broken (.missingRoutine callee))
    | some routine => host.evaluateRoutine (host.callUpTo depth) routine argument

/-- Runs a routine, in which calls are nested at most so deep. -/
def run (host : Host) (depth : Nat) : Routine → Value → Except Stop Value :=
  host.evaluateRoutine (host.callUpTo depth)

end Host

@[simp] theorem Stop.bind_eq_ok {α β : Type} {part : Except Stop α} {next : α → Except Stop β}
    {b : β} : (part >>= next) = .ok b ↔ ∃ a, part = .ok a ∧ next a = .ok b := by
  cases part with
  | error stop =>
      refine iff_of_false nofun ?_
      intro found
      obtain ⟨a, none, _⟩ := found
      cases none
  | ok a => simp [bind, Except.bind]

@[simp] theorem Stop.pure_eq_ok {α : Type} {a b : α} :
    (pure a : Except Stop α) = .ok b ↔ a = b := by
  constructor
  · intro same
    cases same
    rfl
  · intro same
    rw [same]
    rfl

namespace Host

open Filter

/-- What a call gives, the calls at all depths from some on do. -/
def Approach (calls : Nat → Callee → Value → Except Stop Value)
    (call : Callee → Value → Except Stop Value) : Prop :=
  ∀ callee argument value, call callee argument = .ok value →
    ∀ᶠ depth in atTop, calls depth callee argument = .ok value

variable {host : Host} {call : Callee → Value → Except Stop Value}
  {calls : Nat → Callee → Value → Except Stop Value}

theorem eventually_bind {α β : Type} {first : Nat → Except Stop α}
    {next : Nat → α → Except Stop β} {a : α} {b : β}
    (found : ∀ᶠ depth in atTop, first depth = .ok a)
    (rest : ∀ᶠ depth in atTop, next depth a = .ok b) :
    ∀ᶠ depth in atTop, (first depth >>= next depth) = .ok b := by
  filter_upwards [found, rest] with depth same again
  exact Stop.bind_eq_ok.mpr ⟨a, same, again⟩

mutual

theorem evaluate_eventually (limit : Approach calls call) {store : Store}
    {result : Value × Store} : ∀ step : Step, host.evaluate call store step = .ok result →
      ∀ᶠ depth in atTop, host.evaluate (calls depth) store step = .ok result
  | .literal literal, gives => evaluateLiteral_eventually limit literal gives
  | .bind names step, gives => by
      simp only [evaluate] at gives ⊢
      obtain ⟨first, found, rest⟩ := Stop.bind_eq_ok.mp gives
      exact eventually_bind (evaluate_eventually limit step found) (.of_forall fun _ => rest)
  | .call callee argument, gives => by
      simp only [evaluate] at gives ⊢
      obtain ⟨first, found, rest⟩ := Stop.bind_eq_ok.mp gives
      obtain ⟨value, called, last⟩ := Stop.bind_eq_ok.mp rest
      exact eventually_bind (evaluate_eventually limit argument found)
        (eventually_bind (limit callee first.1 value called) (.of_forall fun _ => last))
  | .invoke name argument, gives => by
      simp only [evaluate] at gives ⊢
      obtain ⟨first, found, rest⟩ := Stop.bind_eq_ok.mp gives
      exact eventually_bind (evaluate_eventually limit argument found) (.of_forall fun _ => rest)
  | .tuple steps, gives => by
      simp only [evaluate] at gives ⊢
      obtain ⟨first, found, rest⟩ := Stop.bind_eq_ok.mp gives
      exact eventually_bind (evaluateAll_eventually limit steps found) (.of_forall fun _ => rest)
  | .read name, gives => .of_forall fun _ => gives

theorem evaluateLiteral_eventually (limit : Approach calls call) {store : Store}
    {result : Value × Store} : ∀ literal : Literal,
      host.evaluateLiteral call store literal = .ok result →
        ∀ᶠ depth in atTop, host.evaluateLiteral (calls depth) store literal = .ok result
  | .unit, gives | .text _, gives | .quantity _, gives => .of_forall fun _ => gives
  | .tablet fields, gives => by
      simp only [evaluateLiteral] at gives ⊢
      obtain ⟨first, found, rest⟩ := Stop.bind_eq_ok.mp gives
      exact eventually_bind (evaluateFields_eventually limit fields found)
        (.of_forall fun _ => rest)

theorem evaluateAll_eventually (limit : Approach calls call) {store : Store}
    {result : List Value × Store} : ∀ steps : List Step,
      host.evaluateAll call store steps = .ok result →
        ∀ᶠ depth in atTop, host.evaluateAll (calls depth) store steps = .ok result
  | [], gives => .of_forall fun _ => gives
  | step :: steps, gives => by
      simp only [evaluateAll] at gives ⊢
      obtain ⟨first, found, rest⟩ := Stop.bind_eq_ok.mp gives
      obtain ⟨others, follows, last⟩ := Stop.bind_eq_ok.mp rest
      exact eventually_bind (evaluate_eventually limit step found)
        (eventually_bind (evaluateAll_eventually limit steps follows) (.of_forall fun _ => last))

theorem evaluateFields_eventually (limit : Approach calls call) {store : Store}
    {result : List Value × Store} : ∀ fields : List (Label × Step),
      host.evaluateFields call store fields = .ok result →
        ∀ᶠ depth in atTop, host.evaluateFields (calls depth) store fields = .ok result
  | [], gives => .of_forall fun _ => gives
  | (_, step) :: fields, gives => by
      simp only [evaluateFields] at gives ⊢
      obtain ⟨first, found, rest⟩ := Stop.bind_eq_ok.mp gives
      obtain ⟨others, follows, last⟩ := Stop.bind_eq_ok.mp rest
      exact eventually_bind (evaluate_eventually limit step found)
        (eventually_bind (evaluateFields_eventually limit fields follows)
          (.of_forall fun _ => last))

end

theorem evaluateEntry_eventually (limit : Approach calls call) {isLast : Bool} {store : Store}
    {step : Step} {result : Value × Store}
    (gives : host.evaluateEntry call isLast store step = .ok result) :
    ∀ᶠ depth in atTop, host.evaluateEntry (calls depth) isLast store step = .ok result := by
  cases step with
  | bind names step =>
      simp only [evaluateEntry] at gives ⊢
      obtain ⟨first, found, rest⟩ := Stop.bind_eq_ok.mp gives
      exact eventually_bind (evaluate_eventually limit step found) (.of_forall fun _ => rest)
  | _ => exact evaluate_eventually limit _ gives

theorem evaluateEntries_eventually (limit : Approach calls call) {entries : List Entry}
    {store : Store} {value : Value} {result : Value × Store}
    (gives : host.evaluateEntries call store value entries = .ok result) :
    ∀ᶠ depth in atTop, host.evaluateEntries (calls depth) store value entries = .ok result := by
  induction entries generalizing store value with
  | nil => exact .of_forall fun _ => gives
  | cons entry entries ih =>
      simp only [evaluateEntries] at gives ⊢
      obtain ⟨first, found, rest⟩ := Stop.bind_eq_ok.mp gives
      exact eventually_bind (evaluateEntry_eventually limit found) (ih rest)

theorem evaluateRoutine_eventually (limit : Approach calls call) {routine : Routine}
    {argument value : Value} (gives : host.evaluateRoutine call routine argument = .ok value) :
    ∀ᶠ depth in atTop, host.evaluateRoutine (calls depth) routine argument = .ok value := by
  simp only [evaluateRoutine, evaluateBody] at gives ⊢
  obtain ⟨store, bound, body⟩ := Stop.bind_eq_ok.mp gives
  obtain ⟨last, found, rest⟩ := Stop.bind_eq_ok.mp body
  exact eventually_bind (.of_forall fun _ => bound)
    (eventually_bind (evaluateEntries_eventually limit found) (.of_forall fun _ => rest))

/-- Where each call that gives a value gives it again, so does each routine. -/
theorem evaluateRoutine_mono {other : Callee → Value → Except Stop Value}
    (le : ∀ callee argument value, call callee argument = .ok value →
      other callee argument = .ok value) {routine : Routine} {argument value : Value}
    (gives : host.evaluateRoutine call routine argument = .ok value) :
    host.evaluateRoutine other routine argument = .ok value := by
  have limit : Approach (fun _ => other) call := fun callee argument value called =>
    .of_forall fun _ => le callee argument value called
  obtain ⟨_, same⟩ := (evaluateRoutine_eventually limit gives).exists
  exact same

/-- What a call gives at one depth, it gives at all greater ones. -/
theorem callUpTo_mono {depth more : Nat} (le : depth ≤ more) {callee : Callee}
    {argument value : Value} (gives : host.callUpTo depth callee argument = .ok value) :
    host.callUpTo more callee argument = .ok value := by
  induction depth generalizing more callee argument value with
  | zero => cases gives
  | succ depth ih =>
      obtain ⟨more, rfl⟩ : ∃ above, more = above + 1 := ⟨more - 1, by omega⟩
      rw [callUpTo] at gives ⊢
      split at gives
      · cases gives
      · exact evaluateRoutine_mono (fun _ _ _ => ih (Nat.le_of_succ_le_succ le)) gives

open Classical in
/-- Calls a routine of the library, in which calls may be nested as deep as they are. -/
noncomputable def callAny (host : Host) (callee : Callee) (argument : Value) : Except Stop Value :=
  if found : ∃ value depth, host.callUpTo depth callee argument = .ok value then .ok found.choose
  else .error .exhausted

theorem callAny_eq_ok {callee : Callee} {argument value : Value} :
    host.callAny callee argument = .ok value ↔
      ∃ depth, host.callUpTo depth callee argument = .ok value := by
  rw [callAny]
  split
  · rename_i found
    obtain ⟨depth, gives⟩ := found.choose_spec
    constructor
    · intro same
      cases same
      exact ⟨depth, gives⟩
    · intro other
      obtain ⟨more, again⟩ := other
      have first := callUpTo_mono (Nat.le_max_left depth more) gives
      have second := callUpTo_mono (Nat.le_max_right depth more) again
      exact first.symm.trans second
  · rename_i none
    refine iff_of_false nofun fun found => none ?_
    exact ⟨value, found⟩

/-- A routine gives a value with calls of any depth if it does with calls up to some depth. -/
theorem evaluateRoutine_callAny {routine : Routine} {argument value : Value} :
    host.evaluateRoutine host.callAny routine argument = .ok value ↔
      ∃ depth, host.run depth routine argument = .ok value := by
  constructor
  · intro gives
    have limit : Approach host.callUpTo host.callAny := by
      intro callee argument value called
      obtain ⟨depth, found⟩ := callAny_eq_ok.mp called
      filter_upwards [eventually_ge_atTop depth] with more le
      exact callUpTo_mono le found
    exact (evaluateRoutine_eventually limit gives).exists
  · intro found
    obtain ⟨depth, gives⟩ := found
    exact evaluateRoutine_mono (fun _ _ _ called => callAny_eq_ok.mpr ⟨depth, called⟩) gives

end Host

/-- How deep calls may be nested: at each level they give what routines do at the level inside. -/
structure Depths (host : Host) where
  Level : Type
  inside : Level → Option Level
  call : Level → Callee → Value → Except Stop Value
  call_eq_ok : ∀ {level callee argument value}, call level callee argument = .ok value ↔
    ∃ inner routine, inside level = some inner ∧ host.library.get? callee = some routine ∧
      host.evaluateRoutine (call inner) routine argument = .ok value

namespace Depths

variable (host : Host)

/-- As many levels as the number says. -/
def limited : Depths host where
  Level := Nat
  inside
    | 0 => none
    | depth + 1 => some depth
  call := host.callUpTo
  call_eq_ok {level callee argument value} := by
    cases level with
    | zero => exact iff_of_false nofun (by simp)
    | succ depth =>
        rw [Host.callUpTo]
        cases found : host.library.get? callee with
        | none => simp
        | some routine => simp

/-- Levels without end. -/
noncomputable def unlimited : Depths host where
  Level := Unit
  inside := some
  call _ := host.callAny
  call_eq_ok {_ callee argument value} := by
    rw [Host.callAny_eq_ok]
    constructor
    · intro found
      obtain ⟨depth, gives⟩ := found
      cases depth with
      | zero => cases gives
      | succ depth =>
          rw [Host.callUpTo] at gives
          split at gives
          · cases gives
          · exact ⟨(), _, rfl, ‹_›, Host.evaluateRoutine_callAny.mpr ⟨depth, gives⟩⟩
    · intro found
      obtain ⟨_, routine, _, there, gives⟩ := found
      obtain ⟨depth, same⟩ := Host.evaluateRoutine_callAny.mp gives
      refine ⟨depth + 1, ?_⟩
      rw [Host.callUpTo, there]
      exact same

end Depths

end Runbook
