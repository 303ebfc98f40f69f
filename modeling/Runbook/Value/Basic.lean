import Runbook.Syntax.Basic

/-!
What performing a step gives: a value or a failure.
-/
namespace Runbook

/-- The result of a step. -/
inductive Value where
  | unit
  | text (text : String)
  | quantity (quantity : Quantity)
  /-- Labelled values in order. -/
  | tablet (fields : List (Label × Value))
  /-- The results of steps performed together, in order. -/
  | parallel (values : List Value)
  deriving Repr, Inhabited

/-- Why a step gives no value. -/
inductive Failure where
  /-- A primitive refused its argument. -/
  | builtin (name : Identifier) (detail : String)
  /-- So many names stand for so many values. -/
  | arity (expected found : Nat)
  /-- The task was given up. -/
  | cancelled
  deriving DecidableEq, Repr

def Failure.message : Failure → String
  | .builtin name detail => name ++ ": " ++ detail
  | .arity expected found =>
    "cannot bind " ++ toString expected ++ " names to " ++ toString found ++ " values"
  | .cancelled => "task was cancelled before completing"

abbrev Outcome := Except Failure Value

namespace Value

mutual

def decideEq : (a b : Value) → Decidable (a = b)
  | .unit, .unit => .isTrue rfl
  | .text a, .text b => decidable_of_iff (a = b) (by simp)
  | .quantity a, .quantity b => decidable_of_iff (a = b) (by simp)
  | .tablet a, .tablet b =>
    have := decideEqFields a b
    decidable_of_iff (a = b) (by simp)
  | .parallel a, .parallel b =>
    have := decideEqAll a b
    decidable_of_iff (a = b) (by simp)
  | .unit, .text _ | .unit, .quantity _ | .unit, .tablet _ | .unit, .parallel _
  | .text _, .unit | .text _, .quantity _ | .text _, .tablet _ | .text _, .parallel _
  | .quantity _, .unit | .quantity _, .text _ | .quantity _, .tablet _
  | .quantity _, .parallel _ | .tablet _, .unit | .tablet _, .text _ | .tablet _, .quantity _
  | .tablet _, .parallel _ | .parallel _, .unit | .parallel _, .text _
  | .parallel _, .quantity _ | .parallel _, .tablet _ => .isFalse (by simp)

def decideEqFields : (a b : List (Label × Value)) → Decidable (a = b)
  | [], [] => .isTrue rfl
  | (l, v) :: a, (m, w) :: b =>
    have := decideEq v w
    have := decideEqFields a b
    decidable_of_iff ((l = m ∧ v = w) ∧ a = b) (by simp)
  | [], _ :: _ | _ :: _, [] => .isFalse (by simp)

def decideEqAll : (a b : List Value) → Decidable (a = b)
  | [], [] => .isTrue rfl
  | v :: a, w :: b =>
    have := decideEq v w
    have := decideEqAll a b
    decidable_of_iff (v = w ∧ a = b) (by simp)
  | [], _ :: _ | _ :: _, [] => .isFalse (by simp)

end

instance : DecidableEq Value := decideEq

/-- The value of steps performed together: one result stands for itself, and none is `()`. -/
def ofResults : List Value → Value
  | [] => .unit
  | [value] => value
  | values => .parallel values

/-- The values for `count` names: a value is for one name as a whole, and for several if it is as
many results; `()` is also none. -/
def split (value : Value) (count : Nat) :
    Except Failure { values : List Value // values.length = count } :=
  if h : count = 1 then .ok ⟨[value], by simp [h]⟩
  else
    match value with
    | .parallel values =>
      if h : values.length = count then .ok ⟨values, h⟩
      else .error (.arity count values.length)
    | .unit => if h : count = 0 then .ok ⟨[], by simp [h]⟩ else .error (.arity count 1)
    | _ => .error (.arity count 1)

def kind : Value → String
  | .unit => "unit"
  | .text _ => "text"
  | .quantity _ => "quantity"
  | .tablet _ => "tablet"
  | .parallel _ => "parallel"

end Value

mutual

/-- The value as it reads in a log. Text stands between quotes as it is. -/
def Value.show : Value → String
  | .unit => "()"
  | .text written => "\"" ++ written ++ "\""
  | .quantity amount => amount.show
  | .tablet [] => "[ ]"
  | .tablet ((label, value) :: fields) =>
    "[ " ++ showLabel label ++ " = " ++ value.show ++ Value.showFields fields
  | .parallel [] => "()"
  | .parallel (value :: values) => "(" ++ value.show ++ Value.showValues values

/-- The fields after the first. -/
def Value.showFields : List (Label × Value) → String
  | [] => " ]"
  | (label, value) :: fields =>
    ", " ++ showLabel label ++ " = " ++ value.show ++ Value.showFields fields

/-- The results after the first. -/
def Value.showValues : List Value → String
  | [] => ")"
  | value :: values => ", " ++ value.show ++ Value.showValues values

end

end Runbook
