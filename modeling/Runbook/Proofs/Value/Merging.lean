import Mathlib.Algebra.Ring.Int.Defs
import Mathlib.Data.List.Induction
import Runbook.Value.Merge

/-!
Values that are merged one after the other.

`Value.Merges` has one rule for each way in which two values merge. How three values are grouped has
no influence on their merge, except that a sum of quantities may leave the range of words in one
grouping and not in the other. What is there is exact: no sum is ever cut down to that range.
-/
namespace Runbook

theorem Word.add?_eq_some {a b sum : Int64} :
    Word.add? a b = some sum ↔ sum.toInt = a.toInt + b.toInt := by
  have limit : (Word.signedLimit : Int) = 2 ^ 63 := rfl
  rw [add?, signed?, limit]
  constructor
  · intro added
    split at added
    · rename_i within
      cases added
      exact Int64.toInt_ofInt_of_le within.1 within.2
    · cases added
  · intro whole
    rw [← whole, if_pos ⟨sum.le_toInt, sum.toInt_lt⟩, Int64.ofInt_toInt]

namespace Failure

/-- What an addition answers that leaves the range of words. -/
def overflow : Failure := .builtin "combine" "quantity overflow"

theorem bind_eq_ok {α β : Type} {outcome : Except Failure α} {next : α → Except Failure β}
    {result : β} : outcome >>= next = .ok result ↔ ∃ a, outcome = .ok a ∧ next a = .ok result := by
  cases outcome with
  | error failure => exact ⟨nofun, nofun⟩
  | ok a => exact ⟨fun same => ⟨a, rfl, same⟩, fun ⟨_, same, rest⟩ => by cases same; exact rest⟩

end Failure

namespace Quantity

def magnitude : Quantity → Int
  | .number n | .measure n _ => n.toInt

/-- The unit of measure; a mere number has none. -/
def unit? : Quantity → Option String
  | .number _ => none
  | .measure _ unit => some unit

/-- The third quantity is the exact sum of two others of its unit. -/
structure Sums (p q sum : Quantity) : Prop where
  left : p.unit? = sum.unit?
  right : q.unit? = sum.unit?
  magnitude : sum.magnitude = p.magnitude + q.magnitude

theorem magnitude_range (q : Quantity) : -2 ^ 63 ≤ q.magnitude ∧ q.magnitude < 2 ^ 63 := by
  cases q with
  | number n => exact ⟨n.le_toInt, n.toInt_lt⟩
  | measure n _ => exact ⟨n.le_toInt, n.toInt_lt⟩

variable {p q sum : Quantity} {failure : Failure}

theorem Sums.regroup {r first second total : Quantity} (early : p.Sums q first)
    (whole : first.Sums r total) (late : q.Sums r second) : p.Sums second total where
  left := early.left.trans whole.left
  right := late.right.symm.trans whole.right
  magnitude := by rw [whole.magnitude, early.magnitude, late.magnitude, Int.add_assoc]

theorem add_eq_ok : p.add q = .ok sum ↔ p.Sums q sum := by
  constructor
  · intro added
    cases p <;> cases q <;> simp only [add] at added
    case number.number =>
      split at added
      · rename_i found
        cases added
        exact ⟨rfl, rfl, Word.add?_eq_some.mp found⟩
      · cases added
    case measure.measure =>
      split at added
      · rename_i same
        subst same
        split at added
        · rename_i found
          cases added
          exact ⟨rfl, rfl, Word.add?_eq_some.mp found⟩
        · cases added
      · cases added
    all_goals cases added
  · rintro ⟨left, right, whole⟩
    cases sum with
    | number s =>
        cases p <;> cases left
        cases q <;> cases right
        rw [add, Word.add?_eq_some.mpr whole]
    | measure s unit =>
        cases p <;> cases left
        cases q <;> cases right
        rw [add, if_pos rfl, Word.add?_eq_some.mpr whole]

/-- Quantities of one unit have a sum, or it leaves the range of words. -/
theorem add_overflows (same : p.unit? = q.unit?) (fails : p.add q = .error failure) :
    failure = .overflow := by
  cases p <;> cases q <;> cases same <;> rw [add] at fails
  · split at fails <;> cases fails
    rfl
  · rw [if_pos rfl] at fails
    split at fails <;> cases fails
    rfl

end Quantity

namespace Value

/-- Two values merge to a third one. -/
inductive Merges : Value → Value → Value → Prop
  | left (value : Value) : Merges value .unit value
  | right (value : Value) : Merges .unit value value
  | text (a b : String) : Merges (.text a) (.text b) (.text (a ++ b))
  | quantity {p q sum : Quantity} : p.Sums q sum →
      Merges (.quantity p) (.quantity q) (.quantity sum)
  | tablet (a b : List (Label × Value)) : Merges (.tablet a) (.tablet b) (.tablet (a ++ b))
  | parallel (a b : List Value) : Merges (.parallel a) (.parallel b) (.parallel (a ++ b))

/-- What values have to agree in for a merge. -/
inductive Family where
  | text
  | quantity (unit? : Option String)
  | tablet
  | parallel

/-- `()` agrees with all values. -/
def family? : Value → Option Family
  | .unit => none
  | .text _ => some .text
  | .quantity q => some (.quantity q.unit?)
  | .tablet _ => some .tablet
  | .parallel _ => some .parallel

/-- The values are of one family, or one of them is `()`. -/
def Agrees (a b : Value) : Prop :=
  ∀ one other, a.family? = some one → b.family? = some other → one = other

variable {a b c u v w : Value}

theorem unit_merge (value : Value) : merge .unit value = .ok value := by
  cases value <;> rfl

theorem merge_unit (value : Value) : value.merge .unit = .ok value := by
  cases value <;> rfl

/-- Values that agree have a merge, unless they are quantities whose sum leaves the range of words;
others have none. -/
theorem merge_cases : ∀ a b : Value,
    (∃ v, Merges a b v ∧ a.merge b = .ok v) ∨
    (a.Agrees b ∧ a.merge b = .error .overflow) ∨
    (¬a.Agrees b ∧ ∃ failure, a.merge b = .error failure)
  | .unit, b => .inl ⟨b, .right b, unit_merge b⟩
  | a, .unit => .inl ⟨a, .left a, merge_unit a⟩
  | .text a, .text b => .inl ⟨_, .text a b, rfl⟩
  | .tablet a, .tablet b => .inl ⟨_, .tablet a b, rfl⟩
  | .parallel a, .parallel b => .inl ⟨_, .parallel a b, rfl⟩
  | .quantity p, .quantity q => by
      have merged : (quantity p).merge (quantity q) = (p.add q).map quantity := rfl
      rw [merged]
      cases added : p.add q with
      | ok sum => exact .inl ⟨_, .quantity (Quantity.add_eq_ok.mp added), rfl⟩
      | error failure =>
          by_cases same : p.unit? = q.unit?
          · refine .inr (.inl ⟨?_, congrArg Except.error (Quantity.add_overflows same added)⟩)
            rintro _ _ ⟨⟩ ⟨⟩
            exact congrArg Family.quantity same
          · refine .inr (.inr ⟨fun agrees => ?_, _, rfl⟩)
            exact same (Family.quantity.inj (agrees _ _ rfl rfl))
  | .text _, .quantity _ | .text _, .tablet _ | .text _, .parallel _
  | .quantity _, .text _ | .quantity _, .tablet _ | .quantity _, .parallel _
  | .tablet _, .text _ | .tablet _, .quantity _ | .tablet _, .parallel _
  | .parallel _, .text _ | .parallel _, .quantity _ | .parallel _, .tablet _ =>
    .inr (.inr ⟨fun agrees => (nomatch agrees _ _ rfl rfl), _, rfl⟩)

theorem Merges.merge (merges : Merges a b v) : a.merge b = .ok v := by
  cases merges with
  | left value => exact merge_unit a
  | right value => exact unit_merge b
  | text a b => rfl
  | quantity sums =>
      have added := congrArg (Except.map Value.quantity) (Quantity.add_eq_ok.mpr sums)
      exact added
  | tablet a b => rfl
  | parallel a b => rfl

theorem merge_eq_ok : a.merge b = .ok v ↔ Merges a b v := by
  constructor
  · intro merged
    rcases merge_cases a b with ⟨_, merges, same⟩ | ⟨_, fails⟩ | ⟨_, _, fails⟩
    · cases merged.symm.trans same
      exact merges
    · cases merged.symm.trans fails
    · cases merged.symm.trans fails
  · exact Merges.merge

theorem Merges.unique (merges : Merges a b v) (again : Merges a b w) : v = w :=
  Except.ok.inj (merges.merge.symm.trans again.merge)

/-- What is merged agrees, and the merge is of the family of the first value that is not `()`. -/
theorem Merges.agrees (merges : Merges a b v) :
    a.Agrees b ∧ v.family? = a.family?.or b.family? := by
  cases merges with
  | left value => exact ⟨nofun, Option.or_none.symm⟩
  | right value => exact ⟨nofun, rfl⟩
  | quantity sums =>
      refine ⟨?_, congrArg (some ∘ Family.quantity) sums.left.symm⟩
      rintro _ _ ⟨⟩ ⟨⟩
      exact congrArg Family.quantity (sums.left.trans sums.right.symm)
  | text a b => exact ⟨by rintro _ _ ⟨⟩ ⟨⟩; rfl, rfl⟩
  | tablet a b => exact ⟨by rintro _ _ ⟨⟩ ⟨⟩; rfl, rfl⟩
  | parallel a b => exact ⟨by rintro _ _ ⟨⟩ ⟨⟩; rfl, rfl⟩

/-- What merges with the merge of two values agrees with the second of them. -/
theorem Merges.agrees_second (first : Merges a b u) (second : u.Agrees c) : b.Agrees c := by
  have ⟨agrees, family⟩ := first.agrees
  intro one other there here
  refine second one other ?_ here
  rw [family]
  cases found : a.family? with
  | none => exact there
  | some before => exact congrArg some (agrees before one found there)

theorem Merges.agrees_first (second : Merges b c w) (first : a.Agrees w) : a.Agrees b := by
  have family := second.agrees.2
  intro one other there here
  refine first one other there ?_
  rw [family, here]
  rfl

/-- If values merge in one grouping, they also merge in the other one, as long as the inner merge is
there. -/
theorem Merges.regroup (first : Merges a b u) (second : Merges u c v) (inner : Merges b c w) :
    Merges a w v := by
  cases first with
  | left => cases inner.unique (.right c); exact second
  | right => cases inner.unique second; exact .right v
  | text a b =>
      cases second with
      | left => cases inner; constructor
      | text _ c => cases inner; rw [String.append_assoc]; constructor
  | quantity sums =>
      cases second with
      | left => cases inner; exact .quantity sums
      | quantity more =>
          cases inner with
          | quantity late => exact .quantity (sums.regroup more late)
  | tablet a b =>
      cases second with
      | left => cases inner; constructor
      | tablet _ c => cases inner; rw [List.append_assoc]; constructor
  | parallel a b =>
      cases second with
      | left => cases inner; constructor
      | parallel _ c => cases inner; rw [List.append_assoc]; constructor

theorem Merges.agrees_third (first : Merges a b u) (inner : Merges b c w) (second : a.Agrees w) :
    u.Agrees c := by
  have family := first.agrees.2
  have ⟨agrees, family'⟩ := inner.agrees
  intro one other there here
  rw [family] at there
  cases before : a.family? with
  | none =>
      rw [before] at there
      exact agrees one other there here
  | some own =>
      rw [before] at there
      cases there
      cases between : b.family? with
      | none => exact second one other before (by rw [family', between]; exact here)
      | some middle =>
          have same := second one middle before (by rw [family', between]; rfl)
          exact same.trans (agrees middle other between here)

/-- What merges when the first two of three values are merged first also does when the last two are,
unless the sum of these overflows. -/
theorem merge_last_two (merged : a.merge b >>= (·.merge c) = .ok v) :
    b.merge c >>= a.merge = .ok v ∨ b.merge c >>= a.merge = .error .overflow := by
  obtain ⟨u, first, second⟩ := Failure.bind_eq_ok.mp merged
  have first := merge_eq_ok.mp first
  have second := merge_eq_ok.mp second
  rcases merge_cases b c with ⟨w, inner, same⟩ | ⟨_, overflows⟩ | ⟨differ, _⟩
  · rw [same]
    exact .inl (first.regroup second inner).merge
  · rw [overflows]
    exact .inr rfl
  · exact absurd (first.agrees_second second.agrees.1) differ

/-- And so it is the other way round; here it may also be the whole sum that overflows. -/
theorem merge_first_two (merged : b.merge c >>= a.merge = .ok v) :
    a.merge b >>= (·.merge c) = .ok v ∨ a.merge b >>= (·.merge c) = .error .overflow := by
  obtain ⟨w, inner, second⟩ := Failure.bind_eq_ok.mp merged
  have inner := merge_eq_ok.mp inner
  have agrees := (merge_eq_ok.mp second).agrees.1
  rcases merge_cases a b with ⟨u, first, same⟩ | ⟨_, overflows⟩ | ⟨differ, _⟩
  · rw [same]
    rcases merge_cases u c with ⟨v', whole, same'⟩ | ⟨_, overflows⟩ | ⟨differ, _⟩
    · cases second.symm.trans (first.regroup whole inner).merge
      exact .inl same'
    · exact .inr overflows
    · exact absurd (first.agrees_third inner agrees) differ
  · rw [overflows]
    exact .inr rfl
  · exact absurd (inner.agrees_first agrees) differ

/-- The merge of all values, when one more follows them. -/
theorem mergeAll_concat {values : List Value} {value : Value} :
    mergeAll (values ++ [value]) = .ok v ↔
      ∃ merged, mergeAll values = .ok merged ∧ Merges merged value v := by
  have last (merged : Value) : [value].foldlM merge merged = merged.merge value :=
    bind_pure (merged.merge value)
  rw [mergeAll, List.foldlM_append, Failure.bind_eq_ok]
  simp only [last, merge_eq_ok]
  rfl

/-- Values that are merged apart from those before them merge with the merge of these. -/
theorem mergeAll_append {xs ys : List Value} {x y z : Value} (first : mergeAll xs = .ok x)
    (second : mergeAll ys = .ok y) (whole : mergeAll (xs ++ ys) = .ok z) : Merges x y z := by
  induction ys using List.reverseRecOn generalizing y z with
  | nil =>
      cases second
      rw [List.append_nil] at whole
      cases first.symm.trans whole
      exact .left x
  | append_singleton ys value ih =>
      rw [← List.append_assoc] at whole
      obtain ⟨early, before, last⟩ := mergeAll_concat.mp second
      obtain ⟨early', before', last'⟩ := mergeAll_concat.mp whole
      exact (ih before before').regroup last' last

theorem mergeAll_eq_unit {values : List Value} (merged : mergeAll values = .ok .unit) :
    values.filter (· ≠ .unit) = [] := by
  induction values using List.reverseRecOn with
  | nil => rfl
  | append_singleton values value ih =>
      obtain ⟨early, before, last⟩ := mergeAll_concat.mp merged
      cases last <;> rw [List.filter_append, ih before] <;> rfl

/-- A merge that is a quantity is the exact sum of all values but `()`. -/
theorem mergeAll_eq_quantity {values : List Value} {q : Quantity}
    (merged : mergeAll values = .ok (.quantity q)) :
    ∃ qs : List Quantity, qs ≠ [] ∧ values.filter (· ≠ .unit) = qs.map .quantity ∧
      (∀ p ∈ qs, p.unit? = q.unit?) ∧ q.magnitude = (qs.map Quantity.magnitude).sum := by
  induction values using List.reverseRecOn generalizing q with
  | nil => cases merged
  | append_singleton values value ih =>
      obtain ⟨early, before, last⟩ := mergeAll_concat.mp merged
      rw [List.filter_append]
      cases last with
      | left =>
          obtain ⟨qs, some', kept, units, total⟩ := ih before
          exact ⟨qs, some', by rw [kept]; exact List.append_nil _, units, total⟩
      | right =>
          refine ⟨[q], List.cons_ne_nil q [], by rw [mergeAll_eq_unit before]; rfl, ?_, ?_⟩
          · intro p only
            rw [List.mem_singleton.mp only]
          · exact (Int.add_zero _).symm
      | @quantity one other _ sums =>
          obtain ⟨qs, _, kept, units, total⟩ := ih before
          refine ⟨qs ++ [other], List.concat_ne_nil other qs, by rw [kept, List.map_append]; rfl,
            ?_, ?_⟩
          · intro p among
            rcases List.mem_append.mp among with early | last
            · exact (units p early).trans sums.left
            · rw [List.mem_singleton.mp last]
              exact sums.right
          · rw [sums.magnitude, total, List.map_append, List.sum_append]
            exact congrArg _ (Int.add_zero _).symm

/-- Merging is a partial monoid up to overflow. `()` is neutral on both sides. Two groupings of
three values that both have a merge have the same one, and if only one of them fails, a sum of
quantities has left the range of words. So lists of values that have merges, each alone and both
together, can be merged apart. Two quantities merge if they have one unit and their sum is a word,
and to nothing but that sum; and whatever values merge to a quantity, it is the exact sum of those
that are not `()`, all of them quantities of its unit. -/
theorem merge_partial_monoid :
    (∀ v : Value, merge .unit v = .ok v ∧ v.merge .unit = .ok v) ∧
    (∀ a b c : Value,
      (∀ v w, a.merge b >>= (·.merge c) = .ok v → b.merge c >>= a.merge = .ok w → v = w) ∧
      (∀ v failure, a.merge b >>= (·.merge c) = .ok v → b.merge c >>= a.merge = .error failure →
        failure = .builtin "combine" "quantity overflow") ∧
      (∀ v failure, a.merge b >>= (·.merge c) = .error failure → b.merge c >>= a.merge = .ok v →
        failure = .builtin "combine" "quantity overflow")) ∧
    (∀ (xs ys : List Value) (x y z : Value), mergeAll xs = .ok x → mergeAll ys = .ok y →
      mergeAll (xs ++ ys) = .ok z → x.merge y = .ok z) ∧
    (∀ (p q : Quantity) (v : Value), merge (.quantity p) (.quantity q) = .ok v ↔
      ∃ sum, v = .quantity sum ∧ p.Sums q sum) ∧
    ∀ (values : List Value) (q : Quantity), mergeAll values = .ok (.quantity q) →
      ∃ qs : List Quantity, qs ≠ [] ∧ values.filter (· ≠ .unit) = qs.map .quantity ∧
        (∀ p ∈ qs, p.unit? = q.unit?) ∧ q.magnitude = (qs.map Quantity.magnitude).sum ∧
        -2 ^ 63 ≤ (qs.map Quantity.magnitude).sum ∧ (qs.map Quantity.magnitude).sum < 2 ^ 63 := by
  refine ⟨fun v => ⟨unit_merge v, merge_unit v⟩, fun a b c => ⟨?_, ?_, ?_⟩, ?_, ?_, ?_⟩
  · intro v w left right
    rcases merge_last_two left with same | overflows
    · exact Except.ok.inj (same.symm.trans right)
    · cases overflows.symm.trans right
  · intro v failure left right
    rcases merge_last_two left with same | overflows
    · cases same.symm.trans right
    · exact Except.error.inj (right.symm.trans overflows)
  · intro v failure left right
    rcases merge_first_two right with same | overflows
    · cases same.symm.trans left
    · exact Except.error.inj (left.symm.trans overflows)
  · intro xs ys x y z first second whole
    exact (mergeAll_append first second whole).merge
  · intro p q v
    rw [merge_eq_ok]
    constructor
    · rintro ⟨⟩
      rename_i sum sums
      exact ⟨sum, rfl, sums⟩
    · rintro ⟨sum, rfl, sums⟩
      exact .quantity sums
  · intro values q merged
    obtain ⟨qs, some', kept, units, total⟩ := mergeAll_eq_quantity merged
    have within := q.magnitude_range
    rw [total] at within
    exact ⟨qs, some', kept, units, total, within⟩

/-- One grouping of three numbers has a sum where the other one overflows on the way. -/
theorem merge_partial_monoid_brink :
    let most : Value := .quantity (.number 9223372036854775807)
    let one : Value := .quantity (.number 1)
    let less : Value := .quantity (.number (-1))
    let rest : Value := .quantity (.number 9223372036854775806)
    ∃ failure, most.merge one >>= (·.merge less) = .error failure ∧
      one.merge less >>= most.merge = .ok most ∧
      failure = .builtin "combine" "quantity overflow" ∧
      mergeAll [less, .unit] = .ok less ∧ mergeAll [most] = .ok most ∧
      mergeAll ([less, .unit] ++ [most]) = .ok rest ∧ less.merge most = .ok rest := by
  intro most one less rest
  have first : mergeAll [less, .unit] = .ok less := by decide
  have second : mergeAll [most] = .ok most := by decide
  have whole : mergeAll ([less, .unit] ++ [most]) = .ok rest := by decide
  have fails : most.merge one >>= (·.merge less) = .error .overflow := by decide
  have merged : one.merge less >>= most.merge = .ok most := by decide
  exact ⟨_, fails, merged, (merge_partial_monoid.2.1 most one less).2.2 most _ fails merged,
    first, second, whole, merge_partial_monoid.2.2.1 _ _ _ _ _ first second whole⟩

end Value
end Runbook
