import Runbook.Text.Order

/-!
What a reader of text found and what it could have gone on with.

Items come in sets, kept in order and without repetition: tokens before labels before the end of
the input, and texts by their characters. The order is part of the type `ItemSet`, so a set has
one form; `ItemSet.ofList_toList` says so.
-/
namespace Runbook

/-- One item that was found or expected. -/
inductive Item where
  /-- These very characters. -/
  | tokens (text : String)
  /-- A construct, by its name. -/
  | label (name : String)
  | endOfInput
  deriving DecidableEq, Repr

namespace Item

/-- Tokens first, then labels, then the end of the input; texts by their characters. -/
def lt : Item → Item → Bool
  | .tokens a, .tokens b => Text.precedes a.toList b.toList
  | .tokens _, _ => true
  | .label _, .tokens _ => false
  | .label a, .label b => Text.precedes a.toList b.toList
  | .label _, .endOfInput => true
  | .endOfInput, _ => false

theorem lt_trans {a b c : Item} (hab : a.lt b = true) (hbc : b.lt c = true) : a.lt c = true := by
  cases a <;> cases b <;> cases c <;> simp_all [lt]
  all_goals exact Text.precedes_trans hab hbc

theorem lt_irrefl (a : Item) : a.lt a = false := by
  cases a <;> simp [lt, Text.precedes_irrefl]

theorem lt_of_not_lt_of_ne {a b : Item} (hne : a ≠ b) (h : ¬ a.lt b = true) : b.lt a = true := by
  cases a <;> cases b <;> simp_all [lt]
  all_goals exact Text.precedes_total (mt String.toList_inj.mp hne) h

def describe : Item → String
  | .endOfInput => "end of input"
  | .label name => name
  | .tokens text =>
    if text = "\n" then "newline"
    else if text.length = 1 then "'" ++ text ++ "'"
    else "\"" ++ text ++ "\""

def insertInto (item : Item) : List Item → List Item
  | [] => [item]
  | other :: items =>
    if item = other then other :: items
    else if item.lt other then item :: other :: items
    else other :: insertInto item items

theorem mem_insertInto {item x : Item} {items : List Item} :
    x ∈ insertInto item items ↔ x = item ∨ x ∈ items := by
  induction items with
  | nil => simp [insertInto]
  | cons other items ih =>
    unfold insertInto
    split
    · next h => subst h; simp
    · split
      · simp
      · simp only [List.mem_cons, ih]; constructor <;> (rintro (h | h | h) <;> simp [h])

theorem insertInto_sorted {item : Item} {items : List Item}
    (h : items.Pairwise fun a b => a.lt b = true) :
    (insertInto item items).Pairwise fun a b => a.lt b = true := by
  induction items with
  | nil => simp [insertInto]
  | cons other items ih =>
    have ⟨first, later⟩ := List.pairwise_cons.mp h
    unfold insertInto
    split
    · exact h
    · next hne =>
      split
      · next hlt =>
        refine List.pairwise_cons.mpr ⟨fun x hx => ?_, h⟩
        rcases List.mem_cons.mp hx with rfl | hx
        · exact hlt
        · exact lt_trans hlt (first x hx)
      · next hlt =>
        refine List.pairwise_cons.mpr ⟨fun x hx => ?_, ih later⟩
        rcases mem_insertInto.mp hx with rfl | hx
        · exact lt_of_not_lt_of_ne hne hlt
        · exact first x hx

/-- An item after all others goes to the end. -/
theorem insertInto_last {item : Item} {items : List Item}
    (h : ∀ x ∈ items, x.lt item = true) : insertInto item items = items ++ [item] := by
  induction items with
  | nil => rfl
  | cons other items ih =>
    have hother := h other (by simp)
    have hne : item ≠ other := by
      rintro rfl
      simp [lt_irrefl] at hother
    have hlt : ¬ item.lt other = true := fun hlt => by
      have := lt_trans hlt hother
      simp [lt_irrefl] at this
    simp [insertInto, hne, hlt, ih fun x hx => h x (by simp [hx])]

end Item

/-- Items in order, none twice. -/
structure ItemSet where
  toList : List Item
  sorted : toList.Pairwise fun a b => a.lt b = true
  deriving DecidableEq, Repr

namespace ItemSet

theorem ext {a b : ItemSet} (h : a.toList = b.toList) : a = b := by
  cases a; cases b; cases h; rfl

def empty : ItemSet := ⟨[], .nil⟩

def insert (set : ItemSet) (item : Item) : ItemSet :=
  ⟨item.insertInto set.toList, Item.insertInto_sorted set.sorted⟩

def ofList (items : List Item) : ItemSet := items.foldl insert empty

theorem foldl_insert_toList {set : ItemSet} {items : List Item}
    (h : (set.toList ++ items).Pairwise fun a b => a.lt b = true) :
    (items.foldl insert set).toList = set.toList ++ items := by
  induction items generalizing set with
  | nil => simp
  | cons item items ih =>
    have hlast : (set.insert item).toList = set.toList ++ [item] :=
      Item.insertInto_last fun x hx => (List.pairwise_append.mp h).2.2 x hx item (by simp)
    rw [List.foldl_cons, ih (by rw [hlast]; simpa using h), hlast]
    simp

theorem ofList_toList (set : ItemSet) : ofList set.toList = set :=
  ext (@foldl_insert_toList empty _ set.sorted)

/-- The items in words: commas between them, and `or` before the last. -/
def describe (set : ItemSet) : String :=
  match set.toList.reverse with
  | [] => ""
  | [only] => only.describe
  | last :: before =>
    String.intercalate ", " (before.reverse.map Item.describe) ++ ", or " ++ last.describe

end ItemSet

/-- A place where the text could not be read on. -/
structure ParseError where
  offset : Nat
  unexpected : ItemSet
  expected : ItemSet
  deriving DecidableEq, Repr

/-- The errors of one reading, the first one first. -/
structure ParseFailure where
  errors : List ParseError
  deriving DecidableEq, Repr

end Runbook
