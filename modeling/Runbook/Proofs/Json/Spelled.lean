import Runbook.Json.Reader
import Runbook.Json.Writer
import Runbook.Proofs.Text.Trim
import Mathlib.Tactic.SplitIfs

/-!
What is written of a JSON value is read again.

A text spells a value if it has its tokens, with any white space before them. Both written forms spell
the value that they are written of, and each text is read as the value that it spells.
-/
namespace Runbook.Json

open Runbook.Text (dropWhile_dropWhile)

/-- White space between tokens. -/
def isWhite (c : Char) : Bool := c == ' ' || c == '\n' || c == '\t' || c == '\r'

/-- An integer of 64 bits, with or without a sign. -/
def IsWord (n : Int) : Prop := -(Word.signedLimit : Int) ≤ n ∧ n < Word.limit

mutual

inductive Spells : List Char → Json → Prop
  | white {c : Char} {cs : List Char} {value : Json} : isWhite c = true → Spells cs value →
      Spells (c :: cs) value
  | null : Spells ['n', 'u', 'l', 'l'] .null
  | yes : Spells ['t', 'r', 'u', 'e'] (.bool true)
  | no : Spells ['f', 'a', 'l', 's', 'e'] (.bool false)
  | int {n : Int} : IsWord n → Spells (intChars n) (.int n)
  | str (text : String) : Spells (stringChars text) (.str text)
  | emptyArr : Spells ['[', ']'] (.arr [])
  | arr {cs : List Char} {items : List Json} : SpellsItems cs items →
      Spells ('[' :: cs) (.arr items)
  | emptyObj : Spells ['\x7b', '\x7d'] (.obj [])
  | obj {cs : List Char} {members : List (String × Json)} : SpellsMembers cs members →
      Spells ('\x7b' :: cs) (.obj members)

/-- The items of an array, at least one, and its end. -/
inductive SpellsItems : List Char → List Json → Prop
  | last {cs blanks : List Char} {item : Json} : Spells cs item → blanks.all isWhite = true →
      SpellsItems (cs ++ (blanks ++ [']'])) [item]
  | more {cs others : List Char} {item : Json} {items : List Json} : Spells cs item →
      SpellsItems others items → SpellsItems (cs ++ ',' :: others) (item :: items)

/-- The members of an object, at least one, and its end. -/
inductive SpellsMembers : List Char → List (String × Json) → Prop
  | last {before cs blanks : List Char} {value : Json} (name : String) :
      before.all isWhite = true → Spells cs value → blanks.all isWhite = true →
      SpellsMembers (before ++ (stringChars name ++ ':' :: (cs ++ (blanks ++ ['\x7d']))))
        [(name, value)]
  | more {before cs others : List Char} {value : Json} {members : List (String × Json)}
      (name : String) : before.all isWhite = true → Spells cs value →
      SpellsMembers others members →
      SpellsMembers (before ++ (stringChars name ++ ':' :: (cs ++ ',' :: others)))
        ((name, value) :: members)

end

/-! Numbers. -/

/-- A text that a number does not go on in. -/
def Halts (rest : List Char) : Prop :=
  ∀ c, rest.head? = some c → c.isDigit = false ∧ c ≠ '.' ∧ c ≠ 'e' ∧ c ≠ 'E'

theorem Halts.cons {c : Char} (rest : List Char)
    (other : c.isDigit = false ∧ c ≠ '.' ∧ c ≠ 'e' ∧ c ≠ 'E') : Halts (c :: rest) := by
  intro first same
  cases same
  exact other

theorem isDigit_of_written {n : Nat} : ∀ c ∈ Nat.toDigits 10 n, c.isDigit = true := fun _ inside =>
  Nat.isDigit_of_mem_toDigits (by decide) (by decide) inside

/-- Only zero is written with a zero in front. -/
theorem toDigits_head {n : Nat} {ds : List Char} (written : Nat.toDigits 10 n = '0' :: ds) :
    ds = [] := by
  by_cases small : n < 10
  · rw [Nat.toDigits_of_lt_base small, List.cons.injEq] at written
    exact written.2.symm
  · have positive : n ≠ 0 := by omega
    have leads : ∀ m, m ≠ 0 → (Nat.toDigits 10 m).head? ≠ some '0' := by
      intro m
      induction m using Nat.strongRecOn with
      | _ m ih =>
          intro positive
          by_cases small : m < 10
          · rw [Nat.toDigits_of_lt_base small, List.head?_cons, ne_eq, Option.some.injEq,
              Nat.digitChar_eq_zero]
            exact positive
          · have rest := ih (m / 10) (by omega) (by omega)
            rw [Nat.toDigits_of_base_le (by decide) (Nat.le_of_not_lt small), List.head?_append]
            cases first : (Nat.toDigits 10 (m / 10)).head? with
            | none => exact absurd (List.head?_eq_none_iff.mp first) Nat.toDigits_ne_nil
            | some c =>
                rw [first] at rest
                exact rest
    exact absurd (by rw [written]; rfl) (leads n positive)

theorem takeWhile_append_of_halts {p : Char → Bool} {cs rest : List Char}
    (all : ∀ c ∈ cs, p c = true) (halts : ∀ c, rest.head? = some c → p c = false) :
    (cs ++ rest).takeWhile p = cs ∧ (cs ++ rest).dropWhile p = rest := by
  rw [List.takeWhile_append_of_pos all, List.dropWhile_append_of_pos all]
  cases rest with
  | nil => exact ⟨List.append_nil cs, rfl⟩
  | cons c rest =>
      have stops : ¬p c = true := by
        rw [halts c rfl]
        exact Bool.false_ne_true
      rw [List.takeWhile_cons_of_neg stops, List.dropWhile_cons_of_neg stops]
      exact ⟨List.append_nil cs, rfl⟩

theorem wholeAt_toDigits {n : Nat} {rest : List Char} (halts : Halts rest) :
    wholeAt (Nat.toDigits 10 n ++ rest) = some (Nat.toDigits 10 n, rest) := by
  obtain ⟨digits, after⟩ := takeWhile_append_of_halts (isDigit_of_written (n := n))
    fun c first => (halts c first).1
  have read : digitsAt (Nat.toDigits 10 n ++ rest) = some (Nat.toDigits 10 n, rest) := by
    rw [digitsAt, digits, after]
    cases written : Nat.toDigits 10 n with
    | nil => exact absurd written Nat.toDigits_ne_nil
    | cons c ds => rfl
  rw [wholeAt, read, Option.bind_eq_bind, Option.bind_some]
  dsimp only
  split
  · rename_i same
    cases toDigits_head same
  · rfl

theorem fractionAt_of_halts {rest : List Char} (halts : Halts rest) :
    fractionAt rest = some ([], rest) := by
  cases rest with
  | nil => rfl
  | cons c rest =>
      have other := (halts c rfl).2.1
      rw [fractionAt]
      intro more same
      cases same
      exact other rfl

theorem exponentAt_of_halts {rest : List Char} (halts : Halts rest) :
    exponentAt rest = some ([], rest) := by
  cases rest with
  | nil => rfl
  | cons c rest =>
      have other := (halts c rfl).2.2
      rw [exponentAt.eq_def]
      exact if_neg fun same => same.elim other.1 other.2

/-- What is read behind the sign of a number. -/
def unsignedAt (negative : Bool) (cs : List Char) : Option (Json × List Char) := do
  let (whole, cs) ← wholeAt cs
  let (fraction, cs) ← fractionAt cs
  let (exponent, cs) ← exponentAt cs
  some (numberOf negative whole (fraction ++ exponent), cs)

theorem unsignedAt_toDigits {n : Nat} {rest : List Char} (negative : Bool) (halts : Halts rest) :
    unsignedAt negative (Nat.toDigits 10 n ++ rest) =
      some (numberOf negative (Nat.toDigits 10 n) [], rest) := by
  rw [unsignedAt, wholeAt_toDigits halts, Option.bind_eq_bind, Option.bind_some]
  dsimp only
  rw [fractionAt_of_halts halts, Option.bind_some]
  dsimp only
  rw [exponentAt_of_halts halts]
  rfl

theorem numberAt_intChars {n : Int} {rest : List Char} (word : IsWord n) (halts : Halts rest) :
    numberAt (intChars n ++ rest) = some (.int n, rest) := by
  have value : Nat.ofDigitChars 10 (Nat.toDigits 10 n.natAbs) 0 = n.natAbs :=
    Nat.ofDigitChars_toDigits (by decide) (by decide)
  obtain ⟨low, high⟩ := word
  rw [Word.signedLimit] at low
  rw [Word.limit] at high
  by_cases negative : n < 0
  · rw [intChars, if_pos negative, List.cons_append, numberAt]
    refine (unsignedAt_toDigits true halts).trans ?_
    rw [numberOf, value, if_neg (by simp), if_pos rfl, if_pos (by rw [Word.signedLimit]; omega)]
    rw [show -(n.natAbs : Int) = n by omega]
  · have plain : ∀ cs, Nat.toDigits 10 n.natAbs ++ rest ≠ '-' :: cs := by
      intro cs same
      cases written : Nat.toDigits 10 n.natAbs with
      | nil => exact absurd written Nat.toDigits_ne_nil
      | cons c ds =>
          rw [written, List.cons_append, List.cons.injEq] at same
          have digit := isDigit_of_written c (written ▸ List.mem_cons_self)
          rw [same.1] at digit
          cases digit
    rw [intChars, if_neg negative, numberAt]
    · refine (unsignedAt_toDigits false halts).trans ?_
      rw [numberOf, value, if_neg (by simp), if_neg Bool.false_ne_true,
        if_pos (by rw [Word.limit]; omega)]
      rw [show (n.natAbs : Int) = n by omega]
    · exact plain

/-! Strings. -/

theorem hexValue?_hexDigit (n : Nat) : hexValue? (hexDigit n) = some (n % 16) := by
  have all : ∀ d < 16, hexValue? (Nat.digitChar d) = some d := by decide
  exact all _ (Nat.mod_lt n (by decide))

theorem stringCodes_short {letter : Char} {code : Nat} (short : escapeCode? letter = some code)
    (rest : List Char) : stringCodes ('\\' :: letter :: rest) =
      (stringCodes rest).map fun (codes, rest) => (code :: codes, rest) := by
  have other : letter ≠ 'u' := by
    rintro rfl
    cases short
  rw [stringCodes, short]
  · cases stringCodes rest <;> rfl
  · intro a b c d more same
    exact absurd same other

theorem stringCodes_escapedChar (c : Char) (rest : List Char) :
    stringCodes (escapedChar c ++ rest) =
      (stringCodes rest).map fun (codes, rest) => (c.toNat :: codes, rest) := by
  rw [escapedChar]
  split_ifs with quote slash feed line tab back form control
  · subst quote
    exact stringCodes_short rfl rest
  · subst slash
    exact stringCodes_short rfl rest
  · subst feed
    exact stringCodes_short rfl rest
  · subst line
    exact stringCodes_short rfl rest
  · subst tab
    exact stringCodes_short rfl rest
  · subst back
    exact stringCodes_short rfl rest
  · subst form
    exact stringCodes_short rfl rest
  · simp only [List.cons_append, List.nil_append]
    have zero : hexValue? '0' = some 0 := rfl
    rw [stringCodes, zero, hexValue?_hexDigit, hexValue?_hexDigit]
    have same : ((0 * 16 + 0) * 16 + c.toNat / 16 % 16) * 16 + c.toNat % 16 = c.toNat := by omega
    simp only [Option.bind_eq_bind, Option.bind_some, same]
    cases stringCodes rest <;> rfl
  · rw [List.cons_append, List.nil_append, stringCodes]
    · rw [if_neg fun stops => stops.elim slash control]
      cases stringCodes rest <;> rfl
    · exact fun same => quote same
    · intro a b c d more same
      exact absurd same slash
    · intro more after same
      exact absurd same slash

theorem characters?_toNat (cs : List Char) : characters? (cs.map Char.toNat) = some cs := by
  have whole (c : Char) : ¬(0xD800 ≤ c.toNat ∧ c.toNat < 0xE000) := by
    have valid := c.valid
    simp only [UInt32.isValidChar, Nat.isValidChar] at valid
    change c.val.toNat < _ ∨ _ at valid
    simp only [Char.toNat]
    omega
  induction cs with
  | nil => rfl
  | cons c cs ih =>
      have here := whole c
      cases cs with
      | nil =>
          rw [List.map_cons, List.map_nil, characters?, if_neg here, Char.ofNat_toNat]
      | cons d cs =>
          rw [List.map_cons, List.map_cons, characters?, if_neg fun high => here (by omega),
            if_neg fun low => here (by omega), ← List.map_cons, ih, Char.ofNat_toNat]
          rfl

theorem stringAt_stringChars (mode : Strictness) (text : String) (rest : List Char) :
    stringAt mode (text.toList.flatMap escapedChar ++ '"' :: rest) = some (text, rest) := by
  have codes (cs : List Char) : stringCodes (cs.flatMap escapedChar ++ '"' :: rest) =
      some (cs.map Char.toNat, rest) := by
    induction cs with
    | nil => rfl
    | cons c cs ih =>
        rw [List.flatMap_cons, List.append_assoc, stringCodes_escapedChar, ih]
        rfl
  rw [stringAt, codes, Option.bind_eq_bind, Option.bind_some]
  dsimp only
  rw [characters?_toNat]
  dsimp only
  rw [String.ofList_toList]

/-! Values. -/

section
variable {mode : Strictness} {bound : Nat} {c : Char} {cs rest : List Char}

theorem skipWhite_cons (white : isWhite c = true) (cs : List Char) :
    skipWhite (c :: cs) = skipWhite cs := List.dropWhile_cons_of_pos white

theorem skipWhite_other (other : isWhite c = false) (cs : List Char) :
    skipWhite (c :: cs) = c :: cs :=
  List.dropWhile_cons_of_neg fun white => Bool.false_ne_true (other.symm.trans white)

theorem skipWhite_append {blanks : List Char} (white : blanks.all isWhite = true)
    (cs : List Char) : skipWhite (blanks ++ cs) = skipWhite cs := by
  induction blanks with
  | nil => rfl
  | cons c blanks ih =>
      rw [List.all_cons, Bool.and_eq_true] at white
      rw [List.cons_append, skipWhite_cons white.1, ih white.2]

theorem valueAt_congr {others : List Char} (same : skipWhite cs = skipWhite others) :
    valueAt mode bound cs = valueAt mode bound others := by
  cases bound with
  | zero => rfl
  | succ bound => rw [valueAt, valueAt, same]

theorem itemsAt_skipWhite : itemsAt mode bound (skipWhite cs) = itemsAt mode bound cs := by
  cases bound with
  | zero => rfl
  | succ bound =>
      have same : skipWhite (skipWhite cs) = skipWhite cs := dropWhile_dropWhile _ _
      rw [itemsAt, itemsAt, valueAt_congr same]

theorem membersAt_skipWhite {names : Strictness} :
    membersAt names mode bound (skipWhite cs) = membersAt names mode bound cs := by
  cases bound with
  | zero => rfl
  | succ bound =>
      have same : skipWhite (skipWhite cs) = skipWhite cs := dropWhile_dropWhile _ _
      rw [membersAt, membersAt, same]

/-- The first character of a number. -/
theorem intChars_cons (n : Int) :
    ∃ c cs, intChars n = c :: cs ∧ (c = '-' ∨ c.isDigit = true) := by
  rw [intChars]
  split
  · exact ⟨_, _, rfl, .inl rfl⟩
  · cases written : Nat.toDigits 10 n.natAbs with
    | nil => exact absurd written Nat.toDigits_ne_nil
    | cons c cs => exact ⟨c, cs, rfl, .inr (isDigit_of_written c (written ▸ List.mem_cons_self))⟩

theorem ne_of_number {d : Char} (begins : c = '-' ∨ c.isDigit = true)
    (differs : d ≠ '-' ∧ d.isDigit = false) : c ≠ d := by
  rintro rfl
  rcases begins with dash | digit
  · exact differs.1 dash
  · rw [differs.2] at digit
    cases digit

theorem isWhite_of_number (begins : c = '-' ∨ c.isDigit = true) : isWhite c = false := by
  rw [isWhite, beq_eq_false_iff_ne.mpr (ne_of_number begins (by decide)),
    beq_eq_false_iff_ne.mpr (ne_of_number begins (by decide)),
    beq_eq_false_iff_ne.mpr (ne_of_number begins (by decide)),
    beq_eq_false_iff_ne.mpr (ne_of_number begins (by decide))]
  rfl

theorem valueAt_number (begins : c = '-' ∨ c.isDigit = true) :
    valueAt mode (bound + 1) (c :: cs) = numberAt (c :: cs) := by
  have other {d : Char} {more : List Char} (differs : d ≠ '-' ∧ d.isDigit = false) :
      c :: cs ≠ d :: more := fun same => ne_of_number begins differs (List.cons.inj same).1
  rw [valueAt, skipWhite_other (isWhite_of_number begins)]
  split <;> first | rfl | exact absurd ‹_› (other (by decide))

theorem valueAt_quote : valueAt mode (bound + 1) ('"' :: cs) =
    (stringAt mode cs).bind fun (text, rest) => some (.str text, rest) := rfl

/-- What is read behind the bracket of an array. -/
def arrayAt (mode : Strictness) (bound : Nat) (cs : List Char) : Option (Json × List Char) :=
  match skipWhite cs with
  | ']' :: rest => some (.arr [], rest)
  | rest => (itemsAt mode bound rest).bind fun (items, rest) => some (.arr items, rest)

theorem valueAt_open : valueAt mode (bound + 1) ('[' :: cs) = arrayAt mode bound cs := rfl

theorem valueAt_bracket {more : List Char} (first : skipWhite cs = c :: more) (inside : c ≠ ']') :
    valueAt mode (bound + 1) ('[' :: cs) =
      (itemsAt mode bound cs).bind fun (items, rest) => some (.arr items, rest) := by
  rw [valueAt_open, arrayAt]
  split
  · rename_i same
    exact absurd (List.cons.inj (first.symm.trans same)).1 inside
  · rw [itemsAt_skipWhite]

/-- What is read behind the brace of an object. -/
def objectAt (mode : Strictness) (bound : Nat) (cs : List Char) : Option (Json × List Char) :=
  match skipWhite cs with
  | '\x7d' :: rest => some (.obj [], rest)
  | rest => (membersAt mode mode bound rest).bind fun (members, rest) => some (.obj members, rest)

theorem valueAt_openBrace :
    valueAt mode (bound + 1) ('\x7b' :: cs) = objectAt mode bound cs := rfl

theorem valueAt_brace {more : List Char} (first : skipWhite cs = '"' :: more) :
    valueAt mode (bound + 1) ('\x7b' :: cs) =
      (membersAt mode mode bound cs).bind fun (members, rest) => some (.obj members, rest) := by
  rw [valueAt_openBrace, objectAt]
  split
  · rename_i same
    exact absurd (List.cons.inj (first.symm.trans same)).1 (by decide)
  · rw [membersAt_skipWhite]

end

/-- A value has a first character, which is no closing bracket. -/
theorem Spells.begins : ∀ {cs : List Char} {value : Json}, Spells cs value →
    ∀ rest, ∃ c more, skipWhite (cs ++ rest) = c :: more ∧ c ≠ ']' ∧ c ≠ '\x7d'
  | _, _, .white blank spells, rest => by
      rw [List.cons_append, skipWhite_cons blank]
      exact spells.begins rest
  | _, _, .int (n := n) _, rest => by
      obtain ⟨c, more, written, begins⟩ := intChars_cons n
      rw [written, List.cons_append, skipWhite_other (isWhite_of_number begins)]
      exact ⟨c, _, rfl, ne_of_number begins (by decide), ne_of_number begins (by decide)⟩
  | _, _, .null, _ | _, _, .yes, _ | _, _, .no, _ | _, _, .str _, _ | _, _, .emptyArr, _
  | _, _, .arr _, _ | _, _, .emptyObj, _ | _, _, .obj _, _ =>
      ⟨_, _, rfl, by decide, by decide⟩

theorem SpellsItems.begins {cs : List Char} {items : List Json} (spells : SpellsItems cs items)
    (rest : List Char) :
    ∃ c more, skipWhite (cs ++ rest) = c :: more ∧ c ≠ ']' ∧ c ≠ '\x7d' := by
  cases spells with
  | last item _ =>
      rw [List.append_assoc]
      exact item.begins _
  | more item _ =>
      rw [List.append_assoc]
      exact item.begins _

/-- A name begins with its quote. -/
theorem skipWhite_string {before : List Char} (blank : before.all isWhite = true) (name : String)
    (rest : List Char) : skipWhite (before ++ (stringChars name ++ rest)) =
      '"' :: (name.toList.flatMap escapedChar ++ '"' :: rest) := by
  rw [skipWhite_append blank, stringChars, List.append_assoc, List.cons_append,
    skipWhite_other (by decide)]
  rfl

/-- What is read behind the name of a member. -/
def memberAt (names mode : Strictness) (bound : Nat) (name : String) (cs : List Char) :
    Option (List (String × Json) × List Char) :=
  match skipWhite cs with
  | ':' :: rest => (valueAt mode bound rest).bind fun (value, rest) =>
      match skipWhite rest with
      | ',' :: rest => (membersAt names mode bound rest).bind fun (members, rest) =>
          some ((name, value) :: members, rest)
      | '\x7d' :: rest => some ([(name, value)], rest)
      | _ => none
  | _ => none

theorem membersAt_quote {names mode : Strictness} {bound : Nat} {text more : List Char}
    (first : skipWhite text = '"' :: more) :
    membersAt names mode (bound + 1) text =
      (stringAt names more).bind fun named => memberAt names mode bound named.1 named.2 := by
  rw [membersAt, first]
  rfl

/-- A member begins with its name, a colon, and its value. -/
theorem membersAt_name {names mode : Strictness} {bound : Nat} {before cs : List Char}
    {name : String} (blank : before.all isWhite = true) :
    membersAt names mode (bound + 1) (before ++ (stringChars name ++ ':' :: cs)) =
      (valueAt mode bound cs).bind fun (value, rest) =>
        match skipWhite rest with
        | ',' :: rest => (membersAt names mode bound rest).bind fun (members, rest) =>
            some ((name, value) :: members, rest)
        | '\x7d' :: rest => some ([(name, value)], rest)
        | _ => none := by
  rw [membersAt_quote (skipWhite_string blank name _), stringAt_stringChars]
  rfl

theorem SpellsMembers.begins {cs : List Char} {members : List (String × Json)}
    (spells : SpellsMembers cs members) (rest : List Char) :
    ∃ more, skipWhite (cs ++ rest) = '"' :: more := by
  cases spells with
  | last name before value blanks =>
      rw [List.append_assoc, List.append_assoc]
      exact ⟨_, skipWhite_string before name _⟩
  | more name before value others =>
      rw [List.append_assoc, List.append_assoc]
      exact ⟨_, skipWhite_string before name _⟩

theorem halts_blanks {blanks rest : List Char} {c : Char} (white : blanks.all isWhite = true)
    (other : c.isDigit = false ∧ c ≠ '.' ∧ c ≠ 'e' ∧ c ≠ 'E') :
    Halts (blanks ++ c :: rest) := by
  cases blanks with
  | nil => exact .cons rest other
  | cons b blanks =>
      rw [List.all_cons, Bool.and_eq_true, isWhite] at white
      refine .cons _ ?_
      have blank := white.1
      simp only [Bool.or_eq_true, beq_iff_eq] at blank
      rcases blank with ((rfl | rfl) | rfl) | rfl <;> decide

mutual

/-- A text is read as the value that it spells. -/
theorem Spells.read (mode : Strictness) : ∀ {cs : List Char} {value : Json}, Spells cs value →
    ∀ {rest : List Char} {bound : Nat}, Halts rest → 2 * cs.length ≤ bound →
      valueAt mode bound (cs ++ rest) = some (value, rest)
  | _, _, .white blank spells, rest, bound, halts, enough => by
      rw [List.length_cons] at enough
      rw [List.cons_append, valueAt_congr (skipWhite_cons blank _)]
      exact spells.read mode halts (by omega)
  | _, _, .int (n := n) word, rest, bound, halts, enough => by
      obtain ⟨c, more, written, begins⟩ := intChars_cons n
      rw [written, List.length_cons] at enough
      obtain ⟨bound, rfl⟩ : ∃ less, bound = less + 1 := ⟨bound - 1, by omega⟩
      rw [written, List.cons_append, valueAt_number begins, ← List.cons_append, ← written]
      exact numberAt_intChars word halts
  | _, _, .null, _, bound + 1, _, _ => rfl
  | _, _, .yes, _, bound + 1, _, _ => rfl
  | _, _, .no, _, bound + 1, _, _ => rfl
  | _, _, .emptyArr, _, bound + 1, _, _ => rfl
  | _, _, .emptyObj, _, bound + 1, _, _ => rfl
  | _, _, .str text, rest, bound + 1, _, _ => by
      rw [stringChars, List.append_assoc, List.cons_append, valueAt_quote, List.singleton_append,
        stringAt_stringChars]
      rfl
  | _, _, .arr items, rest, bound + 1, _, enough => by
      rw [List.length_cons] at enough
      obtain ⟨c, more, first, inside, _⟩ := items.begins rest
      rw [List.cons_append, valueAt_bracket first inside, items.read mode (by omega)]
      rfl
  | _, _, .obj members, rest, bound + 1, _, enough => by
      rw [List.length_cons] at enough
      obtain ⟨more, first⟩ := members.begins rest
      rw [List.cons_append, valueAt_brace first, members.read mode mode (by omega)]
      rfl

theorem SpellsItems.read (mode : Strictness) : ∀ {cs : List Char} {items : List Json},
    SpellsItems cs items → ∀ {rest : List Char} {bound : Nat}, 2 * cs.length + 1 ≤ bound →
      itemsAt mode bound (cs ++ rest) = some (items, rest)
  | _, _, @SpellsItems.last cs _ _ spells blanks, rest, bound + 1, enough => by
      simp only [List.length_append, List.length_cons] at enough
      rw [List.append_assoc, List.append_assoc, List.singleton_append, itemsAt,
        spells.read mode (halts_blanks blanks (by decide)) (by omega)]
      simp only [Option.bind_eq_bind, Option.bind_some, skipWhite_append blanks]
      rfl
  | _, _, @SpellsItems.more cs _ _ _ spells others, rest, bound + 1, enough => by
      simp only [List.length_append, List.length_cons] at enough
      rw [List.append_assoc, List.cons_append, itemsAt,
        spells.read mode (.cons _ (by decide)) (by omega)]
      simp only [Option.bind_eq_bind, Option.bind_some, skipWhite_other (c := ',') (by decide)]
      rw [others.read mode (by omega)]
      rfl

theorem SpellsMembers.read (names mode : Strictness) : ∀ {cs : List Char}
    {members : List (String × Json)}, SpellsMembers cs members →
    ∀ {rest : List Char} {bound : Nat}, 2 * cs.length + 1 ≤ bound →
      membersAt names mode bound (cs ++ rest) = some (members, rest)
  | _, _, .last name before spells blanks, rest, bound + 1, enough => by
      simp only [List.length_append, List.length_cons] at enough
      rw [List.append_assoc, List.append_assoc, List.cons_append, List.append_assoc,
        List.append_assoc, List.singleton_append, membersAt_name before,
        spells.read mode (halts_blanks blanks (by decide)) (by omega)]
      simp only [Option.bind_some, skipWhite_append blanks]
      rfl
  | _, _, .more name before spells others, rest, bound + 1, enough => by
      simp only [List.length_append, List.length_cons] at enough
      rw [List.append_assoc, List.append_assoc, List.cons_append, List.append_assoc,
        List.cons_append, membersAt_name before,
        spells.read mode (.cons _ (by decide)) (by omega)]
      simp only [Option.bind_some, skipWhite_other (c := ',') (by decide)]
      rw [others.read names mode (by omega)]
      rfl

end

/-- A text is the value that it spells, with nothing but white space around it. -/
theorem Spells.parse? {cs : List Char} {value : Json} (spells : Spells cs value) :
    Json.parse? (String.ofList cs) = some value := by
  have read : valueAt .strict (bound cs) (cs ++ []) = some (value, []) :=
    spells.read .strict (by rintro _ ⟨⟩) (by rw [bound]; omega)
  rw [List.append_nil] at read
  rw [Json.parse?, String.toList_ofList, read]
  rfl

theorem SpellsMembers.skipWhite {cs : List Char} {members : List (String × Json)}
    (spells : SpellsMembers cs members) : SpellsMembers (Json.skipWhite cs) members := by
  have opens {before : List Char} (name : String) (rest : List Char)
      (blank : before.all isWhite = true) :
      Json.skipWhite (before ++ (stringChars name ++ ':' :: rest)) =
        [] ++ (stringChars name ++ ':' :: rest) := by
    rw [skipWhite_string blank, stringChars, List.append_assoc]
    rfl
  cases spells with
  | last name before value blanks =>
      rw [opens name _ before]
      exact .last name rfl value blanks
  | more name before value others =>
      rw [opens name _ before]
      exact .more name rfl value others

/-- What is read behind the brace of a record. -/
def recordAt (cs : List Char) : Option Json :=
  match Json.skipWhite cs with
  | '\x7d' :: rest => whole? (some (.obj [], rest))
  | rest => whole? ((membersAt .strict .lenient (bound rest) rest).map
      fun (members, rest) => (.obj members, rest))

theorem parseRecord?_open (cs : List Char) :
    Json.parseRecord? (String.ofList ('\x7b' :: cs)) = recordAt cs := by
  rw [Json.parseRecord?, String.toList_ofList]
  rfl

/-- A record is read in the same way, though its values are read leniently. -/
theorem SpellsMembers.parseRecord? {cs : List Char} {members : List (String × Json)}
    (spells : SpellsMembers cs members) :
    Json.parseRecord? (String.ofList ('\x7b' :: cs)) = some (.obj members) := by
  obtain ⟨more, first⟩ := spells.begins []
  rw [List.append_nil] at first
  have read : membersAt .strict .lenient (bound (Json.skipWhite cs)) (Json.skipWhite cs ++ []) =
      some (members, []) := spells.skipWhite.read .strict .lenient (Nat.le_refl _)
  rw [List.append_nil] at read
  rw [parseRecord?_open, recordAt]
  split
  · rename_i same
    exact absurd (List.cons.inj (first.symm.trans same)).1 (by decide)
  · rw [read]
    rfl

/-! Writing. -/

mutual

/-- Values whose numbers are all integers of 64 bits. -/
def Plain : Json → Prop
  | .int n => IsWord n
  | .real _ => False
  | .arr items => PlainItems items
  | .obj members => PlainMembers members
  | .null | .bool _ | .str _ => True

def PlainItems : List Json → Prop
  | [] => True
  | item :: items => item.Plain ∧ PlainItems items

def PlainMembers : List (String × Json) → Prop
  | [] => True
  | (_, value) :: members => value.Plain ∧ PlainMembers members

end

theorem spells_atom {value : Json} (plain : value.Plain) (leaf : ∀ items, value ≠ .arr items)
    (leaf' : ∀ members, value ≠ .obj members) : Spells (atomChars value) value := by
  cases value with
  | null => exact .null
  | bool value =>
      cases value with
      | true => exact .yes
      | false => exact .no
  | int n =>
      rw [Plain] at plain
      exact .int plain
  | real spelling =>
      rw [Plain] at plain
      exact plain.elim
  | str text => exact .str text
  | arr items => exact absurd rfl (leaf items)
  | obj members => exact absurd rfl (leaf' members)

theorem Spells.after {blanks cs : List Char} {value : Json} (white : blanks.all isWhite = true)
    (spells : Spells cs value) : Spells (blanks ++ cs) value := by
  induction blanks with
  | nil => exact spells
  | cons c blanks ih =>
      rw [List.all_cons, Bool.and_eq_true] at white
      exact .white white.1 (ih white.2)

theorem all_isWhite_nil : ([] : List Char).all isWhite = true := rfl

mutual

/-- The form on one line spells its value. -/
theorem compact_spells : ∀ value : Json, value.Plain → Spells (compactChars value) value
  | .arr [], _ => .emptyArr
  | .arr (item :: items), plain => by
      rw [Plain, PlainItems] at plain
      rw [compactChars]
      exact .arr (compactItems_spells (compact_spells item plain.1) items plain.2)
  | .obj [], _ => .emptyObj
  | .obj ((name, value) :: members), plain => by
      rw [Plain, PlainMembers] at plain
      simp only [compactChars, List.cons_append, List.append_assoc]
      exact .obj (compactMembers_spells name (compact_spells value plain.1) members plain.2)
  | .null, plain | .bool _, plain | .int _, plain | .real _, plain | .str _, plain =>
      spells_atom plain nofun nofun

theorem compactItems_spells {cs : List Char} {item : Json} (first : Spells cs item) :
    ∀ items : List Json, PlainItems items → SpellsItems (cs ++ compactItems items) (item :: items)
  | [], _ => .last first all_isWhite_nil
  | next :: items, plain => by
      rw [PlainItems] at plain
      exact .more first (compactItems_spells (compact_spells next plain.1) items plain.2)

theorem compactMembers_spells {cs : List Char} {value : Json} (name : String)
    (first : Spells cs value) : ∀ members : List (String × Json), PlainMembers members →
      SpellsMembers (stringChars name ++ ':' :: (cs ++ compactMembers members))
        ((name, value) :: members)
  | [], _ => .last name all_isWhite_nil first all_isWhite_nil
  | (other, next) :: members, plain => by
      rw [PlainMembers] at plain
      simp only [compactMembers, List.cons_append, List.append_assoc]
      exact .more name all_isWhite_nil first
        (compactMembers_spells other (compact_spells next plain.1) members plain.2)

end

theorem newLine_white (depth : Nat) : (newLine depth).all isWhite = true := by
  rw [newLine, List.all_cons, List.all_replicate]
  split <;> rfl

mutual

/-- The form on indented lines spells its value. -/
theorem pretty_spells : ∀ (value : Json) (depth : Nat), value.Plain →
    Spells (prettyChars depth value) value
  | .arr [], _, _ => .emptyArr
  | .arr (item :: items), depth, plain => by
      rw [Plain, PlainItems] at plain
      simp only [prettyChars, List.cons_append]
      exact .arr (prettyItems_spells (.after (newLine_white _) (pretty_spells item _ plain.1)) items
        depth plain.2)
  | .obj [], _, _ => .emptyObj
  | .obj ((name, value) :: members), depth, plain => by
      rw [Plain, PlainMembers] at plain
      simp only [prettyChars, List.cons_append, List.append_assoc]
      exact .obj (prettyMembers_spells name (.white rfl (pretty_spells value _ plain.1)) members depth
        plain.2)
  | .null, _, plain | .bool _, _, plain | .int _, _, plain | .real _, _, plain
  | .str _, _, plain => spells_atom plain nofun nofun

theorem prettyItems_spells {cs : List Char} {item : Json} (first : Spells cs item) :
    ∀ (items : List Json) (depth : Nat), PlainItems items →
      SpellsItems (cs ++ prettyItems depth items) (item :: items)
  | [], depth, _ => .last first (newLine_white depth)
  | next :: items, depth, plain => by
      rw [PlainItems] at plain
      simp only [prettyItems, List.cons_append]
      exact .more first (prettyItems_spells (.after (newLine_white _) (pretty_spells next _ plain.1))
        items depth plain.2)

theorem prettyMembers_spells {cs : List Char} {value : Json} (name : String)
    (first : Spells cs value) :
    ∀ (members : List (String × Json)) (depth : Nat), PlainMembers members →
      SpellsMembers (newLine (depth + 1) ++ (stringChars name ++ ':' ::
        (cs ++ prettyMembers depth members))) ((name, value) :: members)
  | [], depth, _ => .last name (newLine_white _) first (newLine_white depth)
  | (other, next) :: members, depth, plain => by
      rw [PlainMembers] at plain
      simp only [prettyMembers, List.cons_append, List.append_assoc]
      exact .more name (newLine_white _) first
        (prettyMembers_spells other (.white rfl (pretty_spells next _ plain.1)) members depth plain.2)

end

/-- Both written forms of a value are read as it. -/
theorem parse?_written {value : Json} (plain : value.Plain) :
    Json.parse? value.compact = some value ∧ Json.parse? value.pretty = some value :=
  ⟨(compact_spells value plain).parse?, (pretty_spells value 0 plain).parse?⟩

end Runbook.Json
