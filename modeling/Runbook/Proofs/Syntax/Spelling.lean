import Runbook.Proofs.Syntax.Total
import Runbook.Proofs.Syntax.Printable

/-!
The text of a tree, and how its words are read back.

Each statement stands on a line of its own, with the semicolon after it if one follows. Operators
have blanks around them and need no brackets, and strings have escapes for what cannot stand in
them.
-/
namespace Runbook

/-- The letter that stands for the character after a backslash, if it does not stand for itself. -/
def escapeLetter? (ch : Char) : Option Char :=
  if ch = '"' ∨ ch = '\\' then some ch
  else if ch = '\n' then some 'n'
  else if ch = '\t' then some 't'
  else none

theorem escaped?_escapeLetter {ch letter : Char} (written : escapeLetter? ch = some letter) :
    escaped? letter = some ch := by
  unfold escapeLetter? at written
  split at written
  · rename_i itself
    cases written
    rw [escaped?, if_pos itself]
  · split at written
    · rename_i feed
      cases written
      rw [feed]
      rfl
    · split at written
      · rename_i tab
        cases written
        rw [tab]
        rfl
      · cases written

theorem isPlain_of_escapeLetter {ch : Char} (none : escapeLetter? ch = none) :
    isPlain ch = true := by
  unfold escapeLetter? at none
  split at none
  · cases none
  · rename_i other
    split at none
    · cases none
    · rename_i within
      rw [not_or] at other
      simp only [isPlain, bne_iff_ne, Bool.and_eq_true]
      exact ⟨other, within⟩

/-- A character as it is written between quotes. -/
def escape (ch : Char) : List Char :=
  match escapeLetter? ch with
  | some letter => ['\\', letter]
  | none => [ch]

/-- A text between quotes. -/
def quote (text : String) : List Char := '"' :: (text.toList.flatMap escape ++ ['"'])

/-- Names with commas between them. -/
def namesSpelling : List Identifier → List Char
  | [] => []
  | first :: others => first.toList ++ others.flatMap fun name => ',' :: ' ' :: name.toList

def parametersSpelling (names : List Identifier) : List Char :=
  names.flatMap fun name => ' ' :: name.toList

def signatureSpelling : Option String → List Char
  | none => []
  | some remark => ' ' :: ':' :: ' ' :: remark.toList

def Quantity.spelling : Quantity → List Char
  | .number value => Nat.toDigits 10 value.toInt.toNat
  | .measure magnitude unit => Nat.toDigits 10 magnitude.toInt.toNat ++ unit.toList

def Operator.sign : Operator → Char
  | .waitEither => '|'
  | .waitBoth => '&'
  | .combine => '+'

theorem Operator.operator?_sign (operator : Operator) :
    operator? operator.sign = some operator := by
  cases operator with
  | waitEither => rfl
  | waitBoth => rfl
  | combine => rfl

/-- What stands between a statement and those that follow: a semicolon stays on its line. -/
def lineEnd : List Statement → List Char
  | .series _ :: _ => []
  | _ => ['\n']

/-- Lines between braces. -/
def braced (lines : List Char) : List Char := '\x7b' :: '\n' :: (lines ++ ['\x7d'])

mutual

def Expression.spelling : Expression → List Char
  | .application _ name argument => name.toList ++ ' ' :: argument.spelling
  | .unit _ => ['(', ')']
  | .text _ text => quote text
  | .amount _ quantity => quantity.spelling
  | .hole _ => ['?']
  | .tablet _ fields => '[' :: fieldsSpelling fields
  | .reference _ names => namesSpelling names
  | .operation _ operator left right =>
    left.spelling ++ ' ' :: operator.sign :: ' ' :: right.spelling
  | .grouping _ inner => '(' :: (inner.spelling ++ [')'])
  | .restriction _ setting block => setting.show.toList ++ ' ' :: braced (blockSpelling block)

/-- The fields and the closing bracket. -/
def fieldsSpelling : List (Label × Expression) → List Char
  | [] => [']']
  | (label, value) :: fields =>
    quote label ++ ' ' :: '=' :: ' ' :: (value.spelling ++
      ((if fields.isEmpty then [] else [',', ' ']) ++ fieldsSpelling fields))

def Statement.spelling : Statement → List Char
  | .assignment _ targets value => namesSpelling targets ++ ' ' :: '=' :: ' ' :: value.spelling
  | .execute _ value => value.spelling
  | .declaration _ procedure => procedure.spelling
  | .comment _ remark => '-' :: '-' :: ' ' :: remark.toList
  | .blank _ => []
  | .series _ => [' ', ';']

def blockSpelling : List Statement → List Char
  | [] => []
  | statement :: block => statement.spelling ++ (lineEnd block ++ blockSpelling block)

def Procedure.spelling : Procedure → List Char
  | ⟨_, name, parameters, signature, block⟩ =>
    name.toList ++ (parametersSpelling parameters ++
      (signatureSpelling signature ++ ' ' :: braced (blockSpelling block)))

end

section
-- Many proofs ask for these equations at once, and wait for them. Here they are made beforehand.
attribute [local simp] Expression.spelling fieldsSpelling Statement.spelling blockSpelling
  Procedure.spelling
end

/-- The procedures, each with the end of its last line. -/
def proceduresSpelling (procedures : List Procedure) : List Char :=
  procedures.flatMap fun procedure => procedure.spelling ++ ['\n']

/-- The text of a document. -/
def Document.spell (document : Document) : String :=
  String.ofList (proceduresSpelling document.procedures)

mutual

/-- The expression as if it stood nowhere. -/
def Expression.bare : Expression → Expression
  | .application _ name argument => .application 0 name argument.bare
  | .unit _ => .unit 0
  | .text _ text => .text 0 text
  | .amount _ quantity => .amount 0 quantity
  | .hole _ => .hole 0
  | .tablet _ fields => .tablet 0 (bareFields fields)
  | .reference _ names => .reference 0 names
  | .operation _ operator left right => .operation 0 operator left.bare right.bare
  | .grouping _ inner => .grouping 0 inner.bare
  | .restriction _ setting block => .restriction 0 setting (bareBlock block)

def bareFields : List (Label × Expression) → List (Label × Expression)
  | [] => []
  | (label, value) :: fields => (label, value.bare) :: bareFields fields

def Statement.bare : Statement → Statement
  | .assignment _ targets value => .assignment 0 targets value.bare
  | .execute _ value => .execute 0 value.bare
  | .declaration _ procedure => .declaration 0 procedure.bare
  | .comment _ remark => .comment 0 remark
  | .blank _ => .blank 0
  | .series _ => .series 0

def bareBlock : List Statement → List Statement
  | [] => []
  | statement :: block => statement.bare :: bareBlock block

def Procedure.bare : Procedure → Procedure
  | ⟨_, name, parameters, signature, block⟩ =>
    ⟨0, name, parameters, signature, bareBlock block⟩

end

/-- The document without the places at which its parts stand in a text. -/
def Document.bare (document : Document) : Document :=
  ⟨document.procedures.map Procedure.bare⟩

/-- The next character, if there is one, does not satisfy `p`. -/
def Halts (p : Char → Bool) (cs : List Char) : Prop := ∀ ch, cs.head? = some ch → p ch = false

theorem Halts.cons {p : Char → Bool} {ch : Char} {cs : List Char} (other : p ch = false) :
    Halts p (ch :: cs) := by
  intro first same
  cases same
  exact other

theorem Halts.mono {p q : Char → Bool} {cs : List Char} (halts : Halts p cs)
    (weaker : ∀ ch, q ch = true → p ch = true) : Halts q cs := by
  intro ch same
  exact Bool.eq_false_iff.mpr fun passes => Bool.eq_false_iff.mp (halts ch same) (weaker ch passes)

theorem Halts.any {p : Char → Bool} {cs : List Char} (halts : Halts p cs) :
    cs.head?.any p = false := by
  cases cs with
  | nil => rfl
  | cons ch cs => exact halts ch rfl

theorem Halts.append {p : Char → Bool} {cs : List Char} {ch : Char} {others : List Char}
    (first : cs = ch :: others) (other : p ch = false) (rest : List Char) :
    Halts p (cs ++ rest) := by
  rw [first]
  exact .cons other

theorem isAsciiSpace_of_isBlank {ch : Char} (blank : Text.isBlank ch = true) :
    Text.isAsciiSpace ch = true := by
  rw [Text.isAsciiSpace, blank]
  rfl

theorem startsTerm_of_isAsciiSpace {ch : Char} (space : Text.isAsciiSpace ch = true) :
    startsTerm ch = false := by
  simp only [Text.isAsciiSpace, Text.isBlank, Bool.or_eq_true, beq_iff_eq] at space
  rcases space with (((rfl | rfl) | rfl) | rfl) | rfl
  all_goals rfl

theorem ne_of_startsTerm {ch mark : Char} (begins : startsTerm ch = true)
    (other : startsTerm mark = false) : ch ≠ mark := by
  rintro rfl
  rw [other] at begins
  cases begins

theorem startsTerm_of_isNameStart {ch : Char} (begins : isNameStart ch = true) :
    startsTerm ch = true := by
  rw [startsTerm, begins, Bool.or_true]

theorem not_isBlank_of_startsTerm {ch : Char} (begins : startsTerm ch = true) :
    Text.isBlank ch = false := by
  refine Bool.eq_false_iff.mpr fun blank => ?_
  rw [startsTerm_of_isAsciiSpace (isAsciiSpace_of_isBlank blank)] at begins
  cases begins

theorem Setting.show_cons (setting : Setting) :
    ∃ ch others, setting.show.toList = ch :: others ∧ startsTerm ch = true ∧
      isNameStart ch = false := by
  cases setting with
  | inherit => exact ⟨'@', ['*'], rfl, rfl, rfl⟩
  | role name => exact ⟨'@', name.toList, String.toList_append, rfl, rfl⟩
  | place name => exact ⟨'^', name.toList, String.toList_append, rfl, rfl⟩

theorem IsName.dropWhile {name : Identifier} (isName : IsName name) (cs : List Char) :
    (name.toList ++ cs).dropWhile Text.isBlank = name.toList ++ cs := by
  obtain ⟨ch, letters, same, begins⟩ := isName.cons
  rw [same]
  exact List.dropWhile_cons_of_neg
    (Bool.eq_false_iff.mp (not_isBlank_of_startsTerm (startsTerm_of_isNameStart begins)))

namespace Cursor

variable {text : List Char} {c : Cursor text} {rest : List Char}

theorem peek?_of_rest {ch : Char} (here : c.rest = ch :: rest) : c.peek? = some ch :=
  peek?_eq_some.mpr ⟨rest, here⟩

theorem advance_of_rest {ch : Char} (here : c.rest = ch :: rest) : c.advance.rest = rest := by
  rw [advance_rest, here]
  rfl

theorem skipWhile_of_halts {p : Char → Bool} (halts : Halts p c.rest) : c.skipWhile p = c :=
  ext (Text.dropWhile_eq_self halts)

theorem taken_of_halts {p : Char → Bool} {passed : List Char} (here : c.rest = passed ++ rest)
    (passes : ∀ ch ∈ passed, p ch = true) (halts : Halts p rest) :
    c.taken p = passed ∧ (c.skipWhile p).rest = rest := by
  rw [taken, skipWhile_rest, here, List.takeWhile_append_of_pos passes,
    List.dropWhile_append_of_pos passes, Text.dropWhile_eq_self halts]
  refine ⟨?_, rfl⟩
  cases rest with
  | nil => rw [List.takeWhile_nil, List.append_nil]
  | cons ch rest =>
      rw [List.takeWhile_cons_of_neg (Bool.eq_false_iff.mp (halts ch rfl)), List.append_nil]

theorem taken_of_halted {p : Char → Bool} (halts : Halts p c.rest) :
    c.taken p = [] ∧ c.skipWhile p = c := by
  refine ⟨?_, skipWhile_of_halts halts⟩
  rw [taken]
  cases next : c.rest with
  | nil => rfl
  | cons ch rest =>
      exact List.takeWhile_cons_of_neg (Bool.eq_false_iff.mp (halts ch (by rw [next]; rfl)))

theorem halts_of_rest {p : Char → Bool} {ch : Char} (here : c.rest = ch :: rest)
    (other : p ch = false) : Halts p c.rest := here ▸ .cons other

theorem name_spelled {name : Identifier} (isName : IsName name)
    (here : c.rest = name.toList ++ rest) (halts : Halts isNameChar rest) :
    c.atName = true ∧ c.name.1 = name ∧ c.name.2.rest = rest := by
  obtain ⟨same, after⟩ := taken_of_halts here isName.2 halts
  refine ⟨?_, ?_, after⟩
  · obtain ⟨ch, letters, same, begins⟩ := isName.cons
    exact atName_iff.mpr ⟨ch, letters ++ rest, by rw [here, same]; rfl, begins⟩
  · rw [Cursor.name, same, String.ofList_toList]

theorem atName_of_halts (halts : Halts isNameStart c.rest) : c.atName = false := by
  refine Bool.eq_false_iff.mpr fun there => ?_
  obtain ⟨ch, rest, same, begins⟩ := atName_iff.mp there
  rw [halts ch (by rw [same]; rfl)] at begins
  cases begins

theorem expect_of_rest {ch : Char} (here : c.rest = ch :: rest) :
    c.expect ch = .ok c.advance := expect_eq_ok.mpr ⟨peek?_of_rest here, rfl⟩

theorem take?_of_rest {ch : Char} (here : c.rest = ch :: rest) : c.take? ch = some c.advance :=
  take?_eq_some.mpr ⟨peek?_of_rest here, rfl⟩

theorem take?_of_halts {ch : Char} (halts : Halts (· == ch) c.rest) : c.take? ch = none := by
  refine take?_eq_none.mpr fun next => ?_
  have other : (ch == ch) = false := halts ch next
  rw [beq_self_eq_true] at other
  cases other

/-! Strings. -/

theorem stringWithin_of_plain {bound : Nat} {ch : Char} {meant : List Char} {after : Cursor text}
    (here : c.rest = ch :: rest) (plain : isPlain ch = true)
    (read : c.advance.stringWithin bound = .ok (meant, after)) :
    c.stringWithin bound = .ok (ch :: meant, after) := by
  cases bound with
  | zero => cases read
  | succ bound =>
      have others : c.advance.rest = rest := advance_of_rest here
      have piece : c.taken isPlain = ch :: c.advance.taken isPlain := by
        rw [taken, taken, others, here, List.takeWhile_cons_of_pos plain]
      have stop : c.skipWhile isPlain = c.advance.skipWhile isPlain := by
        apply ext
        rw [skipWhile_rest, skipWhile_rest, others, here, List.dropWhile_cons_of_pos plain]
      rw [stringWithin] at read ⊢
      rw [piece, stop]
      dsimp only at read ⊢
      split at read
      · cases read
        rfl
      · split at read
        · cases read
        · rw [Reading.bind_eq_ok] at read
          obtain ⟨⟨others, last⟩, read, same⟩ := read
          cases same
          dsimp only
          rw [read]
          rfl
      · cases read

theorem stringWithin_spelled {cs : List Char} {bound : Nat} (enough : cs.length ≤ bound)
    (here : c.rest = cs.flatMap escape ++ '"' :: rest) :
    ∃ after, c.stringWithin (bound + 1) = .ok (cs, after) ∧ after.rest = rest := by
  induction cs generalizing c bound with
  | nil =>
      have quote : c.rest = '"' :: rest := here
      obtain ⟨piece, stop⟩ := taken_of_halted (p := isPlain) (halts_of_rest quote rfl)
      refine ⟨c.advance, ?_, advance_of_rest quote⟩
      rw [stringWithin, piece, stop, take?_of_rest quote]
  | cons ch cs ih =>
      have shorter : cs.length < bound := enough
      cases written : escapeLetter? ch with
      | none =>
          have here : c.rest = ch :: (cs.flatMap escape ++ '"' :: rest) := by
            rw [here, List.flatMap_cons, escape, written]
            rfl
          obtain ⟨after, read, same⟩ := ih (Nat.le_of_lt shorter) (advance_of_rest here)
          exact ⟨after, stringWithin_of_plain here (isPlain_of_escapeLetter written) read, same⟩
      | some letter =>
          have here : c.rest = '\\' :: letter :: (cs.flatMap escape ++ '"' :: rest) := by
            rw [here, List.flatMap_cons, escape, written]
            rfl
          have next : c.advance.rest = letter :: (cs.flatMap escape ++ '"' :: rest) :=
            advance_of_rest here
          obtain ⟨bound, rfl⟩ := Nat.exists_eq_succ_of_ne_zero (Nat.ne_zero_of_lt shorter)
          obtain ⟨after, read, same⟩ := ih (Nat.le_of_lt_succ shorter) (advance_of_rest next)
          refine ⟨after, ?_, same⟩
          obtain ⟨piece, stop⟩ := taken_of_halted (p := isPlain) (halts_of_rest here rfl)
          rw [stringWithin, piece, stop, take?_of_rest here,
            take?_of_halts (halts_of_rest here rfl)]
          dsimp only
          rw [peek?_of_rest next, Option.bind_some, escaped?_escapeLetter written]
          dsimp only
          rw [read]
          rfl

theorem string_spelled {meant : String} (here : c.rest = quote meant ++ rest) :
    ∃ after, c.string = .ok (meant, after) ∧ after.rest = rest := by
  have here : c.rest = '"' :: (meant.toList.flatMap escape ++ '"' :: rest) := by
    rw [here, quote, List.cons_append, List.append_assoc]
    rfl
  obtain ⟨after, read, same⟩ := stringWithin_spelled
    (Nat.le_add_right _ c.left) (advance_of_rest here)
  refine ⟨after, ?_, same⟩
  have room : c.left ≤ meant.toList.length + c.left + 1 := by omega
  rw [string, ← left, ← (isUnbound c).string _ _ (peek?_of_rest here) room, read]
  simp only [bind, Except.bind, String.ofList_toList]

/-! Amounts. -/

theorem toInt_toNat_lt (value : Int64) : value.toInt.toNat < Word.signedLimit := by
  have small := value.toInt_lt
  rw [Word.signedLimit]
  omega

theorem ofNat_toInt_toNat {value : Int64} (nonnegative : 0 ≤ value.toInt) :
    Int64.ofNat value.toInt.toNat = value := by
  rw [← Int64.toInt_inj, Int64.toInt_ofNat_of_lt (toInt_toNat_lt value)]
  exact Int.toNat_of_nonneg nonnegative

theorem isNameChar_of_isDigit {ch : Char} (digit : ch.isDigit = true) :
    isNameChar ch = true := by
  rw [isNameChar, Char.isAlphanum, digit, Bool.or_true, Bool.true_or]

theorem not_isDigit_of_isAlpha {ch : Char} (letter : ch.isAlpha = true) : ch.isDigit = false :=
  Bool.eq_false_iff.mpr (not_isDigit_of_isNameStart (by rw [isNameStart, letter, Bool.true_or]))

theorem isNameChar_of_isAlpha {ch : Char} (letter : ch.isAlpha = true) :
    isNameChar ch = true := by
  rw [isNameChar, Char.isAlphanum, letter, Bool.true_or, Bool.true_or]

theorem amount_spelled {quantity : Quantity} (printable : quantity.Printable)
    (here : c.rest = quantity.spelling ++ rest) (halts : Halts isNameChar rest) :
    ∃ after, c.amount = .ok (.amount c.offset quantity, after) ∧ after.rest = rest := by
  have digits : ∀ n, ∀ ch ∈ Nat.toDigits 10 n, ch.isDigit = true := fun n ch mem =>
    Nat.isDigit_of_mem_toDigits (by decide) (by decide) mem
  have written : ∀ n, Nat.ofDigitChars 10 (Nat.toDigits 10 n) 0 = n := fun n =>
    Nat.ofDigitChars_toDigits (by decide) (by decide)
  cases quantity with
  | number value =>
      have digitless : Halts Char.isDigit rest := halts.mono fun _ => isNameChar_of_isDigit
      obtain ⟨taken, after⟩ := taken_of_halts here (digits _) digitless
      obtain ⟨unitless, _⟩ := taken_of_halted (c := c.skipWhile Char.isDigit) (p := Char.isAlpha)
        (after ▸ halts.mono fun _ => isNameChar_of_isAlpha)
      refine ⟨c.skipWhile Char.isDigit, ?_, after⟩
      rw [Quantity.spelling] at taken
      rw [amount, taken, written, if_pos (toInt_toNat_lt value)]
      dsimp only
      rw [unitless, ofNat_toInt_toNat printable]
  | measure magnitude unit =>
      obtain ⟨nonnegative, some, letters⟩ := printable
      obtain ⟨ch, others, same⟩ := List.exists_cons_of_ne_nil some
      rw [Quantity.spelling, List.append_assoc] at here
      have first : ch.isAlpha = true := letters ch (same ▸ List.mem_cons_self)
      have digitless : Halts Char.isDigit (unit.toList ++ rest) :=
        .append same (not_isDigit_of_isAlpha first) rest
      obtain ⟨taken, after⟩ := taken_of_halts here (digits _) digitless
      obtain ⟨unitTaken, last⟩ := taken_of_halts after letters
        (halts.mono fun _ => isNameChar_of_isAlpha)
      refine ⟨(c.skipWhile Char.isDigit).skipWhile Char.isAlpha, ?_, last⟩
      rw [amount, taken, written, if_pos (toInt_toNat_lt magnitude)]
      dsimp only
      rw [unitTaken, same, ofNat_toInt_toNat nonnegative]
      dsimp only
      rw [← same, String.ofList_toList]

/-! Lists of names. -/

theorem skipBlanks_of_rest {ch : Char} (here : c.rest = ch :: rest)
    (other : Text.isBlank ch = false) : c.skipBlanks = c :=
  skipWhile_of_halts (halts_of_rest here other)

theorem skipBlanks_skipBlanks (c : Cursor text) : c.skipBlanks.skipBlanks = c.skipBlanks :=
  ext (Text.dropWhile_dropWhile _ _)

theorem rest_skipBlanks {cs : List Char} (here : c.rest = ' ' :: cs) :
    c.skipBlanks.rest = cs.dropWhile Text.isBlank := by
  rw [skipBlanks_rest, here]
  exact List.dropWhile_cons_of_pos rfl

theorem skipBlanks_of_begins {cs others : List Char} {ch : Char} (here : c.rest = cs ++ rest)
    (first : cs = ch :: others) (begins : startsTerm ch = true) : c.skipBlanks = c :=
  skipBlanks_of_rest (here.trans (by rw [first]; rfl)) (not_isBlank_of_startsTerm begins)

theorem rest_of_blank {cs others : List Char} {ch : Char} (here : c.rest = ' ' :: (cs ++ rest))
    (first : cs = ch :: others) (begins : startsTerm ch = true) :
    c.skipBlanks.rest = cs ++ rest := by
  rw [rest_skipBlanks here]
  exact Text.dropWhile_eq_self (Halts.append first (not_isBlank_of_startsTerm begins) rest)

theorem rest_skipSpace {cs : List Char} (here : c.rest = ' ' :: cs) :
    c.skipSpace.rest = cs.dropWhile Text.isAsciiSpace := by
  rw [skipSpace_rest, here]
  exact List.dropWhile_cons_of_pos rfl

theorem skipSpace_of_rest {ch : Char} (here : c.rest = ch :: rest)
    (other : Text.isAsciiSpace ch = false) : c.skipSpace = c :=
  skipWhile_of_halts (halts_of_rest here other)

theorem identifier_spelled {name : Identifier} (what : String) (isName : IsName name)
    (here : c.rest = name.toList ++ rest) (halts : Halts isNameChar rest) :
    ∃ after, c.identifier what = .ok (name, after) ∧ after.rest = rest := by
  obtain ⟨there, same, after⟩ := name_spelled isName here halts
  refine ⟨c.name.2, ?_, after⟩
  rw [identifier_eq_ok.mpr ⟨there, rfl⟩, ← same]

theorem parametersSpelling_halts {names : List Identifier} (halts : Halts isNameChar rest) :
    Halts isNameChar (parametersSpelling names ++ rest) := by
  cases names with
  | nil => exact halts
  | cons name names => exact .cons rfl

theorem namesWithin_spelled {names : List Identifier} (isName : ∀ name ∈ names, IsName name)
    (halts : Halts isNameChar rest) (last : Halts isNameStart (rest.dropWhile Text.isBlank))
    {bound : Nat} (enough : names.length ≤ bound)
    (here : c.rest = parametersSpelling names ++ rest) :
    ∃ after, c.namesWithin bound = (names, after) ∧ after.rest = rest.dropWhile Text.isBlank := by
  induction names generalizing c bound with
  | nil =>
      have after : c.skipBlanks.rest = rest.dropWhile Text.isBlank := by
        rw [skipBlanks_rest, here]
        rfl
      have ended : c.skipBlanks.atName = false := atName_of_halts (after ▸ last)
      refine ⟨c.skipBlanks, ?_, after⟩
      cases bound with
      | zero => rfl
      | succ bound => rw [namesWithin, if_neg (by rw [ended]; exact Bool.false_ne_true)]
  | cons name names ih =>
      obtain ⟨bound, rfl⟩ := Nat.exists_eq_succ_of_ne_zero (Nat.ne_zero_of_lt enough)
      have first := isName name List.mem_cons_self
      have blank : c.rest = ' ' :: (name.toList ++ (parametersSpelling names ++ rest)) := by
        rw [here, parametersSpelling, List.flatMap_cons, parametersSpelling]
        simp only [List.cons_append, List.append_assoc]
      have begun : c.skipBlanks.rest = name.toList ++ (parametersSpelling names ++ rest) := by
        rw [rest_skipBlanks blank, first.dropWhile]
      obtain ⟨there, same, next⟩ := name_spelled first begun (parametersSpelling_halts halts)
      obtain ⟨after, others, ends⟩ := ih (fun name mem => isName name (List.mem_cons_of_mem _ mem))
        (Nat.le_of_succ_le_succ enough) next
      refine ⟨after, ?_, ends⟩
      rw [namesWithin, if_pos there, others, same]

theorem names_spelled {names : List Identifier} (isName : ∀ name ∈ names, IsName name)
    (halts : Halts isNameChar rest) (last : Halts isNameStart (rest.dropWhile Text.isBlank))
    (here : c.rest = parametersSpelling names ++ rest) :
    c.names.1 = names ∧ c.names.2.rest = rest.dropWhile Text.isBlank := by
  obtain ⟨after, same, ends⟩ :=
    namesWithin_spelled isName halts last (Nat.le_add_right _ c.left) here
  rw [← (isUnbound c).names _ (Nat.le_add_left _ _), same]
  exact ⟨rfl, ends⟩

theorem targetsWithin_spelled {names : List Identifier} (some : names ≠ [])
    (isName : ∀ name ∈ names, IsName name) (halts : Halts isNameChar rest)
    (last : Halts (· == ',') (rest.dropWhile Text.isBlank)) {bound : Nat}
    (enough : names.length ≤ bound) (here : c.skipBlanks.rest = namesSpelling names ++ rest) :
    ∃ after, c.targetsWithin bound = (names, after) ∧ after.rest = rest.dropWhile Text.isBlank := by
  induction names generalizing c bound with
  | nil => exact absurd rfl some
  | cons first others ih =>
      obtain ⟨bound, rfl⟩ := Nat.exists_eq_succ_of_ne_zero (Nat.ne_zero_of_lt enough)
      have begins := isName first List.mem_cons_self
      cases others with
      | nil =>
          have here : c.skipBlanks.rest = first.toList ++ rest := by
            rw [here, namesSpelling, List.flatMap_nil, List.append_nil]
          obtain ⟨there, same, after⟩ := name_spelled begins here halts
          have ends : c.skipBlanks.name.2.skipBlanks.rest = rest.dropWhile Text.isBlank := by
            rw [skipBlanks_rest, after]
          refine ⟨c.skipBlanks.name.2.skipBlanks, ?_, ends⟩
          rw [targetsWithin, if_pos there]
          dsimp only
          rw [take?_of_halts (ends ▸ last), same]
      | cons second others =>
          have here : c.skipBlanks.rest =
              first.toList ++ ',' :: ' ' :: (namesSpelling (second :: others) ++ rest) := by
            rw [here, namesSpelling, namesSpelling, List.flatMap_cons]
            simp only [List.cons_append, List.append_assoc]
          obtain ⟨there, same, after⟩ := name_spelled begins here (.cons rfl)
          have stay := skipBlanks_of_rest after rfl
          have next : c.skipBlanks.name.2.advance.skipBlanks.rest =
              namesSpelling (second :: others) ++ rest := by
            rw [rest_skipBlanks (advance_of_rest after), namesSpelling, List.append_assoc,
              (isName second (by simp)).dropWhile]
          obtain ⟨last, read, ends⟩ := ih (List.cons_ne_nil _ _)
            (fun name mem => isName name (List.mem_cons_of_mem _ mem))
            (Nat.le_of_succ_le_succ enough) next
          refine ⟨last, ?_, ends⟩
          rw [targetsWithin, if_pos there]
          dsimp only
          rw [stay, take?_of_rest after]
          dsimp only
          rw [read, same]

/-- The targets of an assignment, up to their sign. -/
theorem targets?_spelled {names : List Identifier} (some : names ≠ [])
    (isName : ∀ name ∈ names, IsName name)
    (here : c.skipBlanks.rest = namesSpelling names ++ ' ' :: '=' :: rest) :
    ∃ after, c.targets? = .some (names, after) ∧ after.rest = rest := by
  obtain ⟨after, read, ends⟩ := targetsWithin_spelled some isName (.cons rfl) (.cons rfl)
    (Nat.le_add_right _ c.left) here
  have ends : after.rest = '=' :: rest := ends
  refine ⟨after.advance, ?_, advance_of_rest ends⟩
  rw [targets?, ← left, ← (isUnbound c).targets _ (Nat.le_add_left _ _), read]
  cases names with
  | nil => exact absurd rfl some
  | cons first others =>
      dsimp only
      rw [take?_of_rest ends]
      rfl

theorem commaNamesWithin_spelled {names : List Identifier} (isName : ∀ name ∈ names, IsName name)
    (halts : Halts isNameChar rest)
    (last : ∀ others, rest.dropWhile Text.isBlank = ',' :: others →
      Halts isNameStart (others.dropWhile Text.isBlank))
    {bound : Nat} (enough : names.length ≤ bound)
    (here : c.rest = ((names.flatMap fun name => ',' :: ' ' :: name.toList) ++ rest).dropWhile
      Text.isBlank) :
    ∃ after, c.commaNamesWithin bound = (names, after) ∧
      after.rest = rest.dropWhile Text.isBlank := by
  induction names generalizing c bound with
  | nil =>
      refine ⟨c, ?_, here⟩
      cases bound with
      | zero => rfl
      | succ bound =>
          rw [commaNamesWithin]
          split
          · rfl
          · rename_i next taken
            obtain ⟨comma, rfl⟩ := take?_eq_some.mp taken
            obtain ⟨others, same⟩ := peek?_eq_some.mp comma
            have ended : c.advance.skipBlanks.atName = false := by
              refine atName_of_halts ?_
              rw [skipBlanks_rest, advance_of_rest same]
              exact last others (here.symm.trans same)
            dsimp only
            rw [if_neg (by rw [ended]; exact Bool.false_ne_true)]
  | cons first others ih =>
      obtain ⟨bound, rfl⟩ := Nat.exists_eq_succ_of_ne_zero (Nat.ne_zero_of_lt enough)
      have begins := isName first List.mem_cons_self
      have here : c.rest = ',' :: ' ' :: (first.toList ++
          ((others.flatMap fun name => ',' :: ' ' :: name.toList) ++ rest)) := by
        rw [here, List.flatMap_cons, List.cons_append, List.cons_append, List.append_assoc]
        rfl
      have next : c.advance.skipBlanks.rest = first.toList ++
          ((others.flatMap fun name => ',' :: ' ' :: name.toList) ++ rest) := by
        rw [rest_skipBlanks (advance_of_rest here), begins.dropWhile]
      have separate : Halts isNameChar
          ((others.flatMap fun name => ',' :: ' ' :: name.toList) ++ rest) := by
        cases others with
        | nil => exact halts
        | cons second others => exact .cons rfl
      obtain ⟨there, same, after⟩ := name_spelled begins next separate
      obtain ⟨last, read, ends⟩ := ih (c := c.advance.skipBlanks.name.2.skipBlanks)
        (fun name mem => isName name (List.mem_cons_of_mem _ mem))
        (Nat.le_of_succ_le_succ enough) (by rw [skipBlanks_rest, after])
      refine ⟨last, ?_, ends⟩
      rw [commaNamesWithin, take?_of_rest here]
      dsimp only
      rw [if_pos there, read, same]

theorem commaNames_spelled {names : List Identifier} (isName : ∀ name ∈ names, IsName name)
    (halts : Halts isNameChar rest)
    (last : ∀ others, rest.dropWhile Text.isBlank = ',' :: others →
      Halts isNameStart (others.dropWhile Text.isBlank))
    (here : c.rest = ((names.flatMap fun name => ',' :: ' ' :: name.toList) ++ rest).dropWhile
      Text.isBlank) :
    c.commaNames.1 = names ∧ c.commaNames.2.rest = rest.dropWhile Text.isBlank := by
  obtain ⟨after, same, ends⟩ :=
    commaNamesWithin_spelled isName halts last (Nat.le_add_right _ c.left) here
  rw [← (isUnbound c).commaNames _ (Nat.le_add_left _ _), same]
  exact ⟨rfl, ends⟩

/-! What stands after the parameters of a procedure, and comments. -/

theorem signature_spelled {signature : Option String}
    (isSignature : ∀ remark, signature = some remark → IsSignature remark)
    (here : c.rest =
      (signatureSpelling signature ++ ' ' :: '\x7b' :: rest).dropWhile Text.isBlank) :
    c.signature.1 = signature ∧ c.signature.2.rest = '\x7b' :: rest := by
  cases signature with
  | none =>
      have here : c.rest = '\x7b' :: rest := here
      rw [Cursor.signature, take?_of_halts (halts_of_rest here rfl)]
      exact ⟨rfl, here⟩
  | some remark =>
      obtain ⟨some, trimmed, within⟩ := isSignature remark rfl
      have here : c.rest = ':' :: ((' ' :: (remark.toList ++ [' '])) ++ '\x7b' :: rest) := by
        rw [here, signatureSpelling, List.cons_append, List.cons_append, List.cons_append,
          List.cons_append, List.append_assoc]
        rfl
      have passes : ∀ ch ∈ ' ' :: (remark.toList ++ [' ']), isWithinHeader ch = true := by
        simp only [List.forall_mem_cons, List.forall_mem_append]
        exact ⟨rfl, within, rfl, nofun⟩
      obtain ⟨taken, after⟩ := taken_of_halts (advance_of_rest here) passes (.cons rfl)
      rw [Cursor.signature, take?_of_rest here]
      dsimp only
      refine ⟨?_, after⟩
      rw [taken, trimmed.trim_between some rfl rfl, if_neg (by simpa using some),
        String.ofList_toList]

theorem comment_spelled {remark : String} (isRemark : IsRemark remark)
    (here : c.rest = '-' :: '-' :: ' ' :: (remark.toList ++ '\n' :: rest)) :
    c.atComment = true ∧ c.comment.1 = .comment c.offset remark ∧ c.comment.2.rest = rest := by
  have within : c.advance.advance.rest = (' ' :: remark.toList) ++ '\n' :: rest :=
    advance_of_rest (advance_of_rest here)
  have passes : ∀ ch ∈ ' ' :: remark.toList, isWithinLine ch = true :=
    List.forall_mem_cons.mpr ⟨rfl, isRemark.2⟩
  obtain ⟨taken, after⟩ := taken_of_halts within passes (.cons rfl)
  refine ⟨?_, ?_, ?_⟩
  · rw [atComment, here]
    rfl
  · rw [comment, taken, isRemark.1.trim_after rfl, String.ofList_toList]
  · rw [comment]
    dsimp only
    rw [skipLineFeed_rest, peek?_of_rest after, if_pos rfl, after]
    rfl

end Cursor

end Runbook
