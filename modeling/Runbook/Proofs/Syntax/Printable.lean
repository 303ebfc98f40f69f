import Runbook.Proofs.Text.Trim
import Runbook.Proofs.Syntax.Onward

/-!
The documents that texts spell.

Not every tree has a text. A printable one has the names, remarks and quantities that a text can
hold, groups what would otherwise be read differently, and puts a semicolon only where one may
stand. All that is read is printable.
-/
namespace Runbook

/-- A letter or an underscore, and then those and digits. -/
def IsName (name : Identifier) : Prop :=
  name.toList.head?.any isNameStart = true ∧ ∀ ch ∈ name.toList, isNameChar ch = true

theorem IsName.cons {name : Identifier} (isName : IsName name) :
    ∃ ch letters, name.toList = ch :: letters ∧ isNameStart ch = true := by
  have begins := isName.1
  cases same : name.toList with
  | nil =>
      rw [same] at begins
      cases begins
  | cons ch letters =>
      rw [same] at begins
      exact ⟨ch, letters, rfl, begins⟩

/-- Can it be the remark on the parameters of a procedure? -/
def IsSignature (remark : String) : Prop :=
  remark.toList ≠ [] ∧ Text.IsTrimmed remark.toList ∧
    ∀ ch ∈ remark.toList, isWithinHeader ch = true

/-- Can it be the text of a comment? -/
def IsRemark (remark : String) : Prop :=
  Text.IsTrimmed remark.toList ∧ ∀ ch ∈ remark.toList, isWithinLine ch = true

def Quantity.Printable : Quantity → Prop
  | .number value => 0 ≤ value.toInt
  | .measure magnitude unit =>
    0 ≤ magnitude.toInt ∧ unit.toList ≠ [] ∧ ∀ ch ∈ unit.toList, ch.isAlpha = true

def Setting.Printable : Setting → Prop
  | .inherit => True
  | .role name | .place name => IsName name

def Expression.isOperation : Expression → Bool
  | .operation .. => true
  | _ => false

/-- May a semicolon follow? -/
def Statement.isStep : Statement → Bool
  | .assignment .. | .execute .. | .declaration .. => true
  | .comment .. | .blank _ | .series _ => false

mutual

def Expression.Printable : Expression → Prop
  | .application _ name argument =>
    IsName name ∧ name ≠ "undefined" ∧ argument.isOperation = false ∧ argument.Printable
  | .unit _ | .text _ _ | .hole _ => True
  | .amount _ quantity => quantity.Printable
  | .tablet _ fields => FieldsPrintable fields
  | .reference _ names =>
    names ≠ [] ∧ names.head? ≠ some "undefined" ∧ ∀ name ∈ names, IsName name
  | .operation _ _ left right => left.Printable ∧ right.isOperation = false ∧ right.Printable
  | .grouping _ inner => inner.Printable
  | .restriction _ setting block => setting.Printable ∧ BlockPrintable false block

def FieldsPrintable : List (Label × Expression) → Prop
  | [] => True
  | (_, value) :: fields => value.Printable ∧ FieldsPrintable fields

/-- Can the statement be spelled, after a step if `stepped`? -/
def Statement.Printable (stepped : Bool) : Statement → Prop
  | .assignment _ targets value =>
    targets ≠ [] ∧ (∀ target ∈ targets, IsName target) ∧ value.Printable
  | .execute _ value => value.Printable
  | .declaration _ procedure => procedure.Printable
  | .comment _ remark => IsRemark remark
  | .blank _ => True
  | .series _ => stepped = true

/-- Can the statements be spelled, after a step if `stepped`? -/
def BlockPrintable (stepped : Bool) : List Statement → Prop
  | [] => True
  | statement :: block => statement.Printable stepped ∧ BlockPrintable statement.isStep block

def Procedure.Printable : Procedure → Prop
  | ⟨_, name, parameters, signature, block⟩ =>
    IsName name ∧ (∀ parameter ∈ parameters, IsName parameter) ∧
      (∀ remark ∈ signature, IsSignature remark) ∧ BlockPrintable false block

end

-- what is decided is decided by going through the text, not through all characters
instance decidableAllChars (p : Char → Bool) (cs : List Char) :
    Decidable (∀ ch ∈ cs, p ch = true) :=
  List.decidableBAll (p · = true) cs

instance (name : Identifier) : Decidable (IsName name) := inferInstanceAs (Decidable (_ ∧ _))

instance (remark : String) : Decidable (IsSignature remark) :=
  have : Decidable (Text.IsTrimmed remark.toList) := inferInstanceAs (Decidable (_ = _))
  inferInstanceAs (Decidable (_ ∧ _ ∧ _))

instance (remark : String) : Decidable (IsRemark remark) :=
  have : Decidable (Text.IsTrimmed remark.toList) := inferInstanceAs (Decidable (_ = _))
  inferInstanceAs (Decidable (_ ∧ _))

instance : (quantity : Quantity) → Decidable quantity.Printable
  | .number _ => inferInstanceAs (Decidable (_ ≤ _))
  | .measure _ _ => inferInstanceAs (Decidable (_ ∧ _ ∧ _))

instance : (setting : Setting) → Decidable setting.Printable
  | .inherit => inferInstanceAs (Decidable True)
  | .role name | .place name => inferInstanceAs (Decidable (IsName name))

mutual

def Expression.decidePrintable : (e : Expression) → Decidable e.Printable
  | .application _ _ argument =>
    have := argument.decidePrintable
    inferInstanceAs (Decidable (_ ∧ _ ∧ _ ∧ _))
  | .unit _ | .text _ _ | .hole _ => inferInstanceAs (Decidable True)
  | .amount _ quantity => inferInstanceAs (Decidable quantity.Printable)
  | .tablet _ fields => decideFieldsPrintable fields
  | .reference _ _ => inferInstanceAs (Decidable (_ ∧ _ ∧ _))
  | .operation _ _ left right =>
    have := left.decidePrintable
    have := right.decidePrintable
    inferInstanceAs (Decidable (_ ∧ _ ∧ _))
  | .grouping _ inner => inner.decidePrintable
  | .restriction _ _ block =>
    have := decideBlockPrintable false block
    inferInstanceAs (Decidable (_ ∧ _))

def decideFieldsPrintable : (fields : List (Label × Expression)) →
    Decidable (FieldsPrintable fields)
  | [] => inferInstanceAs (Decidable True)
  | (_, value) :: fields =>
    have := value.decidePrintable
    have := decideFieldsPrintable fields
    inferInstanceAs (Decidable (_ ∧ _))

def Statement.decidePrintable (stepped : Bool) :
    (statement : Statement) → Decidable (statement.Printable stepped)
  | .assignment _ _ value =>
    have := value.decidePrintable
    inferInstanceAs (Decidable (_ ∧ _ ∧ _))
  | .execute _ value => value.decidePrintable
  | .declaration _ procedure => procedure.decidePrintable
  | .comment _ remark => inferInstanceAs (Decidable (IsRemark remark))
  | .blank _ => inferInstanceAs (Decidable True)
  | .series _ => inferInstanceAs (Decidable (_ = _))

def decideBlockPrintable (stepped : Bool) :
    (block : List Statement) → Decidable (BlockPrintable stepped block)
  | [] => inferInstanceAs (Decidable True)
  | statement :: block =>
    have := statement.decidePrintable stepped
    have := decideBlockPrintable statement.isStep block
    inferInstanceAs (Decidable (_ ∧ _))

def Procedure.decidePrintable : (procedure : Procedure) → Decidable procedure.Printable
  | ⟨_, _, _, _, block⟩ =>
    have := decideBlockPrintable false block
    inferInstanceAs (Decidable (_ ∧ _ ∧ _ ∧ _))

end

theorem BlockPrintable.stepped {block : Block} (printable : BlockPrintable false block) :
    BlockPrintable true block := by
  cases block with
  | nil => trivial
  | cons statement block =>
      refine ⟨?_, printable.2⟩
      cases statement with
      | series => exact absurd printable.1 Bool.false_ne_true
      | _ => exact printable.1

def Document.Printable (document : Document) : Prop :=
  document.procedures ≠ [] ∧ ∀ procedure ∈ document.procedures, procedure.Printable

instance (document : Document) : Decidable document.Printable :=
  have := Procedure.decidePrintable
  inferInstanceAs (Decidable (_ ∧ _))

/-- Can what is read be spelled? Operators are read after an operand, and a block after its
setting. -/
def Phrase.Printable : Phrase → Prop
  | .expression value => value.Printable
  | .operations _ left value => left.Printable → value.Printable
  | .term value | .named value => value.Printable ∧ value.isOperation = false
  | .fields value => FieldsPrintable value
  | .restriction _ setting value =>
    setting.Printable → value.Printable ∧ value.isOperation = false
  | .bracedBlock value | .block value => BlockPrintable false value
  | .statement value => value.isStep = true ∧ value.Printable false
  | .declaration value => value.Printable

namespace Cursor

variable {text : List Char} {c after : Cursor text}

theorem mem_taken {p : Char → Bool} {c : Cursor text} {ch : Char} (mem : ch ∈ c.taken p) :
    p ch = true := List.all_eq_true.mp List.all_takeWhile ch mem

theorem isName_name (there : c.atName = true) : IsName c.name.1 := by
  obtain ⟨ch, rest, same, begins⟩ := atName_iff.mp there
  refine ⟨?_, fun ch mem => ?_⟩
  · rw [name_toList, same, List.takeWhile_cons_of_pos (isNameChar_of_isNameStart begins)]
    exact begins
  · rw [name_toList] at mem
    exact mem_taken mem

theorem isName_identifier {what : String} {name : Identifier}
    (named : c.identifier what = .ok (name, after)) : IsName name := by
  obtain ⟨there, same⟩ := identifier_eq_ok.mp named
  cases same
  exact isName_name there

theorem isName_namesWithin (bound : Nat) (c : Cursor text) :
    ∀ name ∈ (c.namesWithin bound).1, IsName name := by
  induction bound generalizing c with
  | zero => exact List.forall_mem_nil _
  | succ bound ih =>
      rw [namesWithin]
      split
      · rename_i there
        exact List.forall_mem_cons.mpr ⟨isName_name there, ih _⟩
      · exact List.forall_mem_nil _

theorem isName_targetsWithin (bound : Nat) (c : Cursor text) :
    ∀ name ∈ (c.targetsWithin bound).1, IsName name := by
  induction bound generalizing c with
  | zero => exact List.forall_mem_nil _
  | succ bound ih =>
      rw [targetsWithin]
      split
      · rename_i there
        dsimp only
        split
        · exact List.forall_mem_cons.mpr ⟨isName_name there, ih _⟩
        · exact List.forall_mem_singleton.mpr (isName_name there)
      · exact List.forall_mem_nil _

theorem isName_targets? {targets : List Identifier} (found : c.targets? = some (targets, after)) :
    targets ≠ [] ∧ ∀ target ∈ targets, IsName target := by
  have within := isName_targetsWithin c.rest.length c
  rw [targets?] at found
  split at found
  · cases found
  · rename_i names last empty same
    obtain ⟨_, _, same'⟩ := Option.map_eq_some_iff.mp found
    cases same'
    rw [same] at within
    refine ⟨?_, within⟩
    rintro rfl
    exact empty rfl

theorem isName_commaNamesWithin (bound : Nat) (c : Cursor text) :
    ∀ name ∈ (c.commaNamesWithin bound).1, IsName name := by
  induction bound generalizing c with
  | zero => exact List.forall_mem_nil _
  | succ bound ih =>
      rw [commaNamesWithin]
      split
      · exact List.forall_mem_nil _
      · dsimp only
        split
        · rename_i there
          exact List.forall_mem_cons.mpr ⟨isName_name there, ih _⟩
        · exact List.forall_mem_nil _

theorem isSignature_signature {remark : String} (found : c.signature.1 = some remark) :
    IsSignature remark := by
  rw [signature] at found
  split at found
  · cases found
  · rename_i next _
    dsimp only at found
    split at found
    · cases found
    · rename_i some
      cases found
      rw [IsSignature, String.toList_ofList]
      refine ⟨by simpa using some, Text.isTrimmed_trim _, fun ch mem => ?_⟩
      exact mem_taken ((Text.trim_sublist _).subset mem)

theorem isRemark_comment : ∃ offset remark, c.comment.1 = .comment offset remark ∧
    IsRemark remark := by
  refine ⟨_, _, rfl, ?_⟩
  rw [IsRemark, String.toList_ofList]
  exact ⟨Text.isTrimmed_trim _, fun ch mem => mem_taken ((Text.trim_sublist _).subset mem)⟩

theorem printable_amount {value : Expression} (read : c.amount = .ok (value, after)) :
    value.Printable ∧ value.isOperation = false := by
  rw [amount] at read
  split at read
  · rename_i small
    have nonnegative : 0 ≤ (Int64.ofNat (Nat.ofDigitChars 10 (c.taken Char.isDigit) 0)).toInt := by
      rw [Int64.toInt_ofNat_of_lt small]
      exact Int.natCast_nonneg _
    dsimp only at read
    split at read
    · cases read
      exact ⟨nonnegative, rfl⟩
    · rename_i unit nonempty
      cases read
      refine ⟨⟨nonnegative, ?_⟩, rfl⟩
      rw [String.toList_ofList]
      exact ⟨nonempty, fun ch mem => mem_taken mem⟩
  · cases read

theorem printable_statementEnd {endings : List Statement} {block : Block}
    (ended : c.statementEnd = .ok (endings, after)) (printable : BlockPrintable false block) :
    BlockPrintable true (endings ++ block) := by
  rw [statementEnd] at ended
  split at ended
  · cases ended
    obtain ⟨offset, remark, same, isRemark⟩ := isRemark_comment (c := c.skipBlanks)
    rw [same]
    exact ⟨isRemark, printable⟩
  · split at ended
    · cases ended
      exact printable.stepped
    · cases ended
      exact ⟨rfl, printable⟩
    · cases ended
      exact printable.stepped
    · cases ended

end Cursor

open Cursor

/-- All that is read is printable. -/
theorem Reads.printable {text : List Char} {c after : Cursor text} {phrase : Phrase}
    (reads : Reads c phrase after) : phrase.Printable := by
  induction reads with
  | expression _ _ first rest => exact rest first.1
  | last _ => exact id
  | operator _ _ _ first rest => exact fun left => rest ⟨left, first.2, first.1⟩
  | unit _ _ => exact ⟨trivial, rfl⟩
  | grouping _ _ _ _ ih => exact ⟨ih, rfl⟩
  | string _ _ => exact ⟨trivial, rfl⟩
  | tablet _ _ ih => exact ⟨ih, rfl⟩
  | hole _ => exact ⟨trivial, rfl⟩
  | inherited _ _ _ ih => exact ih trivial
  | role _ _ named _ ih => exact ih (isName_identifier named)
  | place _ named _ ih => exact ih (isName_identifier named)
  | amount _ _ read => exact printable_amount read
  | name _ _ ih => exact ih
  | undefined _ _ => exact ⟨trivial, rfl⟩
  | application there other _ _ ih => exact ⟨⟨isName_name there, other, ih.2, ih.1⟩, rfl⟩
  | reference there other _ =>
      refine ⟨⟨List.cons_ne_nil _ _, fun same => other (Option.some.inj same), ?_⟩, rfl⟩
      exact List.forall_mem_cons.mpr ⟨isName_name there, isName_commaNamesWithin _ _⟩
  | noField _ => exact trivial
  | field _ _ _ _ _ _ _ first rest => exact ⟨first, rest⟩
  | lastField _ _ _ _ _ _ _ ih => exact ⟨ih, trivial⟩
  | restriction _ ih => exact fun setting => ⟨⟨setting, ih⟩, rfl⟩
  | bracedBlock _ _ _ ih => exact ih
  | noStatement _ => exact trivial
  | blank _ _ ih => exact ⟨trivial, ih⟩
  | @comment c _ _ _ _ ih =>
      obtain ⟨offset, remark, same, isRemark⟩ := isRemark_comment (c := c.skipBlanks)
      rw [Phrase.Printable, same]
      exact ⟨isRemark, ih⟩
  | nextStatement _ _ _ _ _ ended _ first rest =>
      refine ⟨first.2, ?_⟩
      rw [first.1]
      exact printable_statementEnd ended rest
  | assignment found _ ih =>
      obtain ⟨some, names⟩ := isName_targets? found
      exact ⟨rfl, some, names, ih⟩
  | procedure _ _ _ ih => exact ⟨rfl, ih⟩
  | execute _ _ _ ih => exact ⟨rfl, ih⟩
  | declaration there _ ih =>
      exact ⟨isName_name there, isName_namesWithin _ _, fun _ => isSignature_signature, ih⟩

theorem Cursor.proceduresWithin_printable {text : List Char} (limit : Nat) {c : Cursor text}
    {procedures : List Procedure} (read : c.proceduresWithin limit = .ok procedures) :
    ∀ procedure ∈ procedures, procedure.Printable := by
  induction limit generalizing c procedures with
  | zero => cases read
  | succ limit ih =>
      rw [proceduresWithin] at read
      dsimp only at read
      split at read
      · cases read
        exact nofun
      · rw [Reading.bind_eq_ok] at read
        obtain ⟨⟨first, after⟩, head, read⟩ := read
        rw [Reading.bind_eq_ok] at read
        obtain ⟨others, tail, same⟩ := read
        cases same
        exact List.forall_mem_cons.mpr ⟨(declaration_reads _ head).printable, ih tail⟩

theorem Document.parse_eq_ok {text : String} {document : Document} :
    Document.parse text = .ok document ↔ Document.read text = .ok document := by
  rw [Document.parse]
  cases Document.read text with
  | ok read =>
      exact ⟨fun same => congrArg _ (Except.ok.inj same), fun same =>
        congrArg _ (Except.ok.inj same)⟩
  | error error =>
      constructor
      · intro same
        cases same
      · intro same
        cases same

theorem Document.parse_printable {text : String} {document : Document}
    (read : Document.parse text = .ok document) : document.Printable := by
  rw [Document.parse_eq_ok, Document.read, Reading.bind_eq_ok] at read
  obtain ⟨procedures, read, same⟩ := read
  have printable := proceduresWithin_printable _ read
  split at same
  · cases same
  · rename_i some
    cases same
    exact ⟨some, printable⟩

end Runbook
