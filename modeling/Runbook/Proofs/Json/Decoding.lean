import Runbook.Config.Basic
import Runbook.Program.Json
import Runbook.Proofs.Json.Spelled
import Runbook.Proofs.Syntax.Total
import Runbook.Value.Json

/-!
Trees are read from the JSON that is written of them.

Each reader undoes its writer: it gives the tree again, be it from the JSON value or from a text of it.
Of a library this is so if it is the table that its list stands for, with a place for each number; no
other is ever read.
-/
namespace Runbook

/-! Numbers and lists. -/

namespace Json

@[simp] theorem nat?_ofNat (n : Nat) : (Json.ofNat n).nat? = some n := by
  rw [ofNat, nat?, if_pos (Int.natCast_nonneg n), Int.toNat_natCast]

@[simp] theorem int64?_ofInt64 (n : Int64) : (Json.ofInt64 n).int64? = some n := by
  rw [ofInt64, int64?, Word.signed?, if_pos ⟨n.le_toInt, n.toInt_lt⟩, Int64.ofInt_toInt]

@[simp] theorem str?_str (text : String) : (Json.str text).str? = some text := rfl

theorem mapM_decode {α : Type} {encode : α → Json} {decode : Json → Option α} {items : List α}
    (decodes : ∀ item ∈ items, decode (encode item) = some item) :
    (items.map encode).mapM decode = some items := by
  induction items with
  | nil => rfl
  | cons item items ih =>
      rw [List.forall_mem_cons] at decodes
      rw [List.map_cons, List.mapM_cons, decodes.1, ih decodes.2]
      rfl

theorem list?_map {α : Type} {encode : α → Json} {decode : Json → Option α} {items : List α}
    (decodes : ∀ item ∈ items, decode (encode item) = some item) :
    (Json.arr (items.map encode)).list? decode = some items := mapM_decode decodes

@[simp] theorem list?_ofStrings (texts : List String) :
    (Json.ofStrings texts).list? Json.str? = some texts := list?_map fun _ _ => rfl

end Json

/-! Documents. -/

@[simp] theorem Setting.ofJson?_toJson (setting : Setting) :
    ofJson? setting.toJson = some setting := by
  cases setting <;> rfl

@[simp] theorem Quantity.ofJson?_toJson (quantity : Quantity) :
    ofJson? quantity.toJson = some quantity := by
  cases quantity with
  | number n => simp only [toJson, Json.tagged, ofJson?, Json.int64?_ofInt64, Option.map_some]
  | measure n unit =>
      have magnitude : (Json.obj [("magnitude", .ofInt64 n), ("unit", .str unit)]).member?
          "magnitude" = some (.ofInt64 n) := rfl
      have symbol : (Json.obj [("magnitude", .ofInt64 n), ("unit", .str unit)]).member? "unit" =
          some (.str unit) := rfl
      simp only [toJson, Json.tagged, ofJson?, magnitude, symbol, Option.bind_some,
        Json.int64?_ofInt64, Json.str?_str, Option.bind_eq_bind]

@[simp] theorem Operator.ofJson?_toJson (operator : Operator) :
    ofJson? operator.toJson = some operator := by
  cases operator <;> rfl

@[simp] theorem Json.optionalStr?_signature (signature : Option String) :
    ((signature.map Json.str).getD .null).optionalStr? = some signature := by
  cases signature <;> rfl

mutual

@[simp] theorem Expression.ofJson?_toJson :
    ∀ expression : Expression, Expression.ofJson? expression.toJson = some expression
  | .application _ _ argument => by
      simp [Expression.toJson, Json.tagged, Expression.ofJson?, Expression.ofJson?_toJson argument]
  | .unit _ | .text _ _ | .amount _ _ | .hole _ | .reference _ _ => by
      simp [Expression.toJson, Json.tagged, Expression.ofJson?]
  | .tablet _ fields => by
      simp [Expression.toJson, Json.tagged, Expression.ofJson?, fieldsOfJson?_fieldsToJson fields]
  | .operation _ _ left right => by
      simp [Expression.toJson, Json.tagged, Expression.ofJson?, Expression.ofJson?_toJson left,
        Expression.ofJson?_toJson right]
  | .grouping _ inner => by
      simp [Expression.toJson, Json.tagged, Expression.ofJson?, Expression.ofJson?_toJson inner]
  | .restriction _ _ block => by
      simp [Expression.toJson, Json.tagged, Expression.ofJson?, blockOfJson?_blockToJson block]

theorem Statement.ofJson?_toJson :
    ∀ statement : Statement, Statement.ofJson? statement.toJson = some statement
  | .assignment _ _ value | .execute _ value => by
      simp [Statement.toJson, Json.tagged, Statement.ofJson?, Expression.ofJson?_toJson value]
  | .declaration _ procedure => by
      simp [Statement.toJson, Json.tagged, Statement.ofJson?, Procedure.ofJson?_toJson procedure]
  | .comment _ _ | .blank _ | .series _ => by
      simp [Statement.toJson, Json.tagged, Statement.ofJson?]

@[simp] theorem Procedure.ofJson?_toJson :
    ∀ procedure : Procedure, Procedure.ofJson? procedure.toJson = some procedure
  | ⟨_, _, _, _, block⟩ => by
      simp [Procedure.toJson, Procedure.ofJson?, procedureDraft?, ProcedureDraft.finish?,
        blockOfJson?_blockToJson block]

theorem fieldsOfJson?_fieldsToJson : ∀ fields : List (Label × Expression),
    fieldsOfJson? (fieldsToJson fields) = some fields
  | [] => rfl
  | (_, value) :: fields => by
      simp [fieldsToJson, fieldsOfJson?, Expression.ofJson?_toJson value,
        fieldsOfJson?_fieldsToJson fields]

theorem blockOfJson?_blockToJson :
    ∀ block : List Statement, blockOfJson? (blockToJson block) = some block
  | [] => rfl
  | statement :: block => by
      simp [blockToJson, blockOfJson?, Statement.ofJson?_toJson statement,
        blockOfJson?_blockToJson block]

end

theorem Document.ofJson?_toJson (document : Document) :
    ofJson? document.toJson = some document := by
  have procedures : (Json.arr (document.procedures.map Procedure.toJson)).list? Procedure.ofJson? =
      some document.procedures := Json.list?_map fun procedure _ => Procedure.ofJson?_toJson procedure
  have fields : document.toJson.fields? ["procedures"] =
      some [.arr (document.procedures.map Procedure.toJson)] := rfl
  simp [ofJson?, fields, procedures]

/-! Failures to read. -/

@[simp] theorem Item.ofJson?_toJson (item : Item) : ofJson? item.toJson = some item := by
  cases item <;> rfl

@[simp] theorem ItemSet.ofJson?_toJson (set : ItemSet) : ofJson? set.toJson = some set := by
  rw [toJson, ofJson?, Json.list?_map fun item _ => Item.ofJson?_toJson item, Option.map_some,
    ofList_toList]

theorem ParseError.ofJson?_toJson (error : ParseError) : ofJson? error.toJson = some error := by
  have fields : error.toJson.fields? ["offset", "unexpected", "expected"] =
      some [.ofNat error.offset, error.unexpected.toJson, error.expected.toJson] := rfl
  simp [ofJson?, fields]

theorem ParseFailure.ofJson?_toJson (failure : ParseFailure) :
    ofJson? failure.toJson = some failure := by
  have errors : (Json.arr (failure.errors.map ParseError.toJson)).list? ParseError.ofJson? =
      some failure.errors := Json.list?_map fun error _ => ParseError.ofJson?_toJson error
  have fields : failure.toJson.fields? ["errors"] =
      some [.arr (failure.errors.map ParseError.toJson)] := rfl
  simp [ofJson?, fields, errors]

/-! Values. -/

mutual

theorem Value.ofJson?_toJson : ∀ value : Value, Value.ofJson? value.toJson = some value
  | .unit => rfl
  | .text _ | .quantity _ => by simp [Value.toJson, Json.tagged, Value.ofJson?]
  | .tablet fields => by
      simp [Value.toJson, Json.tagged, Value.ofJson?, valueFieldsOfJson?_valueFieldsToJson fields]
  | .parallel values => by
      simp [Value.toJson, Json.tagged, Value.ofJson?, valuesOfJson?_valuesToJson values]

theorem valueFieldsOfJson?_valueFieldsToJson : ∀ fields : List (Label × Value),
    valueFieldsOfJson? (valueFieldsToJson fields) = some fields
  | [] => rfl
  | (_, value) :: fields => by
      simp [valueFieldsToJson, valueFieldsOfJson?, Value.ofJson?_toJson value,
        valueFieldsOfJson?_valueFieldsToJson fields]

theorem valuesOfJson?_valuesToJson :
    ∀ values : List Value, valuesOfJson? (valuesToJson values) = some values
  | [] => rfl
  | value :: values => by
      simp [valuesToJson, valuesOfJson?, Value.ofJson?_toJson value,
        valuesOfJson?_valuesToJson values]

end

/-! Routines. -/

@[simp] theorem Name.ofJson?_toJson (name : Name) : ofJson? name.toJson = some name := by
  have fields : name.toJson.fields? ["index", "identifier"] =
      some [.ofNat name.index, .str name.identifier] := rfl
  simp [ofJson?, fields]

@[simp] theorem Name.list?_toJson (names : List Name) :
    (Json.arr (names.map Name.toJson)).list? Name.ofJson? = some names :=
  Json.list?_map fun name _ => Name.ofJson?_toJson name

mutual

theorem Literal.ofJson?_toJson : ∀ literal : Literal, Literal.ofJson? literal.toJson = some literal
  | .unit => rfl
  | .text _ | .quantity _ => by simp [Literal.toJson, Json.tagged, Literal.ofJson?]
  | .tablet fields => by
      simp [Literal.toJson, Json.tagged, Literal.ofJson?, stepFieldsOfJson?_stepFieldsToJson fields]

theorem Step.ofJson?_toJson : ∀ step : Step, Step.ofJson? step.toJson = some step
  | .literal literal => by
      simp [Step.toJson, Json.tagged, Step.ofJson?, Literal.ofJson?_toJson literal]
  | .bind _ step | .call _ step | .invoke _ step => by
      simp [Step.toJson, Json.tagged, Step.ofJson?, Step.ofJson?_toJson step]
  | .tuple steps => by
      simp [Step.toJson, Json.tagged, Step.ofJson?, stepsOfJson?_stepsToJson steps]
  | .read _ => by simp [Step.toJson, Json.tagged, Step.ofJson?]

theorem stepFieldsOfJson?_stepFieldsToJson : ∀ fields : List (Label × Step),
    stepFieldsOfJson? (stepFieldsToJson fields) = some fields
  | [] => rfl
  | (_, step) :: fields => by
      simp [stepFieldsToJson, stepFieldsOfJson?, Step.ofJson?_toJson step,
        stepFieldsOfJson?_stepFieldsToJson fields]

theorem stepsOfJson?_stepsToJson :
    ∀ steps : List Step, stepsOfJson? (stepsToJson steps) = some steps
  | [] => rfl
  | step :: steps => by
      simp [stepsToJson, stepsOfJson?, Step.ofJson?_toJson step, stepsOfJson?_stepsToJson steps]

end

@[simp] theorem Sequence.ofJson?_toJson (sequence : Sequence) :
    ofJson? sequence.toJson = some sequence := by
  refine Json.list?_map fun entry _ => ?_
  simp [Step.ofJson?_toJson]

mutual

/-- The procedures of a library stand in the order of their numbers, which are words. -/
def Routine.Numbered : Routine → Prop
  | ⟨_, _, _, library⟩ => libraryNumbered library

def libraryNumbered : List (Callee × Routine) → Prop
  | [] => True
  | (callee, routine) :: library => callee < Word.limit ∧ (∀ other ∈ library, callee < other.1) ∧
      routine.Numbered ∧ libraryNumbered library

end

/-- A number that is a word names a member of a library in decimal. -/
theorem callee?_toString {callee : Callee} (word : callee < Word.limit) :
    callee? (toString callee) = some callee := by
  have written : (toString callee).toList = Json.intChars callee := by
    rw [Nat.toString_eq_repr, Nat.toList_repr, Json.intChars,
      if_neg (Int.not_lt.mpr (Int.natCast_nonneg callee)), Int.natAbs_natCast]
  have read : Json.numberAt (Json.intChars callee ++ []) = some (.int callee, []) :=
    Json.numberAt_intChars ⟨by omega, Int.ofNat_lt.mpr word⟩ (by rintro _ ⟨⟩)
  rw [List.append_nil] at read
  rw [callee?, written, read]
  exact Json.nat?_ofNat callee

theorem Json.eq_of_nat? {json : Json} {n : Nat} (read : json.nat? = some n) : json = .int n := by
  cases json with
  | int m =>
      rw [nat?] at read
      split at read
      · rename_i positive
        rw [Option.some.injEq] at read
        rw [← read, Int.toNat_of_nonneg positive]
      · cases read
  | _ => cases read

theorem Json.numberOf_lt {negative : Bool} {whole tail : List Char} {n : Int}
    (same : numberOf negative whole tail = .int n) : n < Word.limit := by
  rw [numberOf] at same
  split at same
  · cases same
  · split at same
    · split at same
      · cases same
        rw [Word.limit]
        omega
      · cases same
    · split at same
      · rename_i small
        cases same
        exact Int.ofNat_lt.mpr small
      · cases same

/-- Only a word is read as such a name. -/
theorem callee?_lt {name : String} {callee : Callee} (read : callee? name = some callee) :
    callee < Word.limit := by
  rw [callee?] at read
  split at read
  · rename_i json found
    rw [Json.eq_of_nat? read, Json.numberAt.eq_def] at found
    simp only [Option.bind_eq_bind, Option.bind_eq_some_iff, Option.some.injEq,
      Prod.mk.injEq] at found
    obtain ⟨_, _, _, _, _, _, same, _⟩ := found
    exact Int.ofNat_lt.mp (Json.numberOf_lt same)
  · cases read

theorem Library.insert_first {library : Library} {callee : Callee} {routine : Routine}
    (first : ∀ other ∈ library, callee < other.1) :
    library.insert callee routine = (callee, routine) :: library := by
  cases library with
  | nil => rfl
  | cons entry library =>
      obtain ⟨other, kept⟩ := entry
      have before : callee < other := first (other, kept) List.mem_cons_self
      rw [insert, if_neg (Nat.ne_of_lt before), if_pos before]

theorem Library.mem_insert {library : Library} {callee : Callee} {routine : Routine}
    {entry : Callee × Routine} (inside : entry ∈ library.insert callee routine) :
    entry = (callee, routine) ∨ entry ∈ library := by
  induction library with
  | nil => exact .inl (List.mem_singleton.mp inside)
  | cons first library ih =>
      obtain ⟨other, kept⟩ := first
      rw [insert] at inside
      split_ifs at inside
      · exact (List.mem_cons.mp inside).imp_right (List.mem_cons_of_mem _)
      · exact List.mem_cons.mp inside
      · rcases List.mem_cons.mp inside with rfl | later
        · exact .inr List.mem_cons_self
        · exact (ih later).imp_right (List.mem_cons_of_mem _)

theorem libraryNumbered_insert {library : Library} {callee : Callee} {routine : Routine}
    (word : callee < Word.limit) (numbered : routine.Numbered)
    (others : libraryNumbered library) : libraryNumbered (library.insert callee routine) := by
  induction library with
  | nil => exact ⟨word, List.forall_mem_nil _, numbered, trivial⟩
  | cons first library ih =>
      obtain ⟨other, kept⟩ := first
      rw [libraryNumbered] at others
      obtain ⟨small, later, whole, rest⟩ := others
      rw [Library.insert]
      split_ifs with same before
      · rw [same]
        exact ⟨small, later, numbered, rest⟩
      · refine ⟨word, List.forall_mem_cons.mpr ⟨before, fun entry inside => ?_⟩, numbered, small,
          later, whole, rest⟩
        exact Nat.lt_trans before (later entry inside)
      · refine ⟨small, fun entry inside => ?_, whole, ih rest⟩
        rcases Library.mem_insert inside with rfl | inside
        · exact Nat.lt_of_le_of_ne (Nat.le_of_not_lt before) (Ne.symm same)
        · exact later entry inside

mutual

theorem Routine.ofJson?_toJson : ∀ routine : Routine, routine.Numbered →
    Routine.ofJson? routine.toJson = some routine
  | ⟨_, _, _, library⟩, numbered => by
      rw [Routine.Numbered] at numbered
      simp [Routine.toJson, Routine.ofJson?, routineDraft?, RoutineDraft.finish?,
        libraryOfJson?_libraryToJson library numbered]

theorem libraryOfJson?_libraryToJson : ∀ library : List (Callee × Routine),
    libraryNumbered library → libraryOfJson? (libraryToJson library) = some library
  | [], _ => rfl
  | (callee, routine) :: library, numbered => by
      rw [libraryNumbered] at numbered
      obtain ⟨word, first, whole, rest⟩ := numbered
      rw [libraryToJson, libraryOfJson?, Routine.ofJson?_toJson routine whole,
        libraryOfJson?_libraryToJson library rest, callee?_toString word]
      exact congrArg some (Library.insert_first first)

end

mutual

/-- What is read as a routine has its procedures in order. -/
theorem Routine.numbered_of_json : ∀ (json : Json) {routine : Routine},
    Routine.ofJson? json = some routine → routine.Numbered
  | .obj members, routine, read => by
      simp only [Routine.ofJson?, RoutineDraft.finish?, Option.bind_eq_bind,
        Option.bind_eq_some_iff, Option.some.injEq] at read
      obtain ⟨draft, drafted, _, _, _, _, _, _, library, found, rfl⟩ := read
      exact routineDraft_numbered members drafted library found
  | .arr [_, _, _, .obj library], routine, read => by
      simp only [Routine.ofJson?, Option.bind_eq_bind, Option.bind_eq_some_iff,
        Option.some.injEq] at read
      obtain ⟨_, _, _, _, _, _, _, found, rfl⟩ := read
      exact libraryNumbered_of_json library found

theorem routineDraft_numbered : ∀ (members : List (String × Json)) {draft : RoutineDraft},
    routineDraft? members = some draft → ∀ library, draft.library = some library →
      libraryNumbered library
  | [], _, read, _, found => by
      cases read
      cases found
  | (name, value) :: members, draft, read, library, found => by
      rw [routineDraft?.eq_def] at read
      dsimp only at read
      rw [Option.bind_eq_bind, Option.bind_eq_some_iff] at read
      obtain ⟨later, drafted, read⟩ := read
      have known := routineDraft_numbered members drafted
      have kept {β : Type} {part : Option β} {next : β → RoutineDraft}
          (read : (part.bind fun b => some (next b)) = some draft)
          (same : ∀ b, (next b).library = later.library) : libraryNumbered library := by
        obtain ⟨b, _, made⟩ := Option.bind_eq_some_iff.mp read
        rw [← Option.some.inj made, same b] at found
        exact known library found
      split at read
      · exact kept read fun _ => rfl
      · exact kept read fun _ => rfl
      · exact kept read fun _ => rfl
      · rename_i inner
        obtain ⟨first, one, made⟩ := Option.bind_eq_some_iff.mp read
        rw [← Option.some.inj made] at found
        cases last : later.library with
        | some kept =>
            rw [last] at found
            cases found
            exact known _ last
        | none =>
            rw [last] at found
            cases found
            exact libraryNumbered_of_json inner one
      · cases read
      · rw [← Option.some.inj read] at found
        exact known library found

theorem libraryNumbered_of_json : ∀ (members : List (String × Json))
    {library : List (Callee × Routine)}, libraryOfJson? members = some library →
      libraryNumbered library
  | [], _, read => by
      cases read
      trivial
  | (name, value) :: members, library, read => by
      simp only [libraryOfJson?, Option.bind_eq_bind, Option.bind_eq_some_iff,
        Option.some.injEq] at read
      obtain ⟨routine, one, rest, others, callee, named, rfl⟩ := read
      exact libraryNumbered_insert (callee?_lt named) (Routine.numbered_of_json value one)
        (libraryNumbered_of_json members others)

end

/-- Each member of a library is named by its number. -/
theorem libraryToJson_names : ∀ library : List (Callee × Routine),
    (libraryToJson library).map Prod.fst = library.map fun entry => toString entry.1
  | [] => rfl
  | (_, _) :: library => congrArg (_ :: ·) (libraryToJson_names library)

/-! Configurations. -/

namespace Config

theorem uint64?_ofNat (n : UInt64) : (Json.ofNat n.toNat).uint64? = some n := by
  have word : (0 : Int) ≤ n.toNat ∧ (n.toNat : Int) < Word.limit :=
    ⟨Int.natCast_nonneg _, Int.ofNat_lt.mpr n.toNat_lt⟩
  rw [Json.ofNat, Json.uint64?, if_pos word, Int.toNat_natCast, UInt64.ofNat_toNat]

theorem ofJson?_toJson (config : Config) : ofJson? config.toJson = some config := by
  have threads : optional? Json.uint64? default.workerThreads "worker_threads"
      [("worker_threads", .ofNat config.workerThreads.toNat), ("debug", .bool config.debug)] =
      some config.workerThreads := uint64?_ofNat config.workerThreads
  have debug : optional? Json.bool? default.debug "debug"
      [("worker_threads", .ofNat config.workerThreads.toNat), ("debug", .bool config.debug)] =
      some config.debug := rfl
  rw [toJson, ofJson?, threads, debug]
  rfl

theorem plain (config : Config) : config.toJson.Plain :=
  ⟨⟨by omega, Int.ofNat_lt.mpr config.workerThreads.toNat_lt⟩, trivial, trivial⟩

/-- The text of a configuration is read as it. -/
theorem ofText?_toText (config : Config) : ofText? config.toText = some config := by
  have spelled := Json.prettyMembers_spells "worker_threads"
    (.white (c := ' ') rfl (.int config.plain.1)) [("debug", .bool config.debug)] 0 config.plain.2
  have read := spelled.parseRecord?
  have text : config.toText = String.ofList ('\x7b' :: (Json.newLine (0 + 1) ++
      (Json.stringChars "worker_threads" ++ ':' ::
        ((' ' :: Json.intChars config.workerThreads.toNat) ++
          Json.prettyMembers 0 [("debug", .bool config.debug)])))) := by
    rw [toText, Json.pretty, toJson, Json.prettyChars]
    simp only [List.cons_append, List.append_assoc]
    rfl
  rw [ofText?, text, read, Option.bind_some, ← config.ofJson?_toJson, toJson, Json.ofNat]

end Config

/-! Trees of every kind. -/

theorem Quantity.plain (quantity : Quantity) : quantity.toJson.Plain := by
  have word (n : Int64) : Json.IsWord n.toInt := by
    refine ⟨n.le_toInt, ?_⟩
    have high := n.toInt_lt
    rw [Word.limit]
    omega
  cases quantity with
  | number n => exact ⟨word n, trivial⟩
  | measure n unit => exact ⟨⟨word n, trivial, trivial⟩, trivial⟩

mutual

theorem Value.plain : ∀ value : Value, value.toJson.Plain
  | .unit => trivial
  | .text _ => ⟨trivial, trivial⟩
  | .quantity quantity => ⟨quantity.plain, trivial⟩
  | .tablet fields => ⟨valueFieldsPlain fields, trivial⟩
  | .parallel values => ⟨valuesPlain values, trivial⟩

theorem valueFieldsPlain : ∀ fields : List (Label × Value),
    Json.PlainItems (valueFieldsToJson fields)
  | [] => trivial
  | (_, value) :: fields => ⟨⟨trivial, value.plain, trivial⟩, valueFieldsPlain fields⟩

theorem valuesPlain : ∀ values : List Value, Json.PlainItems (valuesToJson values)
  | [] => trivial
  | value :: values => ⟨value.plain, valuesPlain values⟩

end

namespace Json

/-- What is written of whole trees is read as them, be it from the value or, where all numbers are
words, from a text. Whatever is read is written in a form that stays the same from then on. -/
structure Undoes {α : Type} (encode : α → Json) (decode : Json → Option α) (whole : α → Prop) :
    Prop where
  decodes : ∀ tree, whole tree → decode (encode tree) = some tree
  reads : ∀ tree, whole tree → (encode tree).Plain →
    (Json.parse? (encode tree).compact).bind decode = some tree ∧
      (Json.parse? (encode tree).pretty).bind decode = some tree
  again : ∀ json tree, decode json = some tree →
    (decode (encode tree)).map encode = some (encode tree)

theorem Undoes.of_decodes {α : Type} {encode : α → Json} {decode : Json → Option α}
    {whole : α → Prop} (decodes : ∀ tree, whole tree → decode (encode tree) = some tree)
    (accepts : ∀ json tree, decode json = some tree → whole tree) :
    Undoes encode decode whole where
  decodes := decodes
  reads tree fits plain := by
    rw [(parse?_written plain).1, (parse?_written plain).2, Option.bind_some, decodes tree fits]
    exact ⟨rfl, rfl⟩
  again json tree read := by
    rw [decodes tree (accepts json tree read), Option.map_some]

/-- Trees of every kind are read from the JSON that is written of them. Of routines these are those
whose libraries stand in the order of their numbers, by which their members are named; no other is ever
read. A set of items is read from any list of them, and written in order with none twice, as sets are.
The text of a configuration is such a text too. -/
theorem decoding_undoes_encoding :
    (Undoes Value.toJson Value.ofJson? (fun _ => True) ∧ ∀ value : Value, value.toJson.Plain) ∧
    (Undoes Quantity.toJson Quantity.ofJson? (fun _ => True) ∧
      ∀ quantity : Quantity, quantity.toJson.Plain) ∧
    Undoes Setting.toJson Setting.ofJson? (fun _ => True) ∧
    Undoes Name.toJson Name.ofJson? (fun _ => True) ∧
    Undoes Literal.toJson Literal.ofJson? (fun _ => True) ∧
    Undoes Step.toJson Step.ofJson? (fun _ => True) ∧
    Undoes Sequence.toJson Sequence.ofJson? (fun _ => True) ∧
    (Undoes Routine.toJson Routine.ofJson? Routine.Numbered ∧
      (∀ json routine, Routine.ofJson? json = some routine → routine.Numbered) ∧
      ∀ library : Library,
        (libraryToJson library).map Prod.fst = library.map fun entry => toString entry.1) ∧
    Undoes Expression.toJson Expression.ofJson? (fun _ => True) ∧
    Undoes Procedure.toJson Procedure.ofJson? (fun _ => True) ∧
    Undoes Document.toJson Document.ofJson? (fun _ => True) ∧
    (Undoes ParseFailure.toJson ParseFailure.ofJson? (fun _ => True) ∧
      ∀ items : List Item, ∃ set : ItemSet,
        ItemSet.ofJson? (.arr (items.map Item.toJson)) = some set ∧
          set.toList.Pairwise (fun one other => one.lt other = true) ∧
          ∀ item, item ∈ set.toList ↔ item ∈ items) ∧
    (Undoes Config.toJson Config.ofJson? (fun _ => True) ∧
      ∀ config : Config, config.toJson.Plain ∧ Config.ofText? config.toText = some config) := by
  have always {α : Type} {encode : α → Json} {decode : Json → Option α}
      (decodes : ∀ tree, decode (encode tree) = some tree) :
      Undoes encode decode fun _ => True :=
    .of_decodes (fun tree _ => decodes tree) fun _ _ _ => trivial
  refine ⟨⟨always Value.ofJson?_toJson, Value.plain⟩,
    ⟨always Quantity.ofJson?_toJson, Quantity.plain⟩, always Setting.ofJson?_toJson,
    always Name.ofJson?_toJson, always Literal.ofJson?_toJson, always Step.ofJson?_toJson,
    always Sequence.ofJson?_toJson, ⟨.of_decodes Routine.ofJson?_toJson ?_, ?_, ?_⟩,
    always Expression.ofJson?_toJson, always Procedure.ofJson?_toJson,
    always Document.ofJson?_toJson, ⟨always ParseFailure.ofJson?_toJson, fun items => ?_⟩,
    always Config.ofJson?_toJson, fun config => ⟨config.plain, config.ofText?_toText⟩⟩
  · exact fun json _ => Routine.numbered_of_json json
  · exact fun json _ => Routine.numbered_of_json json
  · exact libraryToJson_names
  · refine ⟨.ofList items, ?_, (ItemSet.ofList items).sorted, fun item => ?_⟩
    · rw [ItemSet.ofJson?, list?_map fun item _ => Item.ofJson?_toJson item]
      rfl
    · exact ItemSet.mem_ofList

end Json

end Runbook
