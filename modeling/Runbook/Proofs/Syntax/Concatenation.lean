import Runbook.Proofs.Syntax.Mends

/-!
Two texts of procedures, one after the other.

No procedure depends on what follows it in its text: the reader of a procedure ends with the brace
of its block, and white space and comments behind the last one end with the text or, at the latest,
with a line feed. So with a line feed between them two texts are read as one, and what the second
spells is spelled as many bytes further on.
-/
namespace Runbook

open Cursor

/-! Nothing is moved by no bytes. -/

mutual

theorem Expression.moved_zero : ∀ value : Expression, value.moved 0 = value
  | .application _ _ argument => by rw [Expression.moved, argument.moved_zero]; rfl
  | .unit _ => rfl
  | .text _ _ => rfl
  | .amount _ _ => rfl
  | .hole _ => rfl
  | .tablet _ fields => by rw [Expression.moved, movedFields_zero fields]; rfl
  | .reference _ _ => rfl
  | .operation _ _ left right => by rw [Expression.moved, left.moved_zero, right.moved_zero]; rfl
  | .grouping _ inner => by rw [Expression.moved, inner.moved_zero]; rfl
  | .restriction _ _ block => by rw [Expression.moved, movedBlock_zero block]; rfl

theorem movedFields_zero : ∀ fields : List (Label × Expression), movedFields 0 fields = fields
  | [] => rfl
  | (_, value) :: fields => by rw [movedFields, value.moved_zero, movedFields_zero fields]

theorem Statement.moved_zero : ∀ statement : Statement, statement.moved 0 = statement
  | .assignment _ _ value => by rw [Statement.moved, value.moved_zero]; rfl
  | .execute _ value => by rw [Statement.moved, value.moved_zero]; rfl
  | .declaration _ procedure => by rw [Statement.moved, procedure.moved_zero]; rfl
  | .comment _ _ => rfl
  | .blank _ => rfl
  | .series _ => rfl

theorem movedBlock_zero : ∀ block : List Statement, movedBlock 0 block = block
  | [] => rfl
  | statement :: block => by rw [movedBlock, statement.moved_zero, movedBlock_zero block]

theorem Procedure.moved_zero : ∀ procedure : Procedure, procedure.moved 0 = procedure
  | ⟨_, _, _, _, block⟩ => by rw [Procedure.moved, movedBlock_zero block]; rfl

end

theorem Procedure.map_moved_zero (procedures : List Procedure) :
    procedures.map (Procedure.moved 0) = procedures := by
  rw [funext Procedure.moved_zero]
  exact List.map_id' procedures

section
variable {text other : List Char} {shift : Nat} {new : List Char} {c : Cursor text}
  {d e : Cursor other} {procedures others : List Procedure}

/-- The same procedures stand in a text that goes on behind them, and behind these those that stand
where the first text ends. -/
theorem Declares.followed (declares : Declares c procedures) (blank : Halts Text.isBlank new)
    (twins : c.Twins shift [] new d)
    (behind : ∀ (c : Cursor text) (d : Cursor other), c.Twins shift [] new d →
      c.skipTrivia.rest = [] → Declares d others) :
    Declares d (procedures.map (Procedure.moved shift) ++ others) := by
  induction declares generalizing d with
  | nil ended => exact behind _ _ twins ended
  | @cons c first after _ reads _ ih =>
      have onward := reads.left_le
      have there : c.skipTrivia.rest ≠ [] :=
        List.ne_nil_of_length_pos (Nat.lt_of_lt_of_le (Nat.zero_lt_succ _) onward)
      obtain ⟨begun, twins'⟩ := twins.reach (m := c.skipTrivia) (left_skipTrivia_le c) (Nat.zero_le _)
      obtain ⟨last, twins''⟩ := twins'.reach (m := after) (by omega) (Nat.zero_le _)
      have again : Reads begun (.declaration (first.moved shift)) last :=
        reads.again blank twins' twins'' trivial
      rw [← twins.skipTrivia twins' there again.begins] at again
      exact .cons again (ih twins'')

/-- A text that stands at the end of another spells the same there as alone. -/
theorem Declares.appended (declares : Declares (start text) procedures) (here : d.rest = text) :
    Declares d (procedures.map (Procedure.moved d.offset)) := by
  have twins : (start text).Twins d.offset [] [] d :=
    ⟨(Nat.zero_add _).symm, text, (List.append_nil _).symm, here.trans (List.append_nil _).symm⟩
  have blank : Halts Text.isBlank [] := fun _ first => by cases first
  have behind (c : Cursor text) (e : Cursor other) (twins : c.Twins d.offset [] [] e)
      (ended : c.skipTrivia.rest = []) : Declares e [] := by
    obtain ⟨_, between, there, there'⟩ := twins
    refine .nil ?_
    rwa [skipTrivia_rest, there', ← there, ← skipTrivia_rest]
  have declares' := declares.followed blank twins behind
  rwa [List.append_nil] at declares'

/-- A place is known by what is read from there on behind white space and comments. -/
theorem Declares.congr (declares : Declares e procedures) (same : d.skipTrivia = e.skipTrivia) :
    Declares d procedures := by
  cases declares with
  | nil ended => exact .nil (same ▸ ended)
  | cons reads rest => exact .cons (same ▸ reads) rest

/-- Behind the line feed that ends white space and comments what is read is read anew. -/
theorem Cursor.skipTrivia_feed {rest : List Char} (ended : c.skipTrivia.rest = [])
    (here : d.rest = c.rest ++ '\n' :: rest) (there : e.rest = rest) :
    d.skipTrivia = e.skipTrivia := by
  have whole := triviaLength_feed rest (List.drop_eq_nil_iff.mp ended)
  have behind : d.rest.drop (c.rest.length + 1) = rest := by
    rw [here, List.append_cons]
    exact List.drop_left' List.length_append
  refine ext ?_
  rw [skipTrivia_rest, skipTrivia_rest, there, ← behind, List.drop_drop, behind, here, whole]

end

/-- Two texts with a line feed between them spell the procedures of the first, then those of the
second as many bytes further on as stand before it. -/
theorem Document.parse_concatenation {first second : String} {one other : Document}
    (parsed : Document.parse first = .ok one) (parsed' : Document.parse second = .ok other) :
    Document.parse (first ++ "\n" ++ second) = .ok ⟨one.procedures ++
      other.procedures.map (Procedure.moved (Text.byteLength first.toList + 1))⟩ := by
  obtain ⟨some, declares⟩ := parse_iff_declares.mp parsed
  obtain ⟨_, declares'⟩ := parse_iff_declares.mp parsed'
  refine parse_iff_declares.mpr ⟨List.append_ne_nil_of_left_ne_nil some _, ?_⟩
  have whole : (first ++ "\n" ++ second).toList = first.toList ++ '\n' :: second.toList := by
    rw [String.toList_append, String.toList_append, List.append_assoc]
    rfl
  rw [whole]
  obtain ⟨begun, there, offset⟩ : ∃ begun : Cursor (first.toList ++ '\n' :: second.toList),
      begun.rest = second.toList ∧ begun.offset = Text.byteLength first.toList + 1 := by
    refine ⟨⟨_, second.toList, first.toList ++ ['\n'], (List.append_cons _ _ _).symm, rfl⟩, rfl, ?_⟩
    exact Text.byteLength_append _ _
  have tail := offset ▸ declares'.appended there
  have twins : (start first.toList).Twins 0 [] ('\n' :: second.toList)
      (start (first.toList ++ '\n' :: second.toList)) :=
    ⟨rfl, first.toList, (List.append_nil _).symm, rfl⟩
  have behind (c : Cursor first.toList) (d : Cursor (first.toList ++ '\n' :: second.toList))
      (twins : c.Twins 0 [] ('\n' :: second.toList) d) (ended : c.skipTrivia.rest = []) :
      Declares d (other.procedures.map (Procedure.moved (Text.byteLength first.toList + 1))) := by
    obtain ⟨_, between, here, here'⟩ := twins
    rw [List.append_nil] at here
    exact tail.congr (skipTrivia_feed ended (here ▸ here') there)
  have head := declares.followed (.cons rfl) twins behind
  rwa [Procedure.map_moved_zero] at head

/-- A procedure with a comment behind it that no line feed ends. -/
def Document.steeped : String := "tea \x7b x = leaf \x7d -- é"

/-- A procedure with a comment before it. -/
def Document.boiled : String := "-- hot\nwater \x7b @*\x7b?\x7d\x7d\n"

theorem Document.parse_concatenation_comments :
    Document.parse steeped =
        .ok ⟨[⟨0, "tea", [], none, [.assignment 6 ["x"] (.reference 10 ["leaf"])]⟩]⟩ ∧
      Document.parse boiled = .ok ⟨[⟨7, "water", [], none,
        [.execute 15 (.restriction 15 .inherit [.execute 18 (.hole 18)])]⟩]⟩ ∧
      Document.parse (steeped ++ "\n" ++ boiled) = .ok ⟨[
        ⟨0, "tea", [], none, [.assignment 6 ["x"] (.reference 10 ["leaf"])]⟩,
        ⟨30, "water", [], none,
          [.execute 38 (.restriction 38 .inherit [.execute 41 (.hole 41)])]⟩]⟩ := by
  have parsed : Document.parse steeped =
      .ok ⟨[⟨0, "tea", [], none, [.assignment 6 ["x"] (.reference 10 ["leaf"])]⟩]⟩ := rfl
  have parsed' : Document.parse boiled = .ok ⟨[⟨7, "water", [], none,
      [.execute 15 (.restriction 15 .inherit [.execute 18 (.hole 18)])]⟩]⟩ := rfl
  exact ⟨parsed, parsed', Document.parse_concatenation parsed parsed'⟩

end Runbook
