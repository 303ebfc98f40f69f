import Runbook.Proofs.Syntax.RoundTrip
import Runbook.Proofs.Syntax.Words

/-!
The tokens of a text.

A text is cut into tokens without any regard to its grammar: words, numbers, strings, the remark
behind a colon, comments, and marks of one character. White space parts them. A comment counts only
between braces. The tokens of a tree are those of its own text, so the two lists can be compared.
-/
namespace Runbook

/-- What a text is made of. -/
inductive Token where
  | word (name : Identifier)
  /-- Digits, and the letters right behind them. -/
  | number (value : Nat) (unit : String)
  | string (meant : String)
  /-- What stands between a colon and the brace or the end of the line. -/
  | signature (remark : String)
  | comment (remark : String)
  | mark (ch : Char)
  deriving DecidableEq, Repr

namespace Text

/-- What a string means, whose opening quote is passed, and what stands behind its closing quote. -/
def unquoted : List Char → List Char × List Char
  | [] => ([], [])
  | ch :: cs =>
    if ch = '"' then ([], cs)
    else if ch = '\\' then
      match cs with
      | [] => ([], [])
      | letter :: others =>
        ((escaped? letter).getD letter :: (unquoted others).1, (unquoted others).2)
    else (ch :: (unquoted cs).1, (unquoted cs).2)

/-- The token that begins with `ch`, if any, and what stands behind it; `within` braces comments
are tokens. -/
def lexeme (within : Bool) (ch : Char) (cs : List Char) : List Token × List Char :=
  if isAsciiSpace ch then ([], cs)
  else if isNameStart ch then
    ([.word (String.ofList (ch :: cs.takeWhile isNameChar))], cs.dropWhile isNameChar)
  else if ch.isDigit then
    let behind := cs.dropWhile Char.isDigit
    ([.number (Nat.ofDigitChars 10 (ch :: cs.takeWhile Char.isDigit) 0)
        (String.ofList (behind.takeWhile Char.isAlpha))],
      behind.dropWhile Char.isAlpha)
  else if ch = '"' then ([.string (String.ofList (unquoted cs).1)], (unquoted cs).2)
  else if ch = ':' then
    let remark := trim (cs.takeWhile isWithinHeader)
    (if remark.isEmpty then [] else [.signature (String.ofList remark)],
      cs.dropWhile isWithinHeader)
  else if ch = '-' ∧ cs.head? = some '-' then
    let line := cs.drop 1
    (if within then [.comment (String.ofList (trim (line.takeWhile isWithinLine)))] else [],
      line.dropWhile isWithinLine)
  else ([.mark ch], cs)

/-- How many braces are open behind `ch`. -/
def depthAfter (depth : Nat) (ch : Char) : Nat :=
  if ch = '\x7b' then depth + 1 else if ch = '\x7d' then depth - 1 else depth

theorem length_dropWhile_le (p : Char → Bool) (cs : List Char) :
    (cs.dropWhile p).length ≤ cs.length := (List.dropWhile_suffix p).length_le

theorem length_unquoted_le (cs : List Char) : (unquoted cs).2.length ≤ cs.length := by
  fun_induction unquoted cs with
  | case1 => exact Nat.le_refl _
  | case2 cs => exact Nat.le_succ _
  | case3 => exact Nat.zero_le _
  | case4 letter others _ ih =>
      simp only [List.length_cons]
      omega
  | case5 ch cs _ _ ih =>
      simp only [List.length_cons]
      omega

theorem length_lexeme_le (within : Bool) (ch : Char) (cs : List Char) :
    (lexeme within ch cs).2.length ≤ cs.length := by
  unfold lexeme
  split
  · exact Nat.le_refl _
  · split
    · exact length_dropWhile_le _ _
    · split
      · exact Nat.le_trans (length_dropWhile_le _ _) (length_dropWhile_le _ _)
      · split
        · exact length_unquoted_le cs
        · split
          · exact length_dropWhile_le _ _
          · split
            · refine Nat.le_trans (length_dropWhile_le _ _) ?_
              rw [List.length_drop]
              exact Nat.sub_le _ _
            · exact Nat.le_refl _

/-- The tokens of a text that stands between `depth` braces. -/
def tokens (depth : Nat) : List Char → List Token
  | [] => []
  | ch :: cs =>
    (lexeme (0 < depth) ch cs).1 ++ tokens (depthAfter depth ch) (lexeme (0 < depth) ch cs).2
termination_by cs => cs.length
decreasing_by exact Nat.lt_succ_of_le (length_lexeme_le _ _ _)

end Text

/-! The tokens of a tree. -/

def namesTokens : List Identifier → List Token
  | [] => []
  | first :: others => .word first :: others.flatMap fun name => [.mark ',', .word name]

def Setting.tokens : Setting → List Token
  | .inherit => [.mark '@', .mark '*']
  | .role name => [.mark '@', .word name]
  | .place name => [.mark '^', .word name]

def Quantity.token : Quantity → Token
  | .number value => .number value.toInt.toNat ""
  | .measure magnitude unit => .number magnitude.toInt.toNat unit

def bracedTokens (tokens : List Token) : List Token :=
  .mark '\x7b' :: (tokens ++ [.mark '\x7d'])

mutual

def Expression.tokens : Expression → List Token
  | .application _ name argument => .word name :: argument.tokens
  | .unit _ => [.mark '(', .mark ')']
  | .text _ text => [.string text]
  | .amount _ quantity => [quantity.token]
  | .hole _ => [.mark '?']
  | .tablet _ fields => .mark '[' :: fieldsTokens fields
  | .reference _ names => namesTokens names
  | .operation _ operator left right => left.tokens ++ .mark operator.sign :: right.tokens
  | .grouping _ inner => .mark '(' :: (inner.tokens ++ [.mark ')'])
  | .restriction _ setting block => setting.tokens ++ bracedTokens (blockTokens block)

/-- The tokens of the fields and of the closing bracket. -/
def fieldsTokens : List (Label × Expression) → List Token
  | [] => [.mark ']']
  | (label, value) :: fields =>
    .string label :: .mark '=' :: (value.tokens ++
      ((if fields.isEmpty then [] else [.mark ',']) ++ fieldsTokens fields))

def Statement.tokens : Statement → List Token
  | .assignment _ targets value => namesTokens targets ++ .mark '=' :: value.tokens
  | .execute _ value => value.tokens
  | .declaration _ procedure => procedure.tokens
  | .comment _ remark => [.comment remark]
  | .blank _ => []
  | .series _ => [.mark ';']

def blockTokens : List Statement → List Token
  | [] => []
  | statement :: block => statement.tokens ++ blockTokens block

def Procedure.tokens : Procedure → List Token
  | ⟨_, name, parameters, signature, block⟩ =>
    .word name :: (parameters.map .word ++
      (signature.toList.map .signature ++ bracedTokens (blockTokens block)))

end

theorem blockTokens_append (block others : List Statement) :
    blockTokens (block ++ others) = blockTokens block ++ blockTokens others := by
  induction block with
  | nil => rw [List.nil_append, blockTokens, List.nil_append]
  | cons statement block ih =>
      rw [List.cons_append, blockTokens, blockTokens, ih, List.append_assoc]

def Document.tokens (document : Document) : List Token :=
  document.procedures.flatMap Procedure.tokens

/-! What stands next in a text. -/

namespace Text

variable {depth : Nat} {ch : Char} {cs rest : List Char}

theorem tokens_cons : tokens depth (ch :: cs) =
    (lexeme (0 < depth) ch cs).1 ++ tokens (depthAfter depth ch) (lexeme (0 < depth) ch cs).2 := by
  rw [tokens]

theorem tokens_of_lexeme (token : List Token)
    (is : lexeme (0 < depth) ch cs = (token, rest)) (level : depthAfter depth ch = depth) :
    tokens depth (ch :: cs) = token ++ tokens depth rest := by
  rw [tokens_cons, is, level]

theorem depthAfter_of_ne (other : ch ≠ '\x7b') (another : ch ≠ '\x7d') :
    depthAfter depth ch = depth := by
  rw [depthAfter, if_neg other, if_neg another]

theorem tokens_space (space : isAsciiSpace ch = true) :
    tokens depth (ch :: cs) = tokens depth cs := by
  refine tokens_of_lexeme [] ?_ (depthAfter_of_ne ?_ ?_)
  · rw [lexeme, if_pos space]
  · rintro rfl
    cases space
  · rintro rfl
    cases space

theorem tokens_dropWhile {p : Char → Bool} (spaces : ∀ ch, p ch = true → isAsciiSpace ch = true) :
    tokens depth (cs.dropWhile p) = tokens depth cs := by
  induction cs with
  | nil => rfl
  | cons ch cs ih =>
      cases passes : p ch with
      | true => rw [List.dropWhile_cons_of_pos passes, ih, tokens_space (spaces ch passes)]
      | false => rw [List.dropWhile_cons_of_neg (by rw [passes]; exact Bool.false_ne_true)]

/-- The marks of the grammar that open and close no braces. -/
def marks : List Char := ['(', ')', '[', ']', ',', ';', '=', '?', '@', '*', '^', '|', '&', '+']

theorem tokens_mark (mark : ch ∈ marks) :
    tokens depth (ch :: cs) = .mark ch :: tokens depth cs := by
  refine tokens_of_lexeme [_] ?_ ?_
  all_goals
    simp only [marks, List.mem_cons, List.not_mem_nil, or_false] at mark
    rcases mark with rfl | rfl | rfl | rfl | rfl | rfl | rfl | rfl | rfl | rfl | rfl | rfl | rfl |
      rfl
    all_goals rfl

theorem tokens_open : tokens depth ('\x7b' :: cs) = .mark '\x7b' :: tokens (depth + 1) cs := by
  rw [tokens_cons]
  rfl

theorem tokens_close : tokens (depth + 1) ('\x7d' :: cs) = .mark '\x7d' :: tokens depth cs := by
  rw [tokens_cons]
  rfl

theorem not_isAsciiSpace_of_isNameStart (begins : isNameStart ch = true) :
    isAsciiSpace ch = false :=
  not_isAsciiSpace_of_startsTerm (startsTerm_of_isNameStart begins)

theorem tokens_word (begins : isNameStart ch = true) :
    tokens depth (ch :: cs) = .word (String.ofList ((ch :: cs).takeWhile isNameChar)) ::
      tokens depth ((ch :: cs).dropWhile isNameChar) := by
  have within := Cursor.isNameChar_of_isNameStart begins
  rw [List.takeWhile_cons_of_pos within, List.dropWhile_cons_of_pos within]
  refine tokens_of_lexeme [_] ?_ (depthAfter_of_ne ?_ ?_)
  · rw [lexeme, if_neg (Bool.eq_false_iff.mp (not_isAsciiSpace_of_isNameStart begins)),
      if_pos begins]
  · rintro rfl
    cases begins
  · rintro rfl
    cases begins

theorem tokens_number (digit : ch.isDigit = true) :
    tokens depth (ch :: cs) =
      .number (Nat.ofDigitChars 10 ((ch :: cs).takeWhile Char.isDigit) 0)
        (String.ofList (((ch :: cs).dropWhile Char.isDigit).takeWhile Char.isAlpha)) ::
      tokens depth (((ch :: cs).dropWhile Char.isDigit).dropWhile Char.isAlpha) := by
  rw [List.takeWhile_cons_of_pos digit, List.dropWhile_cons_of_pos digit]
  refine tokens_of_lexeme [_] ?_ (depthAfter_of_ne ?_ ?_)
  · rw [lexeme,
      if_neg (Bool.eq_false_iff.mp
        (not_isAsciiSpace_of_startsTerm (startsTerm_of_isDigit digit))),
      if_neg fun begins => Cursor.not_isDigit_of_isNameStart begins digit, if_pos digit]
  · rintro rfl
    cases digit
  · rintro rfl
    cases digit

theorem tokens_string : tokens depth ('"' :: cs) =
    .string (String.ofList (unquoted cs).1) :: tokens depth (unquoted cs).2 :=
  tokens_of_lexeme [_] rfl rfl

theorem tokens_remark : tokens depth (':' :: cs) =
    (if (trim (cs.takeWhile isWithinHeader)).isEmpty then []
      else [.signature (String.ofList (trim (cs.takeWhile isWithinHeader)))]) ++
    tokens depth (cs.dropWhile isWithinHeader) :=
  tokens_of_lexeme _ rfl rfl

theorem tokens_comment : tokens (depth + 1) ('-' :: '-' :: cs) =
    .comment (String.ofList (trim (cs.takeWhile isWithinLine))) ::
      tokens (depth + 1) (cs.dropWhile isWithinLine) := by
  refine tokens_of_lexeme [_] ?_ rfl
  have within : decide (0 < depth + 1) = true := decide_eq_true (Nat.zero_lt_succ depth)
  rw [within]
  rfl

/-- Between procedures comments are no tokens. -/
theorem tokens_remarkless : tokens 0 ('-' :: '-' :: cs) = tokens 0 (cs.dropWhile isWithinLine) :=
  tokens_of_lexeme [] rfl rfl

theorem tokens_triviaLength (inside : Bool) (cs : List Char) :
    tokens 0 (cs.drop (triviaLength inside cs)) =
      tokens 0 (if inside then cs.dropWhile isWithinLine else cs) := by
  fun_induction triviaLength inside cs with
  | case1 inside => cases inside <;> rfl
  | case2 ch cs ih =>
      rw [List.drop_succ_cons, ih]
      cases feed : ch != '\n' with
      | true =>
          have within : isWithinLine ch = true := feed
          rw [if_pos rfl, if_pos rfl, List.dropWhile_cons_of_pos within]
      | false =>
          obtain rfl := bne_eq_false_iff_eq.mp feed
          rw [if_neg Bool.false_ne_true, if_pos rfl, List.dropWhile_cons_of_neg (by decide),
            tokens_space rfl]
  | case3 cs ih =>
      rw [List.drop_succ_cons, List.drop_succ_cons, ih, if_pos rfl, if_neg Bool.false_ne_true,
        tokens_remarkless]
  | case4 ch cs _ space ih =>
      rw [List.drop_succ_cons, ih, if_neg Bool.false_ne_true, if_neg Bool.false_ne_true,
        tokens_space space]
  | case5 => rfl

/-! Strings. -/

theorem unquoted_plain (plain : isPlain ch = true) :
    unquoted (ch :: cs) = (ch :: (unquoted cs).1, (unquoted cs).2) := by
  rw [isPlain, Bool.and_eq_true, Bool.and_eq_true, bne_iff_ne, bne_iff_ne] at plain
  rw [unquoted.eq_def]
  dsimp only
  rw [if_neg plain.1.1, if_neg plain.1.2]

theorem unquoted_append {piece : List Char} (plain : ∀ ch ∈ piece, isPlain ch = true)
    (rest : List Char) :
    unquoted (piece ++ rest) = (piece ++ (unquoted rest).1, (unquoted rest).2) := by
  induction piece with
  | nil => rfl
  | cons ch piece ih =>
      obtain ⟨first, others⟩ := List.forall_mem_cons.mp plain
      rw [List.cons_append, unquoted_plain first, ih others]
      rfl

theorem unquoted_quote : unquoted ('"' :: cs) = ([], cs) := by
  rw [unquoted.eq_def]
  exact if_pos rfl

theorem unquoted_escaped {letter meant : Char} (means : escaped? letter = some meant) :
    unquoted ('\\' :: letter :: cs) = (meant :: (unquoted cs).1, (unquoted cs).2) := by
  rw [unquoted, if_neg (by decide), if_pos rfl, means, Option.getD_some]

end Text

/-! What the readers pass, as tokens. -/

namespace Cursor

variable {text : List Char} {c after : Cursor text} {depth : Nat}

/-- The text between the two places is made of the tokens. -/
def Makes (depth : Nat) (c : Cursor text) (made : List Token) (after : Cursor text) : Prop :=
  Text.tokens depth c.rest = made ++ Text.tokens depth after.rest

theorem Makes.trans {middle : Cursor text} {made more : List Token}
    (first : c.Makes depth made middle) (rest : middle.Makes depth more after) :
    c.Makes depth (made ++ more) after := by
  rw [Makes, first, rest, List.append_assoc]

theorem makes_skipBlanks (c : Cursor text) : c.Makes depth [] c.skipBlanks :=
  (Text.tokens_dropWhile fun _ => isAsciiSpace_of_isBlank).symm

theorem makes_skipSpace (c : Cursor text) : c.Makes depth [] c.skipSpace :=
  (Text.tokens_dropWhile fun _ => id).symm

theorem makes_skipLineFeed (c : Cursor text) : c.Makes depth [] c.skipLineFeed := by
  rw [Makes, skipLineFeed_rest]
  split
  · rename_i next
    obtain ⟨rest, here⟩ := peek?_eq_some.mp next
    rw [here]
    exact Text.tokens_space rfl
  · rfl

theorem makes_mark {ch : Char} (next : c.peek? = some ch) (mark : ch ∈ Text.marks) :
    c.Makes depth [.mark ch] c.advance := by
  obtain ⟨rest, here⟩ := peek?_eq_some.mp next
  rw [Makes, here, advance_of_rest here, Text.tokens_mark mark]
  rfl

theorem makes_feed (next : c.peek? = some '\n') : c.Makes depth [] c.advance := by
  obtain ⟨rest, here⟩ := peek?_eq_some.mp next
  rw [Makes, here, advance_of_rest here, Text.tokens_space rfl]
  rfl

theorem makes_operator {operator : Operator} (found : c.peek?.bind operator? = some operator) :
    c.Makes depth [.mark operator.sign] c.advance := by
  obtain ⟨ch, next, same⟩ := Option.bind_eq_some_iff.mp found
  rw [operator?] at same
  split at same
  · subst ch
    cases same
    exact makes_mark next (by decide)
  · split at same
    · subst ch
      cases same
      exact makes_mark next (by decide)
    · split at same
      · subst ch
        cases same
        exact makes_mark next (by decide)
      · cases same

theorem makes_name (there : c.atName = true) : c.Makes depth [.word c.name.1] c.name.2 := by
  obtain ⟨ch, rest, here, begins⟩ := atName_iff.mp there
  rw [Makes, name_rest, Cursor.name, taken, here, Text.tokens_word begins]
  rfl

theorem makes_namesWithin (bound : Nat) (c : Cursor text) :
    c.Makes depth ((c.namesWithin bound).1.map .word) (c.namesWithin bound).2 := by
  induction bound generalizing c with
  | zero => exact makes_skipBlanks c
  | succ bound ih =>
      rw [namesWithin]
      dsimp only
      split
      · rename_i there
        exact (makes_skipBlanks c).trans ((makes_name there).trans (ih _))
      · exact makes_skipBlanks c

/-- Names with a comma before each. -/
theorem makes_commaNamesWithin (bound : Nat) (c : Cursor text) :
    c.Makes depth ((c.commaNamesWithin bound).1.flatMap fun name => [.mark ',', .word name])
      (c.commaNamesWithin bound).2 := by
  induction bound generalizing c with
  | zero => exact rfl
  | succ bound ih =>
      rw [commaNamesWithin]
      split
      · exact rfl
      · rename_i next taken
        obtain ⟨comma, rfl⟩ := take?_eq_some.mp taken
        dsimp only
        split
        · rename_i there
          refine (makes_mark comma (by decide)).trans ((makes_skipBlanks c.advance).trans ?_)
          exact (makes_name there).trans ((makes_skipBlanks _).trans (ih _))
        · exact rfl

theorem makes_signature (c : Cursor text) :
    c.Makes depth (c.signature.1.toList.map .signature) c.signature.2 := by
  rw [signature]
  split
  · exact rfl
  · rename_i next taken
    obtain ⟨colon, rfl⟩ := take?_eq_some.mp taken
    obtain ⟨rest, here⟩ := peek?_eq_some.mp colon
    dsimp only
    rw [Makes, here, Text.tokens_remark, skipWhile_rest, advance_of_rest here, Cursor.taken,
      advance_of_rest here]
    split
    · rfl
    · rfl

theorem makes_amount {value : Expression} {ch : Char} (next : c.peek? = some ch)
    (digit : ch.isDigit = true) (read : c.amount = .ok (value, after)) :
    c.Makes depth value.tokens after := by
  obtain ⟨rest, here⟩ := peek?_eq_some.mp next
  rw [amount] at read
  split at read
  · rename_i small
    have magnitude : (Int64.ofNat (Nat.ofDigitChars 10 (c.taken Char.isDigit) 0)).toInt.toNat =
        Nat.ofDigitChars 10 (c.taken Char.isDigit) 0 := by
      rw [Int64.toInt_ofNat_of_lt small, Int.toNat_natCast]
    have numbered : c.Makes depth [.number (Nat.ofDigitChars 10 (c.taken Char.isDigit) 0)
        (String.ofList ((c.skipWhile Char.isDigit).taken Char.isAlpha))]
        ((c.skipWhile Char.isDigit).skipWhile Char.isAlpha) := by
      rw [Makes, here, Text.tokens_number digit, ← here]
      rfl
    dsimp only at read
    split at read
    · rename_i none
      cases read
      have letters : (c.skipWhile Char.isDigit).taken Char.isAlpha ++
          ((c.skipWhile Char.isDigit).skipWhile Char.isAlpha).rest =
            (c.skipWhile Char.isDigit).rest := List.takeWhile_append_dropWhile
      rw [none, List.nil_append] at letters
      rw [none, Makes, letters] at numbered
      rw [Expression.tokens, Quantity.token, magnitude]
      exact numbered
    · cases read
      rw [Expression.tokens, Quantity.token, magnitude]
      exact numbered
  · cases read

theorem unquoted_stringWithin {bound : Nat} {meant : List Char}
    (read : c.stringWithin bound = .ok (meant, after)) :
    Text.unquoted c.rest = (meant, after.rest) := by
  induction bound generalizing c meant with
  | zero => cases read
  | succ bound ih =>
      have pieces : c.taken isPlain ++ (c.skipWhile isPlain).rest = c.rest :=
        List.takeWhile_append_dropWhile
      rw [stringWithin] at read
      dsimp only at read
      rw [← pieces, Text.unquoted_append fun ch mem => mem_taken mem]
      split at read
      · rename_i taken
        cases read
        obtain ⟨quote, rfl⟩ := take?_eq_some.mp taken
        obtain ⟨rest, here⟩ := peek?_eq_some.mp quote
        rw [advance_of_rest here, here, Text.unquoted_quote, List.append_nil]
      · rename_i letter _ taken
        obtain ⟨slash, rfl⟩ := take?_eq_some.mp taken
        obtain ⟨rest, here⟩ := peek?_eq_some.mp slash
        split at read
        · cases read
        · rename_i found
          obtain ⟨ch, next, means⟩ := Option.bind_eq_some_iff.mp found
          obtain ⟨others, there⟩ := peek?_eq_some.mp next
          rw [Reading.bind_eq_ok] at read
          obtain ⟨⟨more, last⟩, read, same⟩ := read
          cases same
          have later := ih read
          rw [advance_of_rest there] at later
          rw [advance_of_rest here] at there
          rw [here, there, Text.unquoted_escaped means, later]
      · cases read

theorem makes_string {meant : String} (next : c.peek? = some '"')
    (read : c.string = .ok (meant, after)) : c.Makes depth [.string meant] after := by
  obtain ⟨rest, here⟩ := peek?_eq_some.mp next
  rw [string, Reading.bind_eq_ok] at read
  obtain ⟨⟨others, last⟩, read, same⟩ := read
  cases same
  have unquoted := unquoted_stringWithin read
  rw [advance_of_rest here] at unquoted
  rw [Makes, here, Text.tokens_string, unquoted]
  rfl

/-- Between braces a comment is a token. -/
theorem makes_comment (begins : c.atComment = true) :
    c.Makes (depth + 1) c.comment.1.tokens c.comment.2 := by
  rw [atComment, List.isPrefixOf_iff_prefix] at begins
  obtain ⟨rest, here⟩ := begins
  have here : c.rest = '-' :: '-' :: rest := here.symm
  have within : c.advance.advance.rest = rest := advance_of_rest (advance_of_rest here)
  have feed : (c.advance.advance.skipWhile isWithinLine).Makes (depth + 1) [] _ :=
    makes_skipLineFeed _
  rw [Makes, List.nil_append, skipWhile_rest, within] at feed
  rw [Makes, here, Text.tokens_comment, feed, comment, taken, within, Statement.tokens]
  rfl

theorem makes_statementEnd {endings : List Statement}
    (ended : c.statementEnd = .ok (endings, after)) :
    c.Makes (depth + 1) (blockTokens endings) after := by
  refine (makes_skipBlanks c).trans ?_
  rw [statementEnd] at ended
  split at ended
  · cases ended
    rw [blockTokens, blockTokens, List.append_nil]
    exact makes_comment ‹_›
  · split at ended
    · cases ended
      exact makes_feed ‹_›
    · rename_i next
      cases ended
      refine (makes_mark next (by decide)).trans ((makes_skipBlanks _).trans ?_)
      exact makes_skipLineFeed _
    · cases ended
      rfl
    · cases ended

end Cursor

/-! The text of a tree has the tokens of the tree. -/

namespace Text

variable {depth : Nat} {rest : List Char}

theorem tokens_name {name : Identifier} (isName : IsName name) (halts : Halts isNameChar rest) :
    tokens depth (name.toList ++ rest) = .word name :: tokens depth rest := by
  obtain ⟨there, same, after⟩ :=
    Cursor.name_spelled (c := .start (name.toList ++ rest)) isName rfl halts
  have made : tokens depth (name.toList ++ rest) = _ := Cursor.makes_name there
  rw [made, same, after]
  rfl

theorem tokens_quote (meant : String) :
    tokens depth (quote meant ++ rest) = .string meant :: tokens depth rest := by
  obtain ⟨after, read, same⟩ := Cursor.string_spelled (c := .start (quote meant ++ rest)) rfl
  have made : tokens depth (quote meant ++ rest) = _ := Cursor.makes_string rfl read
  rw [made, same]
  rfl

theorem tokens_quantity {quantity : Quantity} (printable : quantity.Printable)
    (halts : Halts isNameChar rest) :
    tokens depth (quantity.spelling ++ rest) = quantity.token :: tokens depth rest := by
  obtain ⟨after, read, same⟩ :=
    Cursor.amount_spelled (c := .start (quantity.spelling ++ rest)) printable rfl halts
  obtain ⟨ch, others, first, digit⟩ := quantity.spelling_digit
  have next : (Cursor.start (quantity.spelling ++ rest)).peek? = some ch := by
    rw [Cursor.peek?, Cursor.start, first]
    rfl
  have made : tokens depth (quantity.spelling ++ rest) = _ := Cursor.makes_amount next digit read
  rw [made, same, Expression.tokens]
  rfl

theorem halts_separated {names : List Identifier} (halts : Halts isNameChar rest) :
    Halts isNameChar ((names.flatMap fun name => ',' :: ' ' :: name.toList) ++ rest) := by
  cases names with
  | nil => exact halts
  | cons name names => exact .cons rfl

theorem tokens_separated {names : List Identifier} (isName : ∀ name ∈ names, IsName name)
    (halts : Halts isNameChar rest) :
    tokens depth ((names.flatMap fun name => ',' :: ' ' :: name.toList) ++ rest) =
      (names.flatMap fun name => [.mark ',', .word name]) ++ tokens depth rest := by
  induction names with
  | nil => rfl
  | cons first others ih =>
      obtain ⟨isFirst, areOthers⟩ := List.forall_mem_cons.mp isName
      rw [List.flatMap_cons, List.flatMap_cons, List.append_assoc, List.append_assoc,
        List.cons_append, List.cons_append, tokens_mark (by decide), tokens_space rfl,
        tokens_name isFirst (halts_separated halts), ih areOthers]
      rfl

theorem tokens_names {names : List Identifier} (isName : ∀ name ∈ names, IsName name)
    (halts : Halts isNameChar rest) :
    tokens depth (namesSpelling names ++ rest) = namesTokens names ++ tokens depth rest := by
  cases names with
  | nil => rfl
  | cons first others =>
      obtain ⟨isFirst, areOthers⟩ := List.forall_mem_cons.mp isName
      rw [namesSpelling, namesTokens, List.append_assoc,
        tokens_name isFirst (halts_separated halts), tokens_separated areOthers halts]
      rfl

theorem tokens_parameters {names : List Identifier} (isName : ∀ name ∈ names, IsName name)
    (halts : Halts isNameChar rest) :
    tokens depth (parametersSpelling names ++ rest) =
      names.map .word ++ tokens depth rest := by
  induction names with
  | nil => rfl
  | cons first others ih =>
      obtain ⟨isFirst, areOthers⟩ := List.forall_mem_cons.mp isName
      have more := ih areOthers
      have separate : Halts isNameChar (parametersSpelling others ++ rest) :=
        Cursor.parametersSpelling_halts halts
      rw [parametersSpelling] at more separate ⊢
      rw [List.flatMap_cons, List.append_assoc, List.cons_append, tokens_space rfl,
        tokens_name isFirst separate, more]
      rfl

theorem tokens_signature {signature : Option String} {inside : List Char}
    (isSignature : ∀ remark, signature = some remark → IsSignature remark)
    (brace : rest = '\x7b' :: inside) :
    tokens depth (signatureSpelling signature ++ ' ' :: rest) =
      signature.toList.map .signature ++ tokens depth rest := by
  subst brace
  let c := Cursor.start ((signatureSpelling signature ++ ' ' :: '\x7b' :: inside).dropWhile isBlank)
  obtain ⟨same, after⟩ := Cursor.signature_spelled (c := c) isSignature rfl
  have made : tokens depth c.rest = _ := Cursor.makes_signature c
  rw [same, after] at made
  exact (tokens_dropWhile fun _ => isAsciiSpace_of_isBlank).symm.trans made

theorem tokens_setting {setting : Setting} (printable : setting.Printable)
    (halts : Halts isNameChar rest) :
    tokens depth (setting.show.toList ++ rest) = setting.tokens ++ tokens depth rest := by
  cases setting with
  | inherit =>
      change tokens depth ('@' :: '*' :: rest) = _
      rw [tokens_mark (by decide), tokens_mark (by decide)]
      rfl
  | role name =>
      rw [Setting.show, String.toList_append, List.append_assoc]
      change tokens depth ('@' :: (name.toList ++ rest)) = _
      rw [tokens_mark (by decide), tokens_name printable halts]
      rfl
  | place name =>
      rw [Setting.show, String.toList_append, List.append_assoc]
      change tokens depth ('^' :: (name.toList ++ rest)) = _
      rw [tokens_mark (by decide), tokens_name printable halts]
      rfl

theorem tokens_remarked {remark : String} (isRemark : IsRemark remark) :
    tokens (depth + 1) ('-' :: '-' :: ' ' :: (remark.toList ++ '\n' :: rest)) =
      .comment remark :: tokens (depth + 1) rest := by
  obtain ⟨begins, same, after⟩ := Cursor.comment_spelled (c := .start _) isRemark rfl
  have made : tokens (depth + 1) ('-' :: '-' :: ' ' :: (remark.toList ++ '\n' :: rest)) = _ :=
    Cursor.makes_comment begins
  rw [made, same, after, Statement.tokens]
  rfl

theorem tokens_label (label : Label) :
    tokens depth (quote label ++ ' ' :: '=' :: ' ' :: rest) =
      .string label :: .mark '=' :: tokens depth rest := by
  rw [tokens_quote, tokens_space rfl, tokens_mark (by decide), tokens_space rfl]

theorem tokens_separator (fields : List (Label × Expression)) :
    tokens depth ((if fields.isEmpty then [] else [',', ' ']) ++ rest) =
      (if fields.isEmpty then [] else [.mark ',']) ++ tokens depth rest := by
  split
  · rfl
  · rw [List.cons_append, tokens_mark (by decide), List.cons_append, tokens_space rfl]
    rfl

theorem tokens_lineEnd (block : List Statement) :
    tokens depth (lineEnd block ++ rest) = tokens depth rest := by
  rw [lineEnd.eq_def]
  split
  · rfl
  · exact tokens_space rfl

theorem tokens_braced {lines : List Char} {made : List Token}
    (inside : ∀ rest, tokens (depth + 1) (lines ++ '\x7d' :: rest) =
      made ++ tokens (depth + 1) ('\x7d' :: rest)) :
    tokens depth (braced lines ++ rest) = bracedTokens made ++ tokens depth rest := by
  rw [braced, List.cons_append, List.cons_append, List.append_assoc, tokens_open, tokens_space rfl,
    List.singleton_append, inside, tokens_close, bracedTokens, List.cons_append, List.append_assoc]
  rfl

end Text

/-- No name goes on behind the value of a field. -/
theorem fieldsSpelling_halts (fields : List (Label × Expression)) (rest : List Char) :
    Halts isNameChar
      ((if fields.isEmpty then [] else [',', ' ']) ++ (fieldsSpelling fields ++ rest)) := by
  cases fields with
  | nil =>
      rw [fieldsSpelling]
      exact .cons rfl
  | cons field fields => exact .cons rfl

mutual

theorem Expression.tokens_spelling (depth : Nat) : ∀ {e : Expression} {rest : List Char},
    e.Printable → Halts isNameChar rest →
      Text.tokens depth (e.spelling ++ rest) = e.tokens ++ Text.tokens depth rest
  | .application _ name argument, rest, printable, halts => by
      rw [Expression.spelling, Expression.tokens, List.append_assoc, List.cons_append,
        Text.tokens_name printable.1 (.cons rfl), Text.tokens_space rfl,
        Expression.tokens_spelling depth printable.2.2.2 halts]
      rfl
  | .unit _, rest, _, _ => by
      rw [Expression.spelling, Expression.tokens, List.cons_append, List.cons_append,
        Text.tokens_mark (by decide), Text.tokens_mark (by decide)]
      rfl
  | .text _ meant, rest, _, _ => by
      rw [Expression.spelling, Expression.tokens, Text.tokens_quote]
      rfl
  | .amount _ quantity, rest, printable, halts => by
      rw [Expression.spelling, Expression.tokens, Text.tokens_quantity printable halts]
      rfl
  | .hole _, rest, _, _ => by
      rw [Expression.spelling, Expression.tokens, List.cons_append, Text.tokens_mark (by decide)]
      rfl
  | .tablet _ fields, rest, printable, _ => by
      rw [Expression.spelling, Expression.tokens, List.cons_append, Text.tokens_mark (by decide),
        fieldsTokens_spelling depth printable]
      rfl
  | .reference _ names, rest, printable, halts => by
      rw [Expression.spelling, Expression.tokens, Text.tokens_names printable.2.2 halts]
  | .operation _ operator left right, rest, printable, halts => by
      have sign : operator.sign ∈ Text.marks := by cases operator <;> decide
      rw [Expression.spelling, Expression.tokens, List.append_assoc, List.cons_append,
        List.cons_append, List.cons_append,
        Expression.tokens_spelling depth printable.1 (.cons rfl), Text.tokens_space rfl,
        Text.tokens_mark sign, Text.tokens_space rfl,
        Expression.tokens_spelling depth printable.2.2 halts, List.append_assoc]
      rfl
  | .grouping _ inner, rest, printable, _ => by
      rw [Expression.spelling, Expression.tokens, List.cons_append, Text.tokens_mark (by decide),
        List.append_assoc, List.singleton_append,
        Expression.tokens_spelling depth (e := inner) printable (.cons rfl),
        Text.tokens_mark (by decide), List.cons_append, List.append_assoc]
      rfl
  | .restriction _ setting block, rest, printable, _ => by
      rw [Expression.spelling, Expression.tokens, List.append_assoc, List.cons_append,
        Text.tokens_setting printable.1 (.cons rfl), Text.tokens_space rfl,
        Text.tokens_braced fun _ => blockTokens_spelling depth printable.2, List.append_assoc]

theorem fieldsTokens_spelling (depth : Nat) : ∀ {fields : List (Label × Expression)}
    {rest : List Char}, FieldsPrintable fields →
      Text.tokens depth (fieldsSpelling fields ++ rest) =
        fieldsTokens fields ++ Text.tokens depth rest
  | [], rest, _ => by
      rw [fieldsSpelling, fieldsTokens, List.singleton_append, Text.tokens_mark (by decide)]
      rfl
  | (label, value) :: fields, rest, printable => by
      rw [fieldsSpelling, fieldsTokens, List.append_assoc, List.cons_append, List.cons_append,
        List.cons_append, List.append_assoc, List.append_assoc, Text.tokens_label,
        Expression.tokens_spelling depth printable.1 (fieldsSpelling_halts fields rest),
        Text.tokens_separator, fieldsTokens_spelling depth printable.2]
      simp only [List.cons_append, List.append_assoc]

theorem Statement.tokens_spelling (depth : Nat) : ∀ {stepped : Bool} {statement : Statement}
    {rest : List Char}, statement.Printable stepped → EndsStatement rest →
      (statement.isComment = true → ∃ others, rest = '\n' :: others) →
      Text.tokens (depth + 1) (statement.spelling ++ rest) =
        statement.tokens ++ Text.tokens (depth + 1) rest
  | _, .assignment _ targets value, rest, printable, ends, _ => by
      rw [Statement.spelling, Statement.tokens, List.append_assoc, List.cons_append,
        List.cons_append, List.cons_append, Text.tokens_names printable.2.1 (.cons rfl),
        Text.tokens_space rfl, Text.tokens_mark (by decide),
        Text.tokens_space rfl,
        Expression.tokens_spelling _ printable.2.2 ends.endsOperand.1, List.append_assoc]
      rfl
  | _, .execute _ value, rest, printable, ends, _ => by
      rw [Statement.spelling, Statement.tokens,
        Expression.tokens_spelling _ printable ends.endsOperand.1]
  | _, .declaration _ procedure, rest, printable, _, _ => by
      rw [Statement.spelling, Statement.tokens, Procedure.tokens_spelling _ printable]
  | _, .comment _ remark, rest, printable, _, line => by
      obtain ⟨others, rfl⟩ := line rfl
      rw [Statement.spelling, Statement.tokens, List.cons_append, List.cons_append,
        List.cons_append, Text.tokens_remarked printable, Text.tokens_space rfl]
      rfl
  | _, .blank _, rest, _, _, _ => by
      rw [Statement.spelling, Statement.tokens]
      rfl
  | _, .series _, rest, _, _, _ => by
      rw [Statement.spelling, Statement.tokens, List.cons_append, Text.tokens_space rfl,
        List.cons_append, Text.tokens_mark (by decide)]
      rfl

theorem blockTokens_spelling (depth : Nat) : ∀ {stepped : Bool} {block : Block} {rest : List Char},
    BlockPrintable stepped block →
      Text.tokens (depth + 1) (blockSpelling block ++ rest) =
        blockTokens block ++ Text.tokens (depth + 1) rest
  | _, [], rest, _ => by
      rw [blockSpelling, blockTokens]
      rfl
  | _, statement :: block, rest, printable => by
      have line : statement.isComment = true →
          ∃ others, lineEnd block ++ (blockSpelling block ++ rest) = '\n' :: others := by
        intro comment
        cases statement with
        | comment => exact ⟨_, by rw [lineEnd_of_printable printable.2]; rfl⟩
        | _ => cases comment
      rw [blockSpelling, blockTokens, List.append_assoc, List.append_assoc,
        Statement.tokens_spelling depth printable.1 (endsStatement_lineEnd block rest) line,
        Text.tokens_lineEnd, blockTokens_spelling depth printable.2, List.append_assoc]

theorem Procedure.tokens_spelling (depth : Nat) : ∀ {procedure : Procedure} {rest : List Char},
    procedure.Printable → Text.tokens depth (procedure.spelling ++ rest) =
      procedure.tokens ++ Text.tokens depth rest
  | ⟨offset, name, parameters, signature, block⟩, rest, printable => by
      obtain ⟨isName, areNames, isSignature, printable⟩ := printable
      obtain ⟨ends, _⟩ := headEnd_halts signature block rest
      have brace : braced (blockSpelling block) ++ rest = '\x7b' :: _ := rfl
      rw [Procedure.spelling_append, Procedure.tokens,
        Text.tokens_name isName (Cursor.parametersSpelling_halts ends),
        Text.tokens_parameters areNames ends, headEnd, Text.tokens_signature isSignature brace,
        Text.tokens_braced fun _ => blockTokens_spelling depth printable]
      simp only [List.cons_append, List.append_assoc]

end

/-- The text of a printable document has the tokens of the document. -/
theorem Document.tokens_spell {document : Document} (printable : document.Printable) :
    Text.tokens 0 document.spell.toList = document.tokens := by
  obtain ⟨procedures⟩ := document
  obtain ⟨-, printable⟩ := printable
  rw [spell, String.toList_ofList, tokens]
  dsimp only at printable ⊢
  induction procedures with
  | nil => rw [proceduresSpelling, List.flatMap_nil, List.flatMap_nil, Text.tokens]
  | cons first others ih =>
      obtain ⟨isFirst, areOthers⟩ := List.forall_mem_cons.mp printable
      have more := ih areOthers
      rw [proceduresSpelling] at more ⊢
      rw [List.flatMap_cons, List.flatMap_cons, List.append_assoc,
        Procedure.tokens_spelling 0 isFirst, List.singleton_append, Text.tokens_space rfl, more]

end Runbook
