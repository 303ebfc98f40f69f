import Runbook.Text.Utf8

/-!
The bytes of a text.

A scan goes over bytes one by one and asks of each whether to pass it. Where all bytes of a
character get the answer that the character gets, a scan that begins between two characters stops
between two characters. That is so of every question that does not tell the characters beyond ASCII
apart, since all bytes of such a character lie beyond ASCII too.
-/
namespace Runbook.Text

/-- The UTF-8 form of a text. -/
def bytes (cs : List Char) : List UInt8 := cs.flatMap String.utf8EncodeChar

theorem bytes_append (xs ys : List Char) : bytes (xs ++ ys) = bytes xs ++ bytes ys :=
  List.flatMap_append

theorem length_bytes (cs : List Char) : (bytes cs).length = byteLength cs := by
  induction cs with
  | nil => rfl
  | cons ch cs ih =>
      rw [bytes, List.flatMap_cons, List.length_append, String.length_utf8EncodeChar]
      exact congrArg (ch.utf8Size + ·) ih

/-- The index at which a scan of the bytes from `index` on stops. -/
def scan (passes : UInt8 → Bool) (bytes : List UInt8) (index : Nat) : Nat :=
  index + ((bytes.drop index).takeWhile passes).length

/-- Does `passes` treat all characters beyond ASCII alike? -/
def IsOfAscii (passes : Char → Bool) : Prop :=
  ∀ a b : Char, 128 ≤ a.toNat → 128 ≤ b.toNat → passes a = passes b

namespace IsOfAscii

variable {p q : Char → Bool}

theorem of_const (answer : Bool) (alike : ∀ ch : Char, 128 ≤ ch.toNat → p ch = answer) :
    IsOfAscii p := by
  intro a b beyond other
  rw [alike a beyond, alike b other]

theorem beq {ch : Char} (ascii : ch.toNat < 128) : IsOfAscii (· == ch) := by
  refine of_const false fun other beyond => beq_false_of_ne ?_
  rintro rfl
  exact Nat.not_lt_of_le beyond ascii

theorem not (ascii : IsOfAscii p) : IsOfAscii fun ch => !p ch :=
  fun a b beyond other => congrArg Bool.not (ascii a b beyond other)

theorem bne {ch : Char} (ascii : ch.toNat < 128) : IsOfAscii (· != ch) := (beq ascii).not

theorem or (first : IsOfAscii p) (second : IsOfAscii q) : IsOfAscii fun ch => p ch || q ch :=
  fun a b beyond other => congr (congrArg _ (first a b beyond other)) (second a b beyond other)

theorem and (first : IsOfAscii p) (second : IsOfAscii q) : IsOfAscii fun ch => p ch && q ch :=
  fun a b beyond other => congr (congrArg _ (first a b beyond other)) (second a b beyond other)

theorem between (least greatest : UInt32) (ascii : greatest.toNat < 128) :
    IsOfAscii fun ch => ch.val ≥ least && ch.val ≤ greatest := by
  refine of_const false fun ch beyond => ?_
  have after : ¬ch.val ≤ greatest := by
    rw [UInt32.le_iff_toNat_le]
    exact Nat.not_le_of_lt (Nat.lt_of_lt_of_le ascii beyond)
  rw [decide_eq_false after, Bool.and_false]

theorem isDigit : IsOfAscii Char.isDigit := between _ _ (by decide)

theorem isUpper : IsOfAscii Char.isUpper := by
  have alike := between 'A'.val 'Z'.val (by decide)
  simp only [← Bool.decide_and] at alike
  exact alike

theorem isAlpha : IsOfAscii Char.isAlpha :=
  isUpper.or (between _ _ (by decide))

end IsOfAscii

theorem toNat_ofUInt8 (byte : UInt8) : (Char.ofUInt8 byte).toNat = byte.toNat :=
  UInt8.toNat_toUInt32 byte

theorem mem_utf8EncodeChar {ch : Char} {byte : UInt8} (mem : byte ∈ String.utf8EncodeChar ch) :
    Char.ofUInt8 byte = ch ∨ 128 ≤ byte.toNat ∧ 128 ≤ ch.toNat := by
  unfold String.utf8EncodeChar at mem
  dsimp only at mem
  split at mem
  · rename_i ascii
    left
    obtain rfl := List.mem_singleton.mp mem
    apply Char.ext
    apply UInt32.toNat_inj.mp
    refine (toNat_ofUInt8 _).trans ?_
    rw [UInt8.toNat_ofNat']
    omega
  · rename_i beyond
    have other : 128 ≤ ch.toNat := Nat.lt_of_not_le beyond
    right
    refine ⟨?_, other⟩
    split at mem
    · simp only [List.mem_cons, List.not_mem_nil, or_false] at mem
      rcases mem with rfl | rfl
      all_goals
        rw [UInt8.toNat_ofNat']
        omega
    · split at mem
      all_goals
        simp only [List.mem_cons, List.not_mem_nil, or_false] at mem
        rcases mem with rfl | rfl | rfl | rfl
      all_goals
        rw [UInt8.toNat_ofNat']
        omega

/-- All bytes of a character get the answer that the character gets. -/
theorem IsOfAscii.byte {passes : Char → Bool} (ascii : IsOfAscii passes) {ch : Char} {byte : UInt8}
    (mem : byte ∈ String.utf8EncodeChar ch) : passes (Char.ofUInt8 byte) = passes ch := by
  rcases mem_utf8EncodeChar mem with rfl | ⟨beyond, other⟩
  · rfl
  · exact ascii _ _ ((toNat_ofUInt8 byte).symm ▸ beyond) other

theorem IsOfAscii.takeWhile_bytes {passes : Char → Bool} (ascii : IsOfAscii passes)
    (cs : List Char) :
    (bytes cs).takeWhile (passes ∘ Char.ofUInt8) = bytes (cs.takeWhile passes) := by
  induction cs with
  | nil => rfl
  | cons ch cs ih =>
      rw [bytes, List.flatMap_cons, ← bytes, List.takeWhile_cons]
      cases answer : passes ch with
      | true =>
          have all : ∀ byte ∈ String.utf8EncodeChar ch, (passes ∘ Char.ofUInt8) byte = true := by
            intro byte mem
            exact (ascii.byte mem).trans answer
          rw [List.takeWhile_append_of_pos all, ih]
          rfl
      | false =>
          cases encoded : String.utf8EncodeChar ch with
          | nil => exact absurd encoded String.utf8EncodeChar_ne_nil
          | cons byte others =>
              have first : passes (Char.ofUInt8 byte) = false :=
                (ascii.byte (encoded ▸ List.mem_cons_self)).trans answer
              rw [List.cons_append, List.takeWhile_cons, Function.comp_apply, first]
              rfl

/-- A scan from the end of `before` on passes what the characters after it would pass. -/
theorem IsOfAscii.scan_bytes {passes : Char → Bool} (ascii : IsOfAscii passes)
    (before rest : List Char) :
    scan (passes ∘ Char.ofUInt8) (bytes (before ++ rest)) (byteLength before) =
      byteLength before + byteLength (rest.takeWhile passes) := by
  rw [scan, bytes_append, ← length_bytes before, List.drop_left, ascii.takeWhile_bytes,
    length_bytes, length_bytes]

/-- What stands between two places of a text stands between their bytes. -/
theorem slice_bytes (before within after : List Char) :
    ((bytes (before ++ (within ++ after))).drop (byteLength before)).take (byteLength within) =
      bytes within := by
  rw [bytes_append, bytes_append, ← length_bytes before, List.drop_left, ← length_bytes within,
    List.take_left]

theorem dropBytes?_byteLength (before rest : List Char) :
    dropBytes? (byteLength before) (before ++ rest) = some rest := by
  induction before with
  | nil =>
      cases rest with
      | nil => rfl
      | cons ch rest => rfl
  | cons ch before ih =>
      have size : 0 < ch.utf8Size := ch.utf8Size_pos
      obtain ⟨n, same⟩ : ∃ n, byteLength (ch :: before) = n + 1 :=
        ⟨ch.utf8Size + byteLength before - 1, by rw [byteLength_cons]; omega⟩
      have fits : ch.utf8Size ≤ n + 1 := by
        rw [← same, byteLength_cons]
        omega
      rw [same, List.cons_append, dropBytes?, if_pos fits, ← same, byteLength_cons,
        Nat.add_sub_cancel_left, ih]

/-- A pattern is found behind a gap that does not hold its first character. -/
theorem find?_append {pattern : List Char} {first : Char} (begins : pattern.head? = some first)
    {gap : List Char} (absent : first ∉ gap) (rest : List Char) :
    find? pattern (gap ++ (pattern ++ rest)) = some (byteLength gap) := by
  obtain ⟨others, rfl⟩ := List.head?_eq_some_iff.mp begins
  induction gap with
  | nil =>
      have found : (first :: others).isPrefixOf (first :: (others ++ rest)) = true :=
        List.isPrefixOf_iff_prefix.mpr (List.prefix_append (first :: others) rest)
      rw [List.nil_append, List.cons_append, find?, if_pos found]
      rfl
  | cons ch gap ih =>
      rw [List.mem_cons, not_or] at absent
      have other : (first == ch) = false := beq_false_of_ne absent.1
      rw [List.cons_append, find?, List.isPrefixOf, other, Bool.false_and, ih absent.2]
      rfl

end Runbook.Text
