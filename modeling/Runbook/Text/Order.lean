/-!
The order of texts, character by character; a text comes before those that it begins.
-/
namespace Runbook.Text

/-- Does the first text come before the second? -/
def precedes : List Char → List Char → Bool
  | [], [] => false
  | [], _ :: _ => true
  | _ :: _, [] => false
  | c :: cs, d :: ds => if c = d then precedes cs ds else c.toNat < d.toNat

theorem precedes_irrefl (cs : List Char) : precedes cs cs = false := by
  induction cs with
  | nil => rfl
  | cons c cs ih => simp [precedes, ih]

theorem precedes_trans {as bs cs : List Char} (hab : precedes as bs = true)
    (hbc : precedes bs cs = true) : precedes as cs = true := by
  induction as generalizing bs cs with
  | nil =>
    cases bs with
    | nil => exact hbc
    | cons b bs => cases cs with
      | nil => simp [precedes] at hbc
      | cons c cs => rfl
  | cons a as ih =>
    cases bs with
    | nil => simp [precedes] at hab
    | cons b bs =>
      cases cs with
      | nil => simp [precedes] at hbc
      | cons c cs =>
        unfold precedes at hab hbc ⊢
        split at hab
        · next h =>
          subst h
          split at hbc
          · next h => subst h; simpa using ih hab hbc
          · next h => simpa [h] using hbc
        · next hne =>
          split at hbc
          · next h => subst h; simpa [hne] using hab
          · next h =>
            simp only [decide_eq_true_eq] at hab hbc
            have : a ≠ c := by rintro rfl; omega
            simp only [this, if_false, decide_eq_true_eq]
            omega

theorem precedes_total {as bs : List Char} (hne : as ≠ bs) (h : precedes as bs = false) :
    precedes bs as = true := by
  induction as generalizing bs with
  | nil => cases bs with
    | nil => exact absurd rfl hne
    | cons b bs => simp [precedes] at h
  | cons a as ih =>
    cases bs with
    | nil => rfl
    | cons b bs =>
      unfold precedes at h ⊢
      by_cases hab : a = b
      · subst hab
        simp only [if_true] at h ⊢
        exact ih (by rintro rfl; exact hne rfl) h
      · simp only [hab, Ne.symm hab, if_false, decide_eq_false_iff_not, decide_eq_true_eq] at h ⊢
        have : a.toNat ≠ b.toNat := fun heq => hab (Char.toNat_inj.mp heq)
        omega

end Runbook.Text
