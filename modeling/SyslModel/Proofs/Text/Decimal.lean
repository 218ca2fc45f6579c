import Mathlib.Data.Nat.Digits.Defs
import Mathlib.Tactic.Ring
import SyslModel.Text
/-!
# Digits and the integers they denote

A digit counts by its place: `Decimal.denoted` adds up the digits times the powers of ten, whatever
the length of the text and however many zeros lead it.

Reading goes the other way, from the left, and never leaves the signed integers of 64 bits.
`read64?_eq` says that it yields what the text denotes whenever that is one of them.  The numbers on
the way only grow away from zero, so a step that leads out of the 64 bits leads out for good.
-/

namespace SyslModel.Decimal

/-! ## Places -/

/-- The number that a digit stands for. -/
def digit (c : Char) : Nat := c.toNat - '0'.toNat

/-- The sum of the digits, each times the power of ten of its place. -/
def placeValue (digits : List Char) : Nat := Nat.ofDigits 10 (digits.reverse.map digit)

/-- The integer that a text of an optional minus sign and digits denotes. -/
def denoted : List Char → Int
  | '-' :: digits => -(placeValue digits : Int)
  | digits => placeValue digits

theorem placeValue_cons (c : Char) (digits : List Char) :
    placeValue (c :: digits) = placeValue digits + 10 ^ digits.length * digit c := by
  simp [placeValue, Nat.ofDigits_append]

/-- Going over the digits from the left adds up their places. -/
theorem ofDigitChars_eq (digits : List Char) (n : Nat) :
    Nat.ofDigitChars 10 digits n = 10 ^ digits.length * n + placeValue digits := by
  induction digits generalizing n with
  | nil => simp [placeValue]
  | cons c digits ih =>
    rw [Nat.ofDigitChars_cons, ih, placeValue_cons, List.length_cons, digit]
    ring

/-- A text that denotes an integer denotes the sum of its places. -/
theorem natural?_eq {digits : List Char} (hne : digits ≠ [])
    (hall : ∀ c ∈ digits, c.isDigit = true) : natural? digits = some (placeValue digits) := by
  rw [natural?, if_pos ⟨hne, List.all_eq_true.2 hall⟩, ofDigitChars_eq]
  simp

/-! ## Staying within 64 bits -/

theorem isSigned64_iff {n : Int} : isSigned64 n = true ↔ -2 ^ 63 ≤ n ∧ n < 2 ^ 63 := by
  simp [isSigned64]

/-- What is nearer to zero fits as well. -/
theorem isSigned64_of_le {sign : Int} {m n : Nat} (hsign : sign = 1 ∨ sign = -1) (h : m ≤ n)
    (hn : isSigned64 (sign * n) = true) : isSigned64 (sign * m) = true := by
  rw [isSigned64_iff] at hn ⊢
  rcases hsign with rfl | rfl <;> omega

/-- More digits lead further away from zero. -/
theorem le_ofDigitChars (digits : List Char) (n : Nat) : n ≤ Nat.ofDigitChars 10 digits n := by
  rw [ofDigitChars_eq]
  have hpos : 1 ≤ 10 ^ digits.length := Nat.one_le_pow _ _ (by decide)
  have hle : 1 * n ≤ 10 ^ digits.length * n := Nat.mul_le_mul_right n hpos
  omega

/-- One digit is appended if the number behind it fits. -/
theorem appendDigit?_eq {sign : Int} (hsign : sign = 1 ∨ sign = -1) (n : Nat) {c : Char}
    (hc : c.isDigit = true) :
    appendDigit? sign (sign * n) c = within64? (sign * (10 * n + digit c : Nat)) := by
  have hnext : sign * n * 10 + sign * digit c = sign * (10 * n + digit c : Nat) := by
    push_cast
    ring
  have hshifted : sign * n * 10 = sign * (10 * n : Nat) := by
    push_cast
    ring
  rw [appendDigit?, if_pos hc, ← hnext, within64?]
  split
  · rfl
  · next hout =>
    -- Room for the digit alone leads out, so the digit does not bring the number back.
    have hfar : ¬ isSigned64 (sign * (10 * n + digit c : Nat)) = true := by
      intro hin
      rw [hshifted] at hout
      exact hout (isSigned64_of_le hsign (Nat.le_add_right _ _) hin)
    rw [within64?, hnext, if_neg hfar]
    rfl

/-- Reading on behind a number that fits gives the number of all digits, if that fits. -/
theorem foldlM_appendDigit? {sign : Int} (hsign : sign = 1 ∨ sign = -1) (digits : List Char)
    {n : Nat} (hn : isSigned64 (sign * n) = true) :
    digits.foldlM (appendDigit? sign) (sign * n) =
      if digits.all Char.isDigit then within64? (sign * Nat.ofDigitChars 10 digits n)
      else none := by
  induction digits generalizing n with
  | nil => simp [within64?, hn]
  | cons c digits ih =>
    rw [List.foldlM_cons, List.all_cons, Nat.ofDigitChars_cons]
    by_cases hc : c.isDigit = true
    · rw [appendDigit?_eq hsign n hc, hc, Bool.true_and]
      by_cases hnext : isSigned64 (sign * (10 * n + digit c : Nat)) = true
      · rw [within64?, if_pos hnext]
        exact ih hnext
      · have hfar : ¬ isSigned64
            (sign * Nat.ofDigitChars 10 digits (10 * n + digit c)) = true :=
          fun hin => hnext (isSigned64_of_le hsign (le_ofDigitChars digits _) hin)
        have hnone : within64? (sign * Nat.ofDigitChars 10 digits (10 * n + digit c)) = none :=
          if_neg hfar
        rw [within64?, if_neg hnext]
        exact (ite_eq_right_iff.2 fun _ => hnone).symm
    · simp [appendDigit?, hc]

theorem filter_isSigned64 (n : Int) : (some n).filter isSigned64 = within64? n := by
  rw [Option.filter_some]
  rfl

/-- Digits read from zero give the number they denote, if it fits. -/
theorem foldlM_appendDigit?_zero {sign : Int} (hsign : sign = 1 ∨ sign = -1) {digits : List Char}
    (hne : digits ≠ []) :
    digits.foldlM (appendDigit? sign) 0 =
      ((natural? digits).map fun n : Nat => sign * (n : Int)).filter isSigned64 := by
  have hzero : isSigned64 (sign * (0 : Nat)) = true := by simp [isSigned64]
  have hfold := foldlM_appendDigit? hsign digits hzero
  rw [Nat.cast_zero, mul_zero] at hfold
  rw [hfold, natural?]
  by_cases hall : digits.all Char.isDigit = true
  · rw [if_pos hall, if_pos ⟨hne, hall⟩, Option.map_some, filter_isSigned64]
  · rw [if_neg hall, if_neg fun h => hall h.2]
    rfl

theorem value?_minus (digits : List Char) :
    value? ('-' :: digits) = (natural? digits).map fun n : Nat => -(n : Int) := by
  rw [value?]
  cases natural? digits <;> rfl

theorem value?_of_no_sign {c : Char} (hminus : c ≠ '-') (hplus : c ≠ '+') (digits : List Char) :
    value? (c :: digits) = (natural? (c :: digits)).map fun n : Nat => (n : Int) := by
  unfold value?
  split
  · next heq => exact absurd (List.cons.inj heq).1 hminus
  · next heq => exact absurd (List.cons.inj heq).1 hplus
  · rfl

/-- A digit is no sign. -/
theorem value?_of_isDigit {c : Char} (hc : c.isDigit = true) (digits : List Char) :
    value? (c :: digits) = (natural? (c :: digits)).map fun n : Nat => (n : Int) := by
  refine value?_of_no_sign ?_ ?_ digits
  · rintro rfl
    exact absurd hc (by decide)
  · rintro rfl
    exact absurd hc (by decide)

/-- Reading digit by digit finds the number that the text denotes, if it fits into 64 bits, and
fails otherwise. -/
theorem read64?_eq (literal : List Char) : read64? literal = signed64? literal := by
  have hup {digits : List Char} (hne : digits ≠ []) : digits.foldlM (appendDigit? 1) 0 =
      ((natural? digits).map fun n : Nat => (n : Int)).filter isSigned64 := by
    simpa using foldlM_appendDigit?_zero (.inl rfl : (1 : Int) = 1 ∨ (1 : Int) = -1) hne
  have hdown {digits : List Char} (hne : digits ≠ []) : digits.foldlM (appendDigit? (-1)) 0 =
      ((natural? digits).map fun n : Nat => -(n : Int)).filter isSigned64 := by
    simpa using foldlM_appendDigit?_zero (.inr rfl : (-1 : Int) = 1 ∨ (-1 : Int) = -1) hne
  unfold read64?
  split
  · rfl
  · rfl
  · rfl
  · next hsign =>
    exact (hdown fun hnil => hsign (by rw [hnil])).trans (by rw [signed64?, value?_minus])
  · next hsign => exact hup fun hnil => hsign (by rw [hnil])
  · next hnil _ _ hminus hplus =>
    obtain ⟨c, digits, rfl⟩ := List.exists_cons_of_ne_nil hnil
    have hvalue := value?_of_no_sign (fun hc : c = '-' => hminus digits (by rw [hc]))
      (fun hc : c = '+' => hplus digits (by rw [hc])) digits
    rw [hup (List.cons_ne_nil c digits), signed64?, hvalue]

/-- The two limits are not alike, and neither zeros in front nor a plus count. -/
example : read64? "-9223372036854775808".toList = some (-2 ^ 63) ∧
    read64? "9223372036854775808".toList = none ∧ read64? "+7".toList = some 7 ∧
    read64? "000000000000000000000000000012".toList = some 12 ∧ read64? "-0".toList = some 0 := by
  decide

end SyslModel.Decimal
