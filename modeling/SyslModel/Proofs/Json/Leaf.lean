import SyslModel.Json
import SyslModel.Proofs.RoundTrip.Lexemes
/-!
# Strings and numbers in JSON

The two kinds of JSON values whose written form takes some thought to read.  Every character of a
string is read back from the way it was escaped (`readUnits_escapeChar`), so a string is read back
whole (`readText_writeText`); and an integer is read back from its digits, provided that what stands
behind it does not go on with the number (`readNumber_text`).
-/

namespace SyslModel.Json

/-! ## Strings -/

/-- The escape of a control character denotes it. -/
theorem hexCode?_control {code : Nat} (h : code < 32) :
    hexCode? '0' '0' (hexDigits.getD (code / 16) '0') (hexDigits.getD (code % 16) '0')
      = some code := by
  revert code
  decide

/-- Reading takes back the escape of one character. -/
theorem readUnits_escapeChar (c : Char) (rest : List Char) :
    readUnits (escapeChar c ++ rest) =
      (readUnits rest).map fun r => (TextUnit.char c :: r.1, r.2) := by
  have hletter (letter denoted : Char) (hu : letter ≠ 'u')
      (h : escapes.lookup letter = some denoted) : readUnits ('\\' :: letter :: rest) =
        (readUnits rest).map fun r => (TextUnit.char denoted :: r.1, r.2) := by
    rw [readUnits]
    · rw [h]
      cases readUnits rest <;> rfl
    · intro _ _ _ _ _ heq _
      exact hu heq
  unfold escapeChar
  split
  · exact hletter '"' '"' (by decide) rfl
  · exact hletter '\\' '\\' (by decide) rfl
  · exact hletter 'b' '\x08' (by decide) rfl
  · exact hletter 'f' '\x0c' (by decide) rfl
  · exact hletter 'n' '\n' (by decide) rfl
  · exact hletter 'r' '\r' (by decide) rfl
  · exact hletter 't' '\t' (by decide) rfl
  · next hquote hbackslash _ _ _ _ _ =>
    split
    · next hcontrol =>
      have hcode : TextUnit.ofCode c.toNat = .char c := by
        rw [TextUnit.ofCode, if_neg (by omega), if_neg (by omega), Char.ofNat_toNat]
      simp only [List.cons_append, List.nil_append]
      rw [readUnits, hexCode?_control hcontrol]
      cases readUnits rest with
      | none => rfl
      | some r => simp [hcode]
    · next hcontrol =>
      rw [List.singleton_append, readUnits, if_neg (by simpa [hcontrol] using hbackslash)]
      · simpa using hquote
      · intro _ _ _ _ _ heq _
        exact hbackslash heq
      · intro _ _ heq _
        exact hbackslash heq

theorem readUnits_escaped (text rest : List Char) :
    readUnits (text.flatMap escapeChar ++ '"' :: rest) = some (text.map .char, rest) := by
  induction text with
  | nil => rfl
  | cons c text ih =>
    rw [List.flatMap_cons, List.append_assoc, readUnits_escapeChar, ih]
    rfl

theorem joinUnits_char (text : List Char) : joinUnits (text.map .char) = some text := by
  induction text with
  | nil => rfl
  | cons c text ih =>
    rw [List.map_cons, joinUnits, ih]
    rfl

/-- A written string begins with a quote, and what stands behind it is read as the string. -/
theorem readText_writeText (text : Text) : ∃ tail, (writeText text).toList = '"' :: tail ∧
    ∀ rest, readText (tail ++ rest) = some (text, rest) := by
  cases text with
  | none =>
    refine ⟨"\\ud800\"".toList, rfl, fun rest => ?_⟩
    have hunits : readUnits ("\\ud800\"".toList ++ rest) = some ([.high 0xD800], rest) := rfl
    rw [readText, hunits]
    rfl
  | some content =>
    refine ⟨content.toList.flatMap escapeChar ++ ['"'], by simp [writeText], fun rest => ?_⟩
    rw [List.append_assoc, List.singleton_append, readText, readUnits_escaped]
    simp [joinUnits_char]

/-! ## Numbers -/

/-- What may stand behind a number: nothing that it could go on with. -/
def EndsNumber (rest : List Char) : Prop :=
  ∀ c ∈ rest.head?, c.isDigit = false ∧ c ≠ '.' ∧ c ≠ 'e' ∧ c ≠ 'E'

theorem readFraction_of_ends {rest : List Char} (h : EndsNumber rest) :
    readFraction rest = some (false, rest) := by
  unfold readFraction
  split
  · exact absurd rfl (h '.' rfl).2.1
  · rfl

theorem readExponent_of_ends {rest : List Char} (h : EndsNumber rest) :
    readExponent rest = some (false, rest) := by
  cases rest with
  | nil => rfl
  | cons c rest =>
    obtain ⟨-, -, he, hE⟩ := h c rfl
    unfold readExponent
    exact if_neg (by simp [he, hE])

/-- Digits are read up to where the number ends. -/
theorem readDigits_append {digits rest : List Char} (hne : digits ≠ [])
    (hdigits : ∀ c ∈ digits, c.isDigit = true) (h : EndsNumber rest) :
    readDigits (digits ++ rest) = some (digits, rest) := by
  have hhead : rest.takeWhile Char.isDigit = [] ∧ rest.dropWhile Char.isDigit = rest := by
    cases rest with
    | nil => exact ⟨rfl, rfl⟩
    | cons c rest =>
      have hc := (h c rfl).1
      simp [hc]
  have htake : (digits ++ rest).takeWhile Char.isDigit = digits := by
    rw [List.takeWhile_append_of_pos hdigits, hhead.1, List.append_nil]
  have hdrop : (digits ++ rest).dropWhile Char.isDigit = rest := by
    rw [List.dropWhile_append_of_pos hdigits, hhead.2]
  rw [readDigits, htake, hdrop, if_neg (by simpa using hne)]

/-- The digits of a number other than zero do not begin with a zero. -/
theorem head?_toDigits_ne_zero {n : Nat} (h : 0 < n) : (Nat.toDigits 10 n).head? ≠ some '0' := by
  induction n using Nat.strong_induction_on with
  | h n ih =>
    rw [Nat.toDigits_eq_if (by decide)]
    split
    · next hlt =>
      have hdigit : ∀ m < 10, 0 < m → [Nat.digitChar m].head? ≠ some '0' := by decide
      exact hdigit n hlt h
    · next hge =>
      rw [List.head?_append_of_ne_nil _ Nat.toDigits_ne_nil]
      exact ih (n / 10) (by omega) (by omega)

theorem readUnsigned_append (negative : Bool) {digits rest : List Char} (hne : digits ≠ [])
    (hdigits : ∀ c ∈ digits, c.isDigit = true)
    (hzero : digits.head? ≠ some '0' ∨ digits.length = 1) (h : EndsNumber rest) :
    readUnsigned negative (digits ++ rest) = some (numberOf negative digits, rest) := by
  simp [readUnsigned, readDigits_append hne hdigits h, hzero, readFraction_of_ends h,
    readExponent_of_ends h, guard]

theorem readUnsigned_repr (negative : Bool) (n : Nat) {rest : List Char} (h : EndsNumber rest) :
    readUnsigned negative (n.repr.toList ++ rest)
      = some (numberOf negative n.repr.toList, rest) := by
  refine readUnsigned_append negative (Decimal.repr_ne_nil n)
    (fun _ => Decimal.isDigit_of_mem_repr) ?_ h
  rcases Nat.eq_zero_or_pos n with rfl | hpos
  · exact .inr rfl
  · rw [Nat.toList_repr]
    exact .inl (head?_toDigits_ne_zero hpos)

theorem ofDigitChars_repr (n : Nat) : Nat.ofDigitChars 10 n.repr.toList 0 = n := by
  rw [Nat.toList_repr, Nat.ofDigitChars_toDigits (by decide) (by decide)]

/-- An integer is read back from its written form. -/
theorem readNumber_text (n : Int) {rest : List Char} (h : EndsNumber rest) :
    readNumber ((Decimal.text n).toList ++ rest) = some (.integer n, rest) := by
  cases n with
  | ofNat n =>
    have hsign : readNumber (n.repr.toList ++ rest)
        = readUnsigned false (n.repr.toList ++ rest) := by
      obtain ⟨d, digits, hd⟩ := List.exists_cons_of_ne_nil (Decimal.repr_ne_nil n)
      have hdigit : d.isDigit = true := Decimal.isDigit_of_mem_repr (n := n) (by simp [hd])
      rw [hd, List.cons_append, readNumber]
      intro _ heq
      rw [(List.cons.inj heq).1] at hdigit
      exact absurd hdigit (by decide)
    rw [Decimal.text, hsign, readUnsigned_repr false n h, numberOf, ofDigitChars_repr]
    rfl
  | negSucc n =>
    have htext : (Decimal.text (.negSucc n)).toList ++ rest
        = '-' :: ((n + 1).repr.toList ++ rest) := by
      simp [Decimal.text]
    rw [htext, readNumber, readUnsigned_repr true (n + 1) h, numberOf, ofDigitChars_repr]
    rfl

end SyslModel.Json
