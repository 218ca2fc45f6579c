/-!
# Written forms

How integers, nested lines and quoted texts are written.  Integers and the indentation of lines are
shared by the canonical text of a tree and by JSON; quoted texts stand in sources and in canonical
texts.
-/

namespace SyslModel

/-!
## Decimal integers

The written form of an integer has no leading zero and no plus sign.  `Decimal.value?` reads any
text of an optional sign and one or more digits, so leading zeros, a plus and `-0` are read as well.
Two ranges of machine integers bound the numbers that a model may hold.

`Decimal.signed64?` says which number of 64 bits a text denotes, if there is one.  `Decimal.read64?`
finds it without ever leaving the 64 bits: it gives up at the first digit that leads out of them.
-/

namespace Decimal

/-- The written form of an integer. -/
def text : Int → String
  | .ofNat n => n.repr
  | .negSucc n => "-" ++ (n + 1).repr

/-- The number that a run of digits denotes; there must be at least one. -/
def natural? (digits : List Char) : Option Nat :=
  if digits ≠ [] ∧ digits.all Char.isDigit then some (Nat.ofDigitChars 10 digits 0) else none

/-- The integer that a text of an optional sign and digits denotes. -/
def value? : List Char → Option Int
  | '-' :: digits => (natural? digits).map fun n => -(n : Int)
  | '+' :: digits => (natural? digits).map Int.ofNat
  | digits => (natural? digits).map Int.ofNat

/-- Is the integer one of the signed integers of 64 bits? -/
def isSigned64 (n : Int) : Bool := -0x8000000000000000 ≤ n && n < 0x8000000000000000

/-- Is the integer one of the unsigned integers of 64 bits? -/
def isUnsigned64 (n : Int) : Bool := 0 ≤ n && n < 0x10000000000000000

/-- The signed integer of 64 bits that a text denotes. -/
def signed64? (literal : List Char) : Option Int :=
  (value? literal).filter isSigned64

/-! ### Reading within 64 bits -/

/-- The integer, if it is one of the signed integers of 64 bits. -/
def within64? (n : Int) : Option Int := if isSigned64 n then some n else none

/-- A digit more behind a number that grows in the direction of a sign.  Both making room for the
digit and adding it have to stay within 64 bits. -/
def appendDigit? (sign value : Int) (c : Char) : Option Int :=
  if c.isDigit then do
    let shifted ← within64? (value * 10)
    within64? (shifted + sign * (c.toNat - '0'.toNat : Nat))
  else none

/-- Reads a signed integer of 64 bits digit by digit, down from zero behind a minus sign and up from
it otherwise.  A sign alone is no integer. -/
def read64? : List Char → Option Int
  | [] | ['-'] | ['+'] => none
  | '-' :: digits => digits.foldlM (appendDigit? (-1)) 0
  | '+' :: digits => digits.foldlM (appendDigit? 1) 0
  | digits => digits.foldlM (appendDigit? 1) 0

end Decimal

/-!
## Indentation

Nested text stands two spaces further in for each level.
-/

/-- The blank in front of a line at some level: two spaces for each. -/
def indentation (level : Nat) : String := String.ofList (List.replicate (2 * level) ' ')

/-!
## Quoted text

A quoted text stands between two double quotes.  Writing puts a backslash before every double quote
and every backslash; reading takes a backslash away and keeps the character after it, whichever it
is.  So reading takes back what writing did (`unescape_escape`), and a text that was written by hand
with more backslashes than needed is read as well.
-/

namespace Quoted

/-- Puts a backslash before each double quote and each backslash. -/
def escape : List Char → List Char
  | [] => []
  | c :: text => if c = '"' ∨ c = '\\' then '\\' :: c :: escape text else c :: escape text

/-- Takes away each backslash and keeps the character after it; a last backslash is dropped. -/
def unescape : List Char → List Char
  | [] => []
  | ['\\'] => []
  | '\\' :: c :: text => c :: unescape text
  | c :: text => c :: unescape text

theorem unescape_escape (text : List Char) : unescape (escape text) = text := by
  induction text with
  | nil => rfl
  | cons c text ih =>
    by_cases h : c = '"' ∨ c = '\\'
    · simp [escape, h, unescape, ih]
    · have hc : c ≠ '\\' := fun e => h (.inr e)
      rw [escape, if_neg h, unescape, ih]
      all_goals simp [hc]

/-- The quoted form of a text. -/
def write (text : String) : String := "\"" ++ String.ofList (escape text.toList) ++ "\""

/-- What stands between the quotes at the two ends of a text; a text without them is left whole. -/
def inner (literal : List Char) : List Char :=
  match literal with
  | '"' :: rest => if rest.getLast? = some '"' then rest.dropLast else literal
  | _ => literal

/-- The text that a quoted form stands for. -/
def read (literal : String) : String := String.ofList (unescape (inner literal.toList))

theorem read_write (text : String) : read (write text) = text := by
  simp [read, write, inner, unescape_escape]

end Quoted

end SyslModel
