import SyslModel.NameMap
import SyslModel.Text
/-!
# JSON

JSON values, their texts in both directions, and how records and variants are taken out of them.
-/

namespace SyslModel.Json

/-!
## JSON values

The values of the JSON data format, with the order of the members of an object kept.  Two classes of
written forms denote nothing that a tree can hold, and are told apart from the rest without being
kept: numbers that are not written as integers, and strings with an escape that is half of a
surrogate pair.
-/

/-- What a string denotes; nothing, if it holds half of a surrogate pair. -/
abbrev Text := Option String

/-- A JSON value. -/
inductive Value where
  /-- The word `null`. -/
  | null
  /-- A truth value. -/
  | bool (value : Bool)
  /-- A number that is written as an integer. -/
  | integer (value : Int)
  /-- Any other number: with a fraction or an exponent, or minus zero. -/
  | real
  /-- A string. -/
  | text (content : Text)
  /-- A list of values. -/
  | array (items : List Value)
  /-- Values under names; a name may come up more than once. -/
  | object (members : List (Text × Value))
  deriving Inhabited

namespace Value

/-- A string value. -/
def string (content : String) : Value := .text (some content)

/-- An object with the given members. -/
def record (members : List (String × Value)) : Value :=
  .object (members.map fun m => (some m.1, m.2))

end Value

/-! ### The escapes of strings -/

/-- The characters that stand behind a backslash, with the characters that they denote. -/
def escapes : List (Char × Char) :=
  [('"', '"'), ('\\', '\\'), ('/', '/'), ('b', '\x08'), ('f', '\x0c'), ('n', '\n'), ('r', '\r'),
    ('t', '\t')]

/-- The sixteen digits of hexadecimal numbers. -/
def hexDigits : List Char :=
  ['0', '1', '2', '3', '4', '5', '6', '7', '8', '9', 'a', 'b', 'c', 'd', 'e', 'f']

/-- The number that a hexadecimal digit denotes, in either case. -/
def hexValue? (c : Char) : Option Nat := hexDigits.idxOf? c.toLower

/-!
## Writing JSON

Values are written in two layouts: compact, without any blank, and pretty, with every item and
member on a line of its own.  Both write the same characters but for blanks between them.

In a string, a double quote, a backslash and the characters below the space are escaped, and nothing
else: backspace, form feed, line feed, carriage return and tab by a letter, the others by four
hexadecimal digits.
-/

/-- One character of a string. -/
def escapeChar (c : Char) : List Char :=
  match c with
  | '"' => ['\\', '"']
  | '\\' => ['\\', '\\']
  | '\x08' => ['\\', 'b']
  | '\x0c' => ['\\', 'f']
  | '\n' => ['\\', 'n']
  | '\r' => ['\\', 'r']
  | '\t' => ['\\', 't']
  | _ =>
    if c.toNat < 32 then
      ['\\', 'u', '0', '0', hexDigits.getD (c.toNat / 16) '0', hexDigits.getD (c.toNat % 16) '0']
    else [c]

/-- The written form of a string.  Half of a surrogate pair stands for all strings that hold one. -/
def writeText : Text → String
  | some content => "\"" ++ String.ofList (content.toList.flatMap escapeChar) ++ "\""
  | none => "\"\\ud800\""

/-- The written form of a value that has no parts.  Minus zero stands for all numbers that are not
integers. -/
def writeLeaf : Value → String
  | .null => "null"
  | .bool true => "true"
  | .bool false => "false"
  | .integer n => Decimal.text n
  | .real => "-0"
  | .text content => writeText content
  | .array _ => "[]"
  | .object _ => "\x7b\x7d"

/-! ### The compact layout -/

mutual

/-- The compact form of a value. -/
def Value.compact : Value → String
  | .array items => "[" ++ ",".intercalate (compactItems items) ++ "]"
  | .object members => "\x7b" ++ ",".intercalate (compactMembers members) ++ "\x7d"
  | leaf => writeLeaf leaf

/-- The compact forms of the items of an array. -/
def compactItems : List Value → List String
  | [] => []
  | item :: others => item.compact :: compactItems others

/-- The compact forms of the members of an object. -/
def compactMembers : List (Text × Value) → List String
  | [] => []
  | (key, value) :: others => (writeText key ++ ":" ++ value.compact) :: compactMembers others

end

/-! ### The pretty layout -/

/-- The parts of a value between two brackets, each on a line one level further in. -/
def block (level : Nat) (opening : String) (parts : List String) (closing : String) : String :=
  let line := "\n" ++ indentation (level + 1)
  opening ++ line ++ ("," ++ line).intercalate parts ++ "\n" ++ indentation level ++ closing

mutual

/-- The pretty form of a value whose first line stands at some level. -/
def Value.prettyAt (level : Nat) : Value → String
  | .array (item :: others) => block level "[" (prettyItems (level + 1) (item :: others)) "]"
  | .object (member :: others) =>
    block level "\x7b" (prettyMembers (level + 1) (member :: others)) "\x7d"
  | leaf => writeLeaf leaf

/-- The pretty forms of the items of an array. -/
def prettyItems (level : Nat) : List Value → List String
  | [] => []
  | item :: others => item.prettyAt level :: prettyItems level others

/-- The pretty forms of the members of an object. -/
def prettyMembers (level : Nat) : List (Text × Value) → List String
  | [] => []
  | (key, value) :: others =>
    (writeText key ++ ": " ++ value.prettyAt level) :: prettyMembers level others

end

/-- The pretty form of a value. -/
def Value.pretty (value : Value) : String := value.prettyAt 0

/-!
## Reading JSON

The strict grammar: one value with blanks around it and nothing else, no comma behind a last item,
no leading zero, no control character in a string.  Each reader takes the front off a text and gives
the rest along with what it has read.

Strings are read in two steps, first into units, one for each character or escape, and then into
text: two neighbouring escapes that are halves of a surrogate pair make up one character.
-/

/-- What is read from the front of a text, and the rest. -/
abbrev Reading (α : Type) := Option (α × List Char)

/-- The text behind the blanks at its front. -/
def skipBlanks (text : List Char) : List Char :=
  text.dropWhile [' ', '\t', '\n', '\r'].contains

/-! ### Strings -/

/-- A part of a string. -/
inductive TextUnit where
  /-- A character. -/
  | char (c : Char)
  /-- The first half of a surrogate pair. -/
  | high (code : Nat)
  /-- The second half of a surrogate pair. -/
  | low (code : Nat)

/-- The unit that a number of sixteen bits denotes. -/
def TextUnit.ofCode (code : Nat) : TextUnit :=
  if 0xD800 ≤ code ∧ code ≤ 0xDBFF then .high code
  else if 0xDC00 ≤ code ∧ code ≤ 0xDFFF then .low code
  else .char (Char.ofNat code)

/-- The number that four hexadecimal digits denote. -/
def hexCode? (a b c d : Char) : Option Nat := do
  let a ← hexValue? a
  let b ← hexValue? b
  let c ← hexValue? c
  let d ← hexValue? d
  pure (((a * 16 + b) * 16 + c) * 16 + d)

/-- The units of a string up to its last quote. -/
def readUnits : List Char → Reading (List TextUnit)
  | '"' :: rest => some ([], rest)
  | '\\' :: 'u' :: a :: b :: c :: d :: rest =>
    match hexCode? a b c d, readUnits rest with
    | some code, some (units, rest) => some (TextUnit.ofCode code :: units, rest)
    | _, _ => none
  | '\\' :: c :: rest =>
    match escapes.lookup c, readUnits rest with
    | some denoted, some (units, rest) => some (.char denoted :: units, rest)
    | _, _ => none
  | c :: rest =>
    if c.toNat < 32 ∨ c = '\\' then none
    else (readUnits rest).map fun r => (.char c :: r.1, r.2)
  | [] => none

/-- The characters that units make up; none if half of a surrogate pair stands alone. -/
def joinUnits : List TextUnit → Option (List Char)
  | [] => some []
  | .char c :: units => (joinUnits units).map (c :: ·)
  | .high first :: .low second :: units =>
    let code := 0x10000 + (first - 0xD800) * 0x400 + (second - 0xDC00)
    (joinUnits units).map (Char.ofNat code :: ·)
  | _ => none

/-- A string behind its first quote. -/
def readText (text : List Char) : Reading Text :=
  (readUnits text).map fun r => ((joinUnits r.1).map String.ofList, r.2)

/-! ### Numbers -/

/-- One or more digits. -/
def readDigits (text : List Char) : Reading (List Char) :=
  if (text.takeWhile Char.isDigit).isEmpty then none
  else some (text.takeWhile Char.isDigit, text.dropWhile Char.isDigit)

/-- The fraction of a number, where there is one; tells whether there is. -/
def readFraction : List Char → Reading Bool
  | '.' :: text => (readDigits text).map fun r => (true, r.2)
  | text => some (false, text)

/-- The exponent of a number, where there is one; tells whether there is. -/
def readExponent : List Char → Reading Bool
  | c :: text =>
    if c = 'e' ∨ c = 'E' then
      let digits := match text with
        | '+' :: digits => digits
        | '-' :: digits => digits
        | digits => digits
      (readDigits digits).map fun r => (true, r.2)
    else some (false, c :: text)
  | [] => some (false, [])

/-- The number that digits denote, with a minus sign in front or none. -/
def numberOf (negative : Bool) (digits : List Char) : Value :=
  let magnitude := Nat.ofDigitChars 10 digits 0
  if negative then (if magnitude = 0 then .real else .integer (-(magnitude : Int)))
  else .integer magnitude

/-- A number behind its sign. -/
def readUnsigned (negative : Bool) (text : List Char) : Option (Value × List Char) := do
  let (digits, text) ← readDigits text
  guard (digits.head? ≠ some '0' ∨ digits.length = 1)
  let (fraction, text) ← readFraction text
  let (exponent, text) ← readExponent text
  pure (if fraction || exponent then .real else numberOf negative digits, text)

/-- A number. -/
def readNumber : List Char → Reading Value
  | '-' :: text => readUnsigned true text
  | text => readUnsigned false text

/-! ### Values -/

/-- The colon behind a key. -/
def readColon (text : List Char) : Option (List Char) :=
  match skipBlanks text with
  | ':' :: rest => some rest
  | _ => none

/-- The key of a member and the colon behind it. -/
def readKey (text : List Char) : Option (Text × List Char) :=
  match skipBlanks text with
  | '"' :: rest => do
    let (key, rest) ← readText rest
    let rest ← readColon rest
    pure (key, rest)
  | _ => none

mutual

/-- A value; the number bounds the steps. -/
def readValue : Nat → List Char → Reading Value
  | 0, _ => none
  | fuel + 1, text =>
    match skipBlanks text with
    | 'n' :: 'u' :: 'l' :: 'l' :: rest => some (.null, rest)
    | 't' :: 'r' :: 'u' :: 'e' :: rest => some (.bool true, rest)
    | 'f' :: 'a' :: 'l' :: 's' :: 'e' :: rest => some (.bool false, rest)
    | '"' :: rest => (readText rest).map fun r => (.text r.1, r.2)
    | '[' :: rest =>
      match skipBlanks rest with
      | ']' :: rest => some (.array [], rest)
      | rest => (readItems fuel rest).map fun r => (.array r.1, r.2)
    | '\x7b' :: rest =>
      match skipBlanks rest with
      | '\x7d' :: rest => some (.object [], rest)
      | rest => (readMembers fuel rest).map fun r => (.object r.1, r.2)
    | rest => readNumber rest

/-- One or more items up to the end of their array. -/
def readItems : Nat → List Char → Reading (List Value)
  | 0, _ => none
  | fuel + 1, text =>
    match readValue fuel text with
    | none => none
    | some (item, rest) =>
      match skipBlanks rest with
      | ',' :: rest => (readItems fuel rest).map fun r => (item :: r.1, r.2)
      | ']' :: rest => some ([item], rest)
      | _ => none

/-- One or more members up to the end of their object. -/
def readMembers : Nat → List Char → Reading (List (Text × Value))
  | 0, _ => none
  | fuel + 1, text =>
    match readKey text with
    | none => none
    | some (key, rest) =>
      match readValue fuel rest with
      | none => none
      | some (value, rest) =>
        match skipBlanks rest with
        | ',' :: rest => (readMembers fuel rest).map fun r => ((key, value) :: r.1, r.2)
        | '\x7d' :: rest => some ([(key, value)], rest)
        | _ => none

end

/-- The value that a whole text writes.  Every step but the first of an array or of an object takes
at least one character, so twice the length bounds the steps. -/
def Value.ofString? (text : String) : Option Value :=
  let text := text.toList
  match readValue (2 * text.length + 2) text with
  | some (value, rest) => if (skipBlanks rest).isEmpty then some value else none
  | none => none

/-!
## Taking JSON values apart

A record is an object or an array: the object has each field once and may have other members, the
array has exactly the fields in their order.  A variant is an object with one member, whose name
tells the variant; a variant without content may also be its bare name.

A decoder has a budget of nested arrays and objects and uses one up for each that it enters.  Values
that it skips cost nothing.
-/

/-- Decodes a value within a budget of nested arrays and objects. -/
abbrev Decoder (α : Type) := Nat → Value → Option α

/-- How many arrays and objects may be nested in a decoded text. -/
def nestingLimit : Nat := 127

namespace Value

/-- The truth value that a value is. -/
def bool? : Value → Option Bool
  | .bool value => some value
  | _ => none

/-- The text that a value is. -/
def string? : Value → Option String
  | .text content => content
  | _ => none

/-- The signed integer of 64 bits that a value is. -/
def signed64? : Value → Option Int
  | .integer n => if Decimal.isSigned64 n then some n else none
  | _ => none

/-- The unsigned integer of 64 bits that a value is. -/
def unsigned64? : Value → Option Nat
  | .integer n => if Decimal.isUnsigned64 n then some n.toNat else none
  | _ => none

/-- The members of an object, if all its names are texts. -/
def members? : Value → Option (List (String × Value))
  | .object members => members.mapM fun m => m.1.map (·, m.2)
  | _ => none

/-- The value of the only member of this name. -/
def only? (name : String) (members : List (String × Value)) : Option Value :=
  match members.filter fun m => m.1 == name with
  | [member] => some member.2
  | _ => none

/-- The fields of a record, in the order of the names. -/
def fields? (names : List String) : Value → Option (List Value)
  | .array items => if items.length = names.length then some items else none
  | value => do
    let members ← value.members?
    names.mapM (only? · members)

/-- The name and the content of a variant. -/
def variant? : Value → Option (String × Value)
  | .object [(some name, content)] => some (name, content)
  | _ => none

/-- The name of a variant without content: it stands alone, or over `null`. -/
def bareVariant? : Decoder String
  | _, .text content => content
  | _ + 1, .object [(some name, .null)] => some name
  | _, _ => none

end Value

/-- The list that an array is. -/
def arrayOf {α : Type} (decode : Decoder α) : Decoder (List α)
  | depth + 1, .array items => items.mapM (decode depth)
  | _, _ => none

/-- The map that an object is; a name that comes up again replaces its value. -/
def mapOf {α : Type} (decode : Decoder α) : Decoder (NameMap α)
  | 0, _ => none
  | depth + 1, value => do
    let members ← value.members?
    let entries ← members.mapM fun m => (decode depth m.2).map (m.1, ·)
    pure (NameMap.ofList entries)

/-- The value that a whole text denotes. -/
def decodeText {α : Type} (decode : Decoder α) (text : String) : Option α :=
  (Value.ofString? text).bind (decode nestingLimit)

end SyslModel.Json
