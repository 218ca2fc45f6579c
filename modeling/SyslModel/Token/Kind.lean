import SyslModel.Tree
/-!
# Kinds of tokens and their patterns

Every kind of token has a pattern, which says what texts it stands for, and a place in an order that
decides between kinds whose patterns fit the same text.
-/

namespace SyslModel

/-!
## Kinds of tokens

Some kinds have a single written form: the markers of declarations, the methods, the primitives and
the punctuation.  The others stand for whatever fits their pattern.

`TokenKind.byPriority` is the order in which kinds take a text that fits several of them: `GET` is
a method before it is an identifier, and `int` a primitive before it is a lowercase identifier.
-/

/-- The words that start the declaration of a type. -/
inductive Marker where
  /-- `!table` -/
  | table
  /-- `!type` -/
  | type
  /-- `!enum` -/
  | enumeration
  deriving DecidableEq, Inhabited

namespace Marker

/-- The three markers. -/
def all : List Marker := [.table, .type, .enumeration]

/-- The word that writes the marker. -/
def keyword : Marker → String
  | .table => "!table"
  | .type => "!type"
  | .enumeration => "!enum"

end Marker

/-- The punctuation of the language. -/
inductive Punctuation where
  /-- `<:` between a field and its type. -/
  | subset
  /-- `:` after a header and between an item and its value. -/
  | colon
  /-- `,` between attributes. -/
  | comma
  /-- `=` between an attribute and its text. -/
  | equals
  /-- `[` before attributes. -/
  | openBracket
  /-- `]` after attributes. -/
  | closeBracket
  /-- `?` after an optional type. -/
  | question
  /-- `~` before a negated flag. -/
  | tilde
  deriving DecidableEq, Inhabited

namespace Punctuation

/-- All punctuation. -/
def all : List Punctuation :=
  [.subset, .colon, .comma, .equals, .openBracket, .closeBracket, .question, .tilde]

/-- The characters that write the punctuation. -/
def text : Punctuation → String
  | .subset => "<:"
  | .colon => ":"
  | .comma => ","
  | .equals => "="
  | .openBracket => "["
  | .closeBracket => "]"
  | .question => "?"
  | .tilde => "~"

end Punctuation

/-- What a token is. -/
inductive TokenKind where
  /-- The word that starts a declaration. -/
  | marker (marker : Marker)
  /-- The method of an endpoint. -/
  | method (method : Method)
  /-- The name of a primitive. -/
  | primitive (primitive : Primitive)
  /-- `Employee.employeeId` -/
  | foreignKey
  /-- `io.sysl.demo` -/
  | qualifiedName
  /-- `Employee` -/
  | identifier
  /-- `employeeId` -/
  | smallIdentifier
  /-- `/pets/id` -/
  | path
  /-- A text in double quotes. -/
  | quoted
  /-- Digits, with a minus sign in front of them or none. -/
  | integer
  /-- Punctuation. -/
  | punctuation (punctuation : Punctuation)
  /-- What stands behind the last token. -/
  | endOfFile
  deriving DecidableEq, Inhabited

namespace TokenKind

/-- The kinds that stand in a text; of two that fit equally well the earlier one is taken. -/
def byPriority : List TokenKind :=
  Marker.all.map .marker ++ Method.all.map .method ++ Primitive.all.map .primitive
    ++ [.foreignKey, .qualifiedName, .identifier, .smallIdentifier, .path, .quoted, .integer]
    ++ Punctuation.all.map .punctuation

/-- The written form of a kind that has a single one. -/
def fixedText? : TokenKind → Option String
  | .marker m => some m.keyword
  | .method m => some m.keyword
  | .primitive p => some p.keyword
  | .punctuation p => some p.text
  | _ => none

/-- What a kind is called in messages; fixed words stand between single quotes. -/
def describe : TokenKind → String
  | .marker m => "'" ++ m.keyword ++ "'"
  | .method m => "'" ++ m.keyword ++ "'"
  | .primitive p => "'" ++ p.keyword ++ "'"
  | .punctuation p => "'" ++ p.text ++ "'"
  | .foreignKey => "foreign key reference"
  | .qualifiedName => "namespace"
  | .identifier => "identifier"
  | .smallIdentifier => "lowercase identifier"
  | .path => "path"
  | .quoted => "string literal"
  | .integer => "integer"
  | .endOfFile => "end of file"

/-- The kind without its special meaning: a method is an identifier, a primitive a lowercase one. -/
def generic : TokenKind → TokenKind
  | .method _ => .identifier
  | .primitive _ => .smallIdentifier
  | kind => kind

/-- Does the kind name a primitive? -/
def isPrimitive : TokenKind → Bool
  | .primitive _ => true
  | _ => false

/-- Does the kind start a declaration? -/
def isMarker : TokenKind → Bool
  | .marker _ => true
  | _ => false

end TokenKind

/-!
## Patterns of tokens

A pattern describes the texts that a kind of token stands for, and `Pattern.longest` cuts the
longest such text off the front of a source.  There are five shapes: a fixed text, a word, a dotted
name, a quoted text and an integer.  All characters that a pattern asks for are ASCII; only a quoted
text may hold others.

`longest_isPrefix` says that nothing is made up: what is cut off is the front of the source.
-/

/-! ### Characters -/

/-- Letters, digits and the underscore. -/
def isWordChar (c : Char) : Bool := c.isAlphanum || c == '_'

/-- Lowercase letters and digits. -/
def isLowerOrDigit (c : Char) : Bool := c.isLower || c.isDigit

/-- The characters of a path. -/
def isPathChar (c : Char) : Bool := isWordChar c || "-\x7b\x7d./".toList.contains c

/-- The characters between tokens: space, tab, carriage return, line feed and form feed. -/
def isBlank (c : Char) : Bool := [' ', '\t', '\r', '\n', '\x0c'].contains c

/-! ### Patterns -/

/-- The texts that a kind of token stands for. -/
inductive Pattern where
  /-- One text. -/
  | fixed (text : List Char)
  /-- A first character and any number of others. -/
  | word (first next : Char → Bool)
  /-- Words with dots between them, at least one dot; `first` holds of the first character of all,
  `start` of the first one after a dot, `next` of the others. -/
  | dotted (first start next : Char → Bool)
  /-- A text between double quotes on one line; a backslash protects the character behind it. -/
  | quoted
  /-- One or more digits, with a minus sign in front or none. -/
  | integer

namespace Pattern

/-- The longest run of word characters and of dots that have the start of a word behind them. -/
def dottedTail (start next : Char → Bool) : List Char → List Char
  | '.' :: c :: text => if start c then '.' :: c :: dottedTail start next text else []
  | c :: text => if next c then c :: dottedTail start next text else []
  | [] => []

/-- A quoted text behind its first quote, up to and with its last one; there is none if the line or
the source ends before. -/
def quotedTail : List Char → Option (List Char)
  | '"' :: _ => some ['"']
  | '\\' :: c :: text => if c = '\n' then none else (quotedTail text).map ('\\' :: c :: ·)
  | c :: text => if c = '\n' then none else (quotedTail text).map (c :: ·)
  | [] => none

/-- The longest run of digits, if there is one. -/
def digits (text : List Char) : Option (List Char) :=
  if (text.takeWhile Char.isDigit).isEmpty then none else some (text.takeWhile Char.isDigit)

/-- The longest text of the pattern at the front of a source. -/
def longest : Pattern → List Char → Option (List Char)
  | .fixed text, source => if text.isPrefixOf source then some text else none
  | .word first next, c :: rest => if first c then some (c :: rest.takeWhile next) else none
  | .dotted first start next, c :: rest =>
    let tail := dottedTail start next rest
    if first c ∧ tail.contains '.' then some (c :: tail) else none
  | .quoted, '"' :: rest => (quotedTail rest).map ('"' :: ·)
  | .integer, '-' :: rest => (digits rest).map ('-' :: ·)
  | .integer, source => digits source
  | _, _ => none

theorem dottedTail_isPrefix (start next : Char → Bool) (source : List Char) :
    dottedTail start next source <+: source := by
  fun_induction dottedTail start next source with
  | case1 c text h ih => simpa using ih
  | case2 => simp
  | case3 c text _ h ih => simpa using ih
  | case4 => simp
  | case5 => simp

theorem quotedTail_isPrefix {source text : List Char} (h : quotedTail source = some text) :
    text <+: source := by
  fun_induction quotedTail source generalizing text with
  | case1 rest => obtain rfl := Option.some.inj h; simp
  | case2 => simp at h
  | case3 c rest hc ih =>
    obtain ⟨u, hu, rfl⟩ := Option.map_eq_some_iff.1 h
    simpa using ih hu
  | case4 => simp at h
  | case5 c rest _ _ hc ih =>
    obtain ⟨u, hu, rfl⟩ := Option.map_eq_some_iff.1 h
    simpa using ih hu
  | case6 => simp at h

theorem digits_isPrefix {source text : List Char} (h : digits source = some text) :
    text <+: source := by
  unfold digits at h
  split at h
  · simp at h
  · obtain rfl := Option.some.inj h
    exact List.takeWhile_prefix _

theorem longest_isPrefix {p : Pattern} {source text : List Char}
    (h : p.longest source = some text) : text <+: source := by
  unfold longest at h
  split at h
  · split at h
    · next hp => obtain rfl := Option.some.inj h; exact List.isPrefixOf_iff_prefix.1 hp
    · simp at h
  · split at h
    · obtain rfl := Option.some.inj h; simpa using List.takeWhile_prefix _
    · simp at h
  · simp only at h
    split at h
    · obtain rfl := Option.some.inj h; simpa using dottedTail_isPrefix _ _ _
    · simp at h
  · obtain ⟨u, hu, rfl⟩ := Option.map_eq_some_iff.1 h
    simpa using quotedTail_isPrefix hu
  · obtain ⟨u, hu, rfl⟩ := Option.map_eq_some_iff.1 h
    simpa using digits_isPrefix hu
  · exact digits_isPrefix h
  · simp at h

end Pattern

/-! ### The pattern of each kind -/

namespace TokenKind

/-- The pattern of a kind; the end of the file is written by nothing. -/
def pattern : TokenKind → Pattern
  | .marker m => .fixed m.keyword.toList
  | .method m => .fixed m.keyword.toList
  | .primitive p => .fixed p.keyword.toList
  | .punctuation p => .fixed p.text.toList
  | .foreignKey => .dotted Char.isUpper isWordChar isWordChar
  | .qualifiedName => .dotted Char.isLower Char.isLower isLowerOrDigit
  | .identifier => .word Char.isUpper isWordChar
  | .smallIdentifier => .word Char.isLower isWordChar
  | .path => .word (· == '/') isPathChar
  | .quoted => .quoted
  | .integer => .integer
  | .endOfFile => .fixed []

theorem longest_ne_nil {kind : TokenKind} {source text : List Char} (hk : kind ≠ .endOfFile)
    (h : kind.pattern.longest source = some text) : text ≠ [] := by
  rintro rfl
  unfold Pattern.longest at h
  split at h
  · next fixed _ hp =>
    split at h
    · obtain rfl := Option.some.inj h
      cases kind with
      | endOfFile => exact hk rfl
      | marker m => cases m <;> simp [pattern, Marker.keyword] at hp
      | method m => cases m <;> simp [pattern, Method.keyword] at hp
      | primitive p => cases p <;> simp [pattern, Primitive.keyword] at hp
      | punctuation p => cases p <;> simp [pattern, Punctuation.text] at hp
      | _ => simp [pattern] at hp
    · simp at h
  · split at h <;> simp at h
  · simp only at h; split at h <;> simp at h
  · simp at h
  · simp at h
  · simp only [Pattern.digits] at h
    split at h
    · simp at h
    · next hne => simp_all
  · simp at h

end TokenKind

end SyslModel
