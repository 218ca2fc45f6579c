import SyslModel.Proofs.RoundTrip.Lexemes
import SyslModel.Proofs.RoundTrip.Reparse
import SyslModel.Proofs.Text.Decimal
import SyslModel.Proofs.Token.Lexeme
import SyslModel.Proofs.Token.Lossless
import SyslModel.Tree
/-!
# Literals and dotted references

Three kinds of leaves of a tree and their texts, in both directions: the values of enumerations,
quoted texts, and references.
-/

namespace SyslModel

/-!
## Values of enumerations

The value of an item is the integer that its literal denotes, however long the literal is, if that
is a signed integer of 64 bits; the item fails at the literal otherwise.  In the other direction the
line of an item is read as the same name and the same value, for every value of 64 bits.

`enumValues` says both.  Reading is told from the places of the digits (`Decimal.denoted`), so that
it is not compared with itself.
-/

section EnumValues

open scoped Computability

/-- `[A-Za-z][A-Za-z0-9_]*`, but not the word of a method or of a primitive. -/
structure IsItemName (name : String) : Prop where
  /-- A letter, and word characters behind it. -/
  spelled : name.toList ∈ oneOf Char.isAlpha * (oneOf isWordChar)∗
  /-- The name is no keyword. -/
  free : ¬ IsKeyword name.toList

/-- The next three tokens of a session are a name, a colon and an integer. -/
structure Session.AtItem (session : Session) (name literal : Token) : Prop where
  /-- The tokens, one behind another. -/
  ahead : ∃ colon others, session.stream.ahead = name :: colon :: literal :: others ∧
    colon.kind = .punctuation .colon
  /-- The name is an identifier of either case. -/
  named : name.kind = .identifier ∨ name.kind = .smallIdentifier
  /-- The value is an integer token. -/
  valued : literal.kind = .integer
  /-- Its text has a minus sign or none, and one or more digits. -/
  spelled : TokenKind.integer.Matches literal.text.toList

/-- The values of items are the integers of 64 bits that their literals denote, and what is written
is read again. -/
structure EnumValues : Prop where
  /-- An item has the value that its literal denotes, and fails if that does not fit. -/
  value : ∀ (session : Session) (name literal : Token), session.AtItem name literal →
    (session.callRule .enumItem).1 =
      if -2 ^ 63 ≤ Decimal.denoted literal.text.toList ∧
          Decimal.denoted literal.text.toList ≤ 2 ^ 63 - 1 then
        .ok (.enumItem name.text (Decimal.denoted literal.text.toList))
      else .error (.integerOutOfRange literal)
  /-- An item that is written is read as it was, as the text of a name and a value and as a line at
  any level. -/
  written : ∀ (name : String) (value : Int), IsItemName name → -2 ^ 63 ≤ value →
    value ≤ 2 ^ 63 - 1 →
    parseRule (name ++ ": " ++ Decimal.text value) .enumItem = ⟨some (.enumItem name value), []⟩ ∧
    ∀ level, parseRule (DataType.itemLine level name value) .enumItem =
      ⟨some (.enumItem name value), []⟩

/-! ### What a literal denotes -/

namespace Decimal

theorem denoted_of_ne_minus {c : Char} (hc : c ≠ '-') (digits : List Char) :
    denoted (c :: digits) = placeValue (c :: digits) := by
  unfold denoted
  split
  · next heq => exact absurd (List.cons.inj heq).1 hc
  · rfl

/-- The text of an integer token denotes the sum of its places. -/
theorem value?_of_matches {text : List Char} (h : TokenKind.integer.Matches text) :
    value? text = some (denoted text) := by
  obtain ⟨sign, hsign, digits, hdigits, rfl⟩ := Language.mem_mul.1 h
  obtain ⟨hne, hall⟩ := mem_oneOrMore_oneOf.1 hdigits
  rcases hsign with rfl | rfl
  · obtain ⟨c, others, rfl⟩ := List.exists_cons_of_ne_nil hne
    have hc : c ≠ '-' := by
      rintro rfl
      exact absurd (hall '-' List.mem_cons_self) (by decide)
    rw [List.nil_append, value?_of_isDigit (hall c List.mem_cons_self), natural?_eq hne hall,
      denoted_of_ne_minus hc]
    rfl
  · rw [List.singleton_append, value?_minus, natural?_eq hne hall]
    rfl

/-- Reading the text of an integer token. -/
theorem read64?_of_matches {text : List Char} (h : TokenKind.integer.Matches text) :
    read64? text =
      if -2 ^ 63 ≤ denoted text ∧ denoted text ≤ 2 ^ 63 - 1 then some (denoted text) else none := by
  rw [read64?_eq, signed64?, value?_of_matches h, filter_isSigned64, within64?]
  simp only [isSigned64_iff, Int.le_sub_one_iff]

end Decimal

/-! ### Reading an item -/

/-- Three tokens of the right kinds are an item, if the last of them fits. -/
theorem Grammar.readEnumItem_eq {s : Stream} {name colon literal : Token} {others : List Token}
    (hahead : s.ahead = name :: colon :: literal :: others)
    (hname : name.kind = .identifier ∨ name.kind = .smallIdentifier)
    (hcolon : colon.kind = .punctuation .colon) (hliteral : literal.kind = .integer)
    (rule : Rule) :
    readEnumItem rule s =
      match Decimal.read64? literal.text.toList with
      | some value => .ok (name.text, value)
          { s with consumed := literal :: colon :: name :: s.consumed, ahead := others }
      | none => .fail ⟨.integerOutOfRange literal, .enumItem⟩
          { s with consumed := literal :: colon :: name :: s.consumed, ahead := others } := by
  have hitem : itemName? name = some name.text := by
    rcases hname with hk | hk <;> simp [itemName?, hk]
  simp only [readEnumItem, Parser.within, Parser.bind_apply, Parser.expect, Parser.take, hahead,
    hitem, hcolon, hliteral, if_true, readInteger]
  cases Decimal.read64? literal.text.toList with
  | some value => rfl
  | none => rfl

theorem Session.AtItem.callRule {session : Session} {name literal : Token}
    (h : session.AtItem name literal) :
    (session.callRule .enumItem).1 =
      match Decimal.read64? literal.text.toList with
      | some value => .ok (.enumItem name.text value)
      | none => .error (.integerOutOfRange literal) := by
  obtain ⟨colon, others, hahead, hcolon⟩ := h.ahead
  have hread := Grammar.readEnumItem_eq hahead h.named hcolon h.valued .enumItem
  show (session.call .enumItem (Grammar.readEnumItem >>= fun i => pure (.enumItem i.1 i.2))).1 = _
  rw [Session.call, Parser.bind_apply, hread]
  cases Decimal.read64? literal.text.toList with
  | some value => rfl
  | none => rfl

/-! ### Names of items -/

/-- An identifier of word characters has no stronger kind, unless it is a keyword: the others need
an exclamation mark or a dot. -/
theorem highestFor_of_word {kind : TokenKind} {text : List Char} (h : kind.Matches text)
    (hkind : kind = .identifier ∨ kind = .smallIdentifier)
    (hword : ∀ c ∈ text, isWordChar c = true) (hfree : ¬ IsKeyword text) :
    kind.HighestFor text := by
  refine ⟨h, fun other hother hne => ?_⟩
  have hrank : kind.rank = 1 := by
    rcases hkind with rfl | rfl <;> rfl
  have hdots {first start next : Char → Bool}
      (hdotted : text ∈ (Pattern.dotted first start next).language) : False := by
    obtain ⟨c, -, rest, hrest, rfl⟩ := Language.mem_mul.1 hdotted
    obtain ⟨word, -, groups, hgroups, rfl⟩ := Language.mem_mul.1 hrest
    have hdot := hword '.' (by simp [Pattern.dot_mem_of_oneOrMore hgroups])
    exact absurd hdot (by decide)
  cases other with
  | marker m =>
    have hmem : '!' ∈ text := by
      rw [mem_literal.1 hother]
      cases m <;> decide
    exact absurd (hword '!' hmem) (by decide)
  | method m => exact absurd (.inl ⟨m, mem_literal.1 hother⟩) hfree
  | primitive p => exact absurd (.inr ⟨p, mem_literal.1 hother⟩) hfree
  | foreignKey => exact (hdots hother).elim
  | qualifiedName => exact (hdots hother).elim
  | endOfFile =>
    rw [hrank]
    decide
  | _ => exact absurd (TokenKind.eq_of_rank_eq (hrank ▸ rfl) hother h) hne

/-- A word that is no keyword is an identifier, of the case of its first letter. -/
theorem IsItemName.writes {name : String} (h : IsItemName name) :
    TokenKind.identifier.Writes name ∨ TokenKind.smallIdentifier.Writes name := by
  obtain ⟨c, rest, htext, hletter, hrest⟩ := mem_oneOf_mul.1 h.spelled
  have hrest' := mem_oneOf_star.1 hrest
  have hword : ∀ d ∈ name.toList, isWordChar d = true := by
    rw [htext, List.forall_mem_cons]
    exact ⟨by simp [isWordChar, Char.isAlphanum, hletter], hrest'⟩
  rcases Bool.or_eq_true_iff.1 hletter with hcase | hcase
  · have hfits : TokenKind.identifier.Matches name.toList :=
      mem_oneOf_mul.2 ⟨c, rest, htext, hcase, hrest⟩
    exact .inl (highestFor_of_word hfits (.inl rfl) hword h.free)
  · have hfits : TokenKind.smallIdentifier.Matches name.toList :=
      mem_oneOf_mul.2 ⟨c, rest, htext, hcase, hrest⟩
    exact .inr (highestFor_of_word hfits (.inr rfl) hword h.free)

/-- A text that prints an item is parsed as that item. -/
theorem parseRule_of_prints {text : String} {follow : List Char → Prop} {name : String}
    {value : Int} (h : Prints text Production.enumItem follow
      fun d => Meaning.enumItem d = (name, value)) (hend : follow []) :
    parseRule text .enumItem = ⟨some (.enumItem name value), []⟩ := by
  have hmeaning : ∀ d : Derivation Production.enumItem, Meaning.enumItem d = (name, value) →
      ∀ final, (Meaning.ofRule final .enumItem d).unspanned =
        (Fragment.enumItem name value).unspanned := by
    intro d hd final
    exact congrArg (fun item : String × Int => Fragment.enumItem item.1 item.2) hd
  have hparses : ParsesTo text .enumItem (.enumItem name value) :=
    parsesTo_of_prints h hend hmeaning
  obtain ⟨again, hparse, hagain, -, -⟩ := hparses
  cases again with
  | enumItem name' value' =>
    -- An item has no spans, so it is the same.
    have hsame : Fragment.enumItem name' value' = .enumItem name value := hagain
    rw [hparse, hsame]
  | _ => cases hagain

/-- The value of an item is the integer its literal denotes, or the literal is out of range; and
every item of 64 bits is read as it was written. -/
theorem enumValues : EnumValues where
  value := by
    intro session name literal h
    rw [h.callRule, Decimal.read64?_of_matches h.spelled]
    by_cases hrange : -2 ^ 63 ≤ Decimal.denoted literal.text.toList ∧
        Decimal.denoted literal.text.toList ≤ 2 ^ 63 - 1
    · rw [if_pos hrange, if_pos hrange]
    · rw [if_neg hrange, if_neg hrange]
  written := by
    intro name value hname hlow hhigh
    have hitem : WritableItem name value :=
      ⟨hname.writes, Decimal.isSigned64_iff.2 ⟨hlow, by omega⟩⟩
    exact ⟨parseRule_of_prints (prints_item hitem) EndsWord.nil,
      fun level => parseRule_of_prints (prints_itemLine level hitem) trivial⟩

end EnumValues

/-!
## Quoted texts and quoted tokens

Three things are said about backslashes in three places: writing puts one in front of a double quote
and of a backslash, the pattern lets one protect any character of the line, and reading takes each
one away with no look at what it protects.  `quotedTexts` says that they agree: the quoted form of a
text is one token exactly if the text has no line feed, and reading always gives the text back.

A token may have been written by hand with other backslashes.  What it stands for has no line feed,
so its quoted form is a token too, which stands for the same.
-/

/-- Cutting the text into tokens gives one quoted token, from the first byte to the last, and the
end of the file, without errors. -/
def IsQuotedToken (text : String) : Prop :=
  ∃ token final, tokenize text = ⟨[token, final], []⟩ ∧ token.kind = .quoted ∧ token.text = text ∧
    token.span = ⟨0, text.utf8ByteSize⟩ ∧ final.kind = .endOfFile

/-- How writing texts in quotes, cutting sources into tokens and reading quoted tokens fit
together. -/
structure QuotedTexts : Prop where
  /-- The quoted form of a text is a token exactly if the text has no line feed. -/
  token_iff : ∀ text : String, IsQuotedToken (Quoted.write text) ↔ '\n' ∉ text.toList
  /-- Every text is read back from its quoted form. -/
  read_back : ∀ text : String, Quoted.read (Quoted.write text) = text
  /-- What a quoted token of a source stands for has no line feed, and its quoted form is again a
  token that stands for it. -/
  rewritten : ∀ source : String, ∀ t ∈ (tokenize source).tokens, t.kind = .quoted →
    '\n' ∉ (Quoted.read t.text).toList ∧ IsQuotedToken (Quoted.write (Quoted.read t.text)) ∧
      Quoted.read (Quoted.write (Quoted.read t.text)) = Quoted.read t.text

/-! ### Sources of a single token -/

/-- A slice that is as long as the source starts where the source does. -/
theorem IsSlice.span_eq_whole {text : List Char} {span : Span} (h : IsSlice text span text) :
    span = ⟨0, utf8Length text⟩ := by
  obtain ⟨before, after, hsplit, hstart, hstop⟩ := h
  have hlength := congrArg List.length hsplit
  simp only [List.length_append] at hlength
  obtain rfl : before = [] := List.length_eq_zero_iff.1 (by omega)
  obtain ⟨start, stop⟩ := span
  exact congrArg₂ Span.mk hstart hstop

/-- A text is a quoted token exactly if it fits the pattern of one. -/
theorem isQuotedToken_iff {text : String} :
    IsQuotedToken text ↔ TokenKind.quoted.Matches text.toList := by
  constructor
  · rintro ⟨token, final, hlexed, hkind, htext, -, -⟩
    have hmem : token ∈ (tokenize text).tokens := by simp [hlexed]
    have hfits := (token_highestFor (by rw [hlexed]) hmem (by simp [hkind])).fits
    rwa [hkind, htext] at hfits
  · intro h
    have hscans := Scans.quoted h []
    rw [List.append_nil] at hscans
    obtain ⟨herrors, tokens, final, htokens, hkinds, hfinal, hlexemes⟩ := tokenize_of_scans hscans
    obtain ⟨token, rfl, hlexeme⟩ := List.map_eq_singleton_iff.1 hlexemes
    obtain ⟨hkind, htext⟩ := Prod.mk.inj hlexeme
    have hmem : token ∈ (tokenize text).tokens := by simp [htokens]
    have hslice := (token_slice hmem (hkinds token (by simp))).2
    rw [htext] at hslice
    refine ⟨token, final, congrArg₂ Lexed.mk htokens herrors, hkind, htext, ?_, hfinal⟩
    rw [hslice.span_eq_whole, utf8Length_toList]

/-! ### The quoted form -/

namespace Quoted

theorem mem_escape {text : List Char} {c : Char} (h : c ∈ text) : c ∈ escape text := by
  induction text with
  | nil => cases h
  | cons d text ih =>
    rw [escape]
    rcases List.mem_cons.1 h with rfl | h
    · split <;> simp
    · split <;> simp [ih h]

/-- A quoted form that fits the pattern is on one line, and so is the text in it. -/
theorem write_matches_iff {text : String} :
    TokenKind.quoted.Matches (write text).toList ↔ '\n' ∉ text.toList := by
  constructor
  · intro h hmem
    refine newline_notMem_of_matches h ?_
    simp [write, mem_escape hmem]
  · exact write_matches

theorem isQuotedToken_write_iff {text : String} :
    IsQuotedToken (write text) ↔ '\n' ∉ text.toList :=
  isQuotedToken_iff.trans write_matches_iff

end Quoted

/-- The quoted form of a text is one token exactly if the text has no line feed, every text is read
back from its quoted form, and what a token stands for can be written and read again. -/
theorem quotedTexts : QuotedTexts where
  token_iff _ := Quoted.isQuotedToken_write_iff
  read_back := Quoted.read_write
  rewritten := by
    intro source t ht hk
    obtain ⟨before, after, -, -, hclassified⟩ := token_classified ht (by simp [hk])
    have hfits : TokenKind.quoted.Matches t.text.toList := hk ▸ hclassified.fits
    have hline := Quoted.newline_notMem_read hfits
    exact ⟨hline, Quoted.isQuotedToken_write_iff.2 hline, Quoted.read_write _⟩

/-- Backslashes in front of quotes and at the end: written by hand with more of them than needed,
and read back from the form with as many as needed. -/
example : Quoted.read "\"\\a\\\"\\\\\"" = "a\"\\" ∧
    Quoted.write "a\"\\" = "\"a\\\"\\\\\"" := by decide

/-!
## Splitting and joining dotted references

A text is split at every dot, so each dot makes one more segment and no segment holds one.  Joining
the segments gives the text back, whatever it is: dots in front, behind or next to each other stand
between empty segments, and the empty text is one empty segment.

In the other direction a path comes back exactly if splitting can give it (`dotted_inverse`): there
is a segment, and none holds a dot.  Other paths come from trees that were not parsed.
-/

namespace Reference

/-! ### Segments -/

/-- Each separator makes one more segment. -/
theorem length_splitOn (separator : Char) (text : List Char) :
    (text.splitOn separator).length = text.count separator + 1 := by
  induction text with
  | nil => rfl
  | cons c text ih =>
    rw [List.splitOn_cons_eq_if_modifyHead]
    by_cases hc : c = separator
    · simp [hc, ih]
    · simp [hc, ih]

/-- No segment holds the separator. -/
theorem separator_notMem_splitOn (separator : Char) (text : List Char) :
    ∀ segment ∈ text.splitOn separator, separator ∉ segment := by
  induction text with
  | nil => simp
  | cons c text ih =>
    obtain ⟨first, others, hsplit⟩ :=
      List.exists_cons_of_ne_nil (List.splitOn_ne_nil separator text)
    rw [hsplit, List.forall_mem_cons] at ih
    rw [List.splitOn_cons_eq_if_modifyHead, hsplit]
    by_cases hc : c = separator
    · rw [if_pos (beq_iff_eq.2 hc)]
      simpa using ih
    · rw [if_neg (by simpa using hc), List.modifyHead_cons, List.forall_mem_cons]
      have hfirst : separator ∉ c :: first := by
        rw [List.mem_cons, not_or]
        exact ⟨Ne.symm hc, ih.1⟩
      exact ⟨hfirst, ih.2⟩

theorem segments_ne_nil (text : String) : segments text ≠ [] := by
  simp [segments, List.splitOn_ne_nil]

theorem length_segments (text : String) :
    (segments text).length = text.toList.count '.' + 1 := by
  rw [segments, List.length_map, length_splitOn]

theorem dot_notMem_segments {text segment : String} (h : segment ∈ segments text) :
    '.' ∉ segment.toList := by
  obtain ⟨chars, hchars, rfl⟩ := List.mem_map.1 h
  rw [String.toList_ofList]
  exact separator_notMem_splitOn '.' text.toList chars hchars

/-! ### Joining -/

/-- The dotted form of segments without dots is split into them again. -/
theorem segments_dotted {r : Reference} (hne : r.path ≠ [])
    (hdots : ∀ segment ∈ r.path, '.' ∉ segment.toList) : segments r.dotted = r.path := by
  have hchars : r.dotted.toList = ['.'].intercalate (r.path.map String.toList) := by
    simp [dotted]
  have hparts : ∀ chars ∈ r.path.map String.toList, '.' ∉ chars := by
    simpa using hdots
  rw [segments, hchars, List.splitOn_intercalate '.' hparts (by simpa using hne), List.map_map]
  simp [Function.comp_def]

/-- Every text is the dotted form of its segments, of which it has one more than dots; and a path is
read back from its dotted form exactly if it is not empty and no segment holds a dot. -/
theorem dotted_inverse :
    (∀ (text : String) (span : Span), (ofDotted text span).dotted = text ∧
      (ofDotted text span).path.length = text.toList.count '.' + 1) ∧
    ∀ r : Reference, ofDotted r.dotted r.span = r ↔
      r.path ≠ [] ∧ ∀ segment ∈ r.path, '.' ∉ segment.toList := by
  refine ⟨fun text span => ⟨dotted_ofDotted text span, length_segments text⟩, fun r => ⟨?_, ?_⟩⟩
  · intro h
    have hpath : segments r.dotted = r.path := congrArg path h
    rw [← hpath]
    exact ⟨segments_ne_nil r.dotted, fun segment => dot_notMem_segments⟩
  · rintro ⟨hne, hdots⟩
    rw [ofDotted, segments_dotted hne hdots]

/-- The paths that are not read back: the empty one, and one with a dot in a segment. -/
example : (ofDotted (dotted ⟨[], .origin⟩) .origin).path = [""] ∧
    (ofDotted (dotted ⟨["a.b", ""], .origin⟩) .origin).path = ["a", "b", ""] := by decide

end Reference

end SyslModel
