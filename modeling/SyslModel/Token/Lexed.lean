import SyslModel.Source
import SyslModel.Token.Kind
/-!
# From a source to its tokens

A source is cut into pieces from left to right.  The pieces are then placed, the tokens among them
kept and the bad ones reported (`tokenize`).
-/

namespace SyslModel

/-!
## A source cut into pieces

Reading from left to right, a source falls into pieces: tokens, blanks (a character of white space,
or a comment from `#` to the end of the line) and bad text that no pattern fits.  The pieces are not
empty and put together they are the source again (`pieces_flatten`), so nothing is lost and nothing
is read twice.

A token is the longest text that fits a pattern, and the earlier kind takes a text that fits two.  A
word that is a method or a primitive loses its special meaning in front of a dot.
-/

/-- What a stretch of the source is. -/
inductive PieceKind where
  /-- A token. -/
  | token (kind : TokenKind)
  /-- A character of white space, or a comment. -/
  | blank
  /-- Text that fits no pattern. -/
  | bad
  deriving DecidableEq, Inhabited

/-- A stretch of the source. -/
structure Piece where
  /-- What the stretch is. -/
  kind : PieceKind
  /-- The characters of the stretch. -/
  text : List Char
  deriving DecidableEq, Inhabited

/-! ### The longest token -/

/-- A kind with a text that it fits. -/
abbrev Candidate := TokenKind × List Char

namespace Candidate

/-- The first of the longest candidates. -/
def firstLongest : List Candidate → Option Candidate
  | [] => none
  | candidate :: others =>
    match firstLongest others with
    | none => some candidate
    | some other =>
      if candidate.2.length < other.2.length then some other else some candidate

/-- Each kind that fits the front of a source, with the longest text that it fits. -/
def all (source : List Char) : List Candidate :=
  TokenKind.byPriority.filterMap fun kind => (kind.pattern.longest source).map (kind, ·)

theorem firstLongest_mem {candidates : List Candidate} {best : Candidate}
    (h : firstLongest candidates = some best) : best ∈ candidates := by
  induction candidates generalizing best with
  | nil => simp [firstLongest] at h
  | cons candidate others ih =>
    rw [firstLongest] at h
    split at h
    · simp_all
    · next other ho =>
      split at h
      · obtain rfl := Option.some.inj h
        exact List.mem_cons_of_mem _ (ih ho)
      · simp_all

theorem mem_all {source : List Char} {candidate : Candidate} :
    candidate ∈ all source ↔
      candidate.1 ∈ TokenKind.byPriority ∧
        candidate.1.pattern.longest source = some candidate.2 := by
  obtain ⟨kind, text⟩ := candidate
  simp only [all, List.mem_filterMap, Option.map_eq_some_iff, Prod.mk.injEq]
  constructor
  · rintro ⟨k, hk, t, ht, rfl, rfl⟩
    exact ⟨hk, ht⟩
  · rintro ⟨hk, ht⟩
    exact ⟨kind, hk, text, ht, rfl, rfl⟩

end Candidate

/-- The kind of a token in front of a text: in front of a dot only the generic one is left. -/
def TokenKind.before (kind : TokenKind) : List Char → TokenKind
  | '.' :: _ => kind.generic
  | _ => kind

/-- The token at the front of a source. -/
def frontToken (source : List Char) : Option Candidate :=
  (Candidate.firstLongest (Candidate.all source)).map fun best =>
    (best.1.before (source.drop best.2.length), best.2)

theorem frontToken_spec {source : List Char} {token : Candidate}
    (h : frontToken source = some token) : token.2 <+: source ∧ token.2 ≠ [] := by
  obtain ⟨best, hbest, rfl⟩ := Option.map_eq_some_iff.1 h
  obtain ⟨hkind, hlongest⟩ := Candidate.mem_all.1 (Candidate.firstLongest_mem hbest)
  refine ⟨Pattern.longest_isPrefix hlongest, TokenKind.longest_ne_nil ?_ hlongest⟩
  rintro heof
  rw [heof] at hkind
  revert hkind
  decide

/-! ### The pieces -/

/-- The blank stretch at the front of a source: one character of white space, or a comment. -/
def frontBlank : List Char → List Char
  | '#' :: rest => '#' :: rest.takeWhile (· ≠ '\n')
  | c :: _ => if isBlank c then [c] else []
  | [] => []

/-- The bad text at the front of a source in which no token starts: the rest of the line behind a
double quote, else a single character. -/
def frontBad : List Char → List Char
  | '"' :: rest => '"' :: rest.takeWhile (· ≠ '\n')
  | source => source.take 1

/-- The piece at the front of a source. -/
def frontPiece (source : List Char) : Piece :=
  if frontBlank source ≠ [] then ⟨.blank, frontBlank source⟩
  else
    match frontToken source with
    | some (kind, text) => ⟨.token kind, text⟩
    | none => ⟨.bad, frontBad source⟩

theorem frontBlank_isPrefix (source : List Char) : frontBlank source <+: source := by
  unfold frontBlank
  split
  · simpa using List.takeWhile_prefix _
  · split <;> simp
  · simp

theorem frontBad_isPrefix (source : List Char) : frontBad source <+: source := by
  unfold frontBad
  split
  · simpa using List.takeWhile_prefix _
  · exact List.take_prefix _ _

theorem frontPiece_isPrefix (source : List Char) : (frontPiece source).text <+: source := by
  unfold frontPiece
  split
  · exact frontBlank_isPrefix source
  · split
    · next h => exact (frontToken_spec h).1
    · exact frontBad_isPrefix source

theorem frontPiece_ne_nil {source : List Char} (h : source ≠ []) :
    (frontPiece source).text ≠ [] := by
  unfold frontPiece
  split
  · assumption
  · split
    · next ht => exact (frontToken_spec ht).2
    · unfold frontBad
      split
      · simp
      · simp [h]

/-- The source cut into pieces. -/
def pieces (source : List Char) : List Piece :=
  if h : source = [] then []
  else
    have : 0 < (frontPiece source).text.length := List.length_pos_iff.2 (frontPiece_ne_nil h)
    have : 0 < source.length := List.length_pos_iff.2 h
    frontPiece source :: pieces (source.drop (frontPiece source).text.length)
  termination_by source.length

@[simp] theorem pieces_nil : pieces [] = [] := by
  rw [pieces, dif_pos rfl]

theorem pieces_of_ne_nil {source : List Char} (h : source ≠ []) :
    pieces source =
      frontPiece source :: pieces (source.drop (frontPiece source).text.length) := by
  rw [pieces, dif_neg h]

/-- Put together, the pieces are the source. -/
theorem pieces_flatten (source : List Char) : (pieces source).flatMap Piece.text = source := by
  fun_induction pieces source with
  | case1 => rfl
  | case2 source h _ _ ih =>
    rw [List.flatMap_cons, ih]
    exact List.prefix_iff_eq_append.1 (frontPiece_isPrefix source)

/-- No piece is empty. -/
theorem text_ne_nil_of_mem_pieces {source : List Char} {piece : Piece}
    (h : piece ∈ pieces source) : piece.text ≠ [] := by
  fun_induction pieces source with
  | case1 => simp at h
  | case2 source hne _ _ ih =>
    rcases List.mem_cons.1 h with rfl | h
    · exact frontPiece_ne_nil hne
    · exact ih h

/-! ### Bad text that touches -/

/-- The pieces with neighbouring bad ones joined. -/
def joinBad : List Piece → List Piece
  | [] => []
  | piece :: others =>
    match piece.kind, joinBad others with
    | .bad, ⟨.bad, text⟩ :: rest => ⟨.bad, piece.text ++ text⟩ :: rest
    | _, rest => piece :: rest

/-!
## Tokens and lexical errors

`tokenize` places the pieces of a source, keeps the tokens among them and reports the bad ones; bad
pieces that touch are reported as one.  Nothing stops it: every source has tokens, and the last one
is the end of the file.
-/

/-- A token with its text and its place. -/
structure Token where
  /-- What the token is. -/
  kind : TokenKind
  /-- The characters of the token. -/
  text : String
  /-- The bytes that the token takes up. -/
  span : Span
  /-- Where the token starts. -/
  position : Position
  deriving DecidableEq, Inhabited

/-- Why a text is no token. -/
inductive LexicalFault where
  /-- No pattern fits the text. -/
  | unrecognized (text : String)
  /-- The text starts like a quoted one, but its line ends first. -/
  | unterminatedString
  deriving DecidableEq, Inhabited

/-- A text that is no token, and its place. -/
structure LexicalError where
  /-- Why the text is no token. -/
  fault : LexicalFault
  /-- The bytes that the text takes up. -/
  span : Span
  /-- Where the text starts. -/
  position : Position
  deriving DecidableEq, Inhabited

namespace LexicalError

/-- The words that report the error. -/
def message (e : LexicalError) : String :=
  match e.fault with
  | .unrecognized text => "unrecognized input '" ++ text ++ "'"
  | .unterminatedString => "unterminated string literal"

end LexicalError

/-- What reading the tokens of a source gives. -/
structure Lexed where
  /-- The tokens in order; the last one is the end of the file. -/
  tokens : List Token
  /-- The errors in order. -/
  errors : List LexicalError
  deriving DecidableEq, Inhabited

namespace Lexed

/-- Is the source free of lexical errors? -/
def isOk (lexed : Lexed) : Bool := lexed.errors.isEmpty

end Lexed

/-- A piece together with the location where it starts. -/
structure PlacedPiece where
  /-- Where the piece starts. -/
  place : Location
  /-- The piece. -/
  piece : Piece
  deriving DecidableEq, Inhabited

namespace PlacedPiece

/-- The bytes that a piece takes up. -/
def span (p : PlacedPiece) : Span :=
  ⟨p.place.offset, p.place.offset + utf8Length p.piece.text⟩

/-- The token that a piece is, if it is one. -/
def token? (p : PlacedPiece) : Option Token :=
  match p.piece.kind with
  | .token kind => some ⟨kind, String.ofList p.piece.text, p.span, p.place.position⟩
  | .blank | .bad => none

/-- Why a bad text is no token: its first character tells. -/
def fault (text : List Char) : LexicalFault :=
  if text.head? = some '"' then .unterminatedString else .unrecognized (String.ofList text)

/-- The error that a piece is, if it is one. -/
def error? (p : PlacedPiece) : Option LexicalError :=
  match p.piece.kind with
  | .bad => some ⟨fault p.piece.text, p.span, p.place.position⟩
  | .token _ | .blank => none

end PlacedPiece

/-- Pieces that follow one another, each with its place. -/
def placed (place : Location) : List Piece → List PlacedPiece
  | [] => []
  | piece :: others => ⟨place, piece⟩ :: placed (place.after piece.text) others

/-- The token behind the last one. -/
def Token.endOfFile (place : Location) : Token :=
  ⟨.endOfFile, "", Span.emptyAt place.offset, place.position⟩

/-- The tokens and the lexical errors of a source. -/
def tokenize (source : String) : Lexed :=
  let stretches := placed Location.first (joinBad (pieces source.toList))
  { tokens := stretches.filterMap PlacedPiece.token?
      ++ [Token.endOfFile (Location.first.after source.toList)]
    errors := stretches.filterMap PlacedPiece.error? }

end SyslModel
