import SyslModel.Parsed
import SyslModel.Proofs.Grammar.Mistake
import SyslModel.Proofs.Source.LineIndex
import SyslModel.Proofs.Token.Lossless
/-!
# What the diagnostics of a source are

`parseRule_reported` says of every source and every rule what is recorded and where it points: the
lexical errors in their order, and behind them the syntax error, if there is one.  A value and no
diagnostic come together, so a caller may ask for either.

All spans and positions come from the stretches of the source or from its end, and each of these has
been placed by going over the text in front of it.
-/

namespace SyslModel

/-- A span of a source, and the line and the column where it starts: the line counts the line feeds
in front of the span, the column the characters behind the last of them, both from one. -/
def Anchored (source : List Char) (span : Span) (position : Position) : Prop :=
  ∃ before text after, SliceAt source span before text after ∧
    position = ⟨before.count '\n' + 1, (Position.lastLine before).length + 1⟩

/-- The entry of a syntax error among the tokens of a source. -/
structure Diagnostic.IsSyntactic (source : String) (d : Diagnostic) : Prop where
  /-- The entry is one of a syntax error. -/
  stage : d.stage = .syntactic
  /-- It names a rule. -/
  rule : d.rule.isSome
  /-- It stands where a token of the source stands. -/
  token : ∃ t ∈ (tokenize source).tokens, d.span = t.span ∧ d.position = t.position

/-- What parsing a source by a rule reports. -/
structure Reported (source : String) (rule : Rule) (parsed : Parsed Fragment) : Prop where
  /-- There is one entry for each lexical error, in the order of the source, and behind them at most
  one for a syntax error.  A rule of its own has a value exactly if that one is missing. -/
  entries : ∃ syntactic : Option Diagnostic,
    parsed.diagnostics =
      (tokenize source).errors.map Diagnostic.ofLexicalError ++ syntactic.toList ∧
    (∀ d ∈ syntactic, d.IsSyntactic source) ∧
    (rule ≠ .model → (parsed.value = none ↔ syntactic ≠ none))
  /-- The entry of a lexical error names no rule. -/
  lexical : ∀ d ∈ (tokenize source).errors.map Diagnostic.ofLexicalError,
    d.stage = .lexical ∧ d.rule = none
  /-- A whole file always has a value. -/
  model : rule = .model → parsed.value ≠ none
  /-- The result is a value exactly if there is no entry. -/
  ok : (∃ value, parsed.result = .ok value) ↔ parsed.diagnostics = []
  /-- A result that is no value is the entries, and there are some. -/
  error : ∀ diagnostics, parsed.result = .error diagnostics →
    diagnostics = parsed.diagnostics ∧ diagnostics ≠ []
  /-- Every entry is anchored in the source. -/
  anchored : ∀ d ∈ parsed.diagnostics, Anchored source.toList d.span d.position

/-! ## Anchors -/

theorem anchored_of_mem_stretches {source : String} {p : PlacedPiece} (h : p ∈ stretches source) :
    Anchored source.toList p.span p.place.position := by
  obtain ⟨before, tail, -, hslice, hplace⟩ := slice_and_place_of_mem_placed h
  rw [joinRuns_flatten, pieces_flatten] at hslice
  refine ⟨before, p.piece.text, tail.flatMap Piece.text, hslice, ?_⟩
  rw [hplace]
  exact Position.first_after before

theorem anchored_of_mem_tokens {source : String} {t : Token} (h : t ∈ (tokenize source).tokens) :
    Anchored source.toList t.span t.position := by
  rcases mem_tokens h with ⟨p, hp, hpt⟩ | rfl
  · obtain ⟨-, -, hspan, hposition⟩ := token?_eq_some_iff.1 hpt
    rw [hspan, hposition]
    exact anchored_of_mem_stretches hp
  · refine ⟨source.toList, [], [], ⟨by simp, ?_, ?_⟩, Position.first_after _⟩ <;>
      simp [Token.endOfFile, Span.emptyAt, Location.first]

theorem anchored_of_mem_errors {source : String} {e : LexicalError}
    (h : e ∈ (tokenize source).errors) : Anchored source.toList e.span e.position := by
  obtain ⟨p, hp, hpe⟩ := mem_errors h
  obtain ⟨-, -, hspan, hposition⟩ := error?_eq_some_iff.1 hpe
  rw [hspan, hposition]
  exact anchored_of_mem_stretches hp

/-! ## The entries -/

/-- A syntax error reports one of the tokens, or their end. -/
theorem mistake?_token_mem {rule : Rule} {s : Stream} {failure : Failure}
    (h : mistake? rule s = some failure) : failure.error.token ∈ s.ahead ++ [s.final] := by
  obtain ⟨read, hread, hstops, -⟩ := mistake?_stops h
  obtain ⟨before, -, -, behind, hbehind⟩ := hstops.reported
  rw [hread.ahead, ← hread.final, hbehind]
  simp

theorem Parsed.result_ok_iff {α : Type} {parsed : Parsed α}
    (h : parsed.value = none → parsed.diagnostics ≠ []) :
    (∃ value, parsed.result = .ok value) ↔ parsed.diagnostics = [] := by
  obtain ⟨value, diagnostics⟩ := parsed
  cases value with
  | none => simpa [Parsed.result] using h rfl
  | some value => cases diagnostics <;> simp [Parsed.result, Parsed.isOk]

theorem Parsed.result_error {α : Type} {parsed : Parsed α}
    (h : parsed.value = none → parsed.diagnostics ≠ []) {diagnostics : List Diagnostic}
    (herror : parsed.result = .error diagnostics) :
    diagnostics = parsed.diagnostics ∧ diagnostics ≠ [] := by
  obtain ⟨value, recorded⟩ := parsed
  cases value with
  | none =>
    obtain rfl := Except.error.inj herror
    exact ⟨rfl, h rfl⟩
  | some value =>
    cases recorded with
    | nil => cases herror
    | cons d others =>
      obtain rfl := Except.error.inj herror
      exact ⟨rfl, List.cons_ne_nil _ _⟩

/-- Behind the lexical errors at most one syntax error is recorded, and a rule of its own has a
value exactly if none is. -/
theorem parseRule_entries (source : String) (rule : Rule) : ∃ syntactic : Option Diagnostic,
    (parseRule source rule).diagnostics =
      (tokenize source).errors.map Diagnostic.ofLexicalError ++ syntactic.toList ∧
    (∀ d ∈ syntactic, d.IsSyntactic source) ∧
    (rule ≠ .model → ((parseRule source rule).value = none ↔ syntactic ≠ none)) := by
  obtain ⟨tokens, final, htokens, hfinal, -, -, hkinds⟩ := final_token source
  let session := Session.ofTokens (tokenize source).tokens
  have hstream : session.stream = ⟨[], tokens, final⟩ := by
    show Stream.ofTokens (tokenize source).tokens = _
    rw [htokens]
    exact Stream.ofTokens_cut hkinds hfinal []
  obtain ⟨name, hname⟩ := session.readRule_diagnostics rule
  have hentries : (parseRule source rule).diagnostics =
      (tokenize source).errors.map Diagnostic.ofLexicalError
        ++ Session.entry (mistake? rule session.stream) name :=
    congrArg (List.append _) hname
  refine ⟨_, hentries, ?_, ?_⟩
  · intro d hd
    obtain ⟨failure, hfailure, rfl⟩ := Option.map_eq_some_iff.1 hd
    refine ⟨rfl, rfl, failure.error.token, ?_, rfl, rfl⟩
    have hmem := mistake?_token_mem hfailure
    rwa [hstream, ← htokens] at hmem
  · intro hne
    exact (session.readRule_eq_none_iff hne).trans (not_congr Option.map_eq_none_iff.symm)

/-- A whole file always has a value, and where another rule has none, a syntax error is recorded. -/
theorem parseRule_value_eq_none {source : String} {rule : Rule}
    (h : (parseRule source rule).value = none) :
    rule ≠ .model ∧ (parseRule source rule).diagnostics ≠ [] := by
  have hne : rule ≠ .model := by
    rintro rfl
    cases h
  obtain ⟨syntactic, hentries, -, hvalue⟩ := parseRule_entries source rule
  obtain ⟨d, hd⟩ := Option.ne_none_iff_exists'.1 ((hvalue hne).1 h)
  refine ⟨hne, ?_⟩
  rw [hentries, hd]
  simp

/-- Whatever the source and the rule are: every lexical error is recorded, behind them at most one
syntax error is, a rule has a value exactly if it has no syntax error, and every entry says where
in the source it stands. -/
theorem parseRule_reported (source : String) (rule : Rule) :
    Reported source rule (parseRule source rule) where
  entries := parseRule_entries source rule
  lexical := by
    intro d hd
    obtain ⟨e, -, rfl⟩ := List.mem_map.1 hd
    exact ⟨rfl, rfl⟩
  model := fun hrule hnone => (parseRule_value_eq_none hnone).1 hrule
  ok := Parsed.result_ok_iff fun hnone => (parseRule_value_eq_none hnone).2
  error := fun _ => Parsed.result_error fun hnone => (parseRule_value_eq_none hnone).2
  anchored := by
    intro d hd
    obtain ⟨syntactic, hentries, hsyntactic, -⟩ := parseRule_entries source rule
    rw [hentries, List.mem_append] at hd
    rcases hd with hd | hd
    · obtain ⟨e, he, rfl⟩ := List.mem_map.1 hd
      exact anchored_of_mem_errors he
    · obtain ⟨t, ht, hspan, hposition⟩ := (hsyntactic d (Option.mem_toList.1 hd)).token
      rw [hspan, hposition]
      exact anchored_of_mem_tokens ht

end SyslModel
