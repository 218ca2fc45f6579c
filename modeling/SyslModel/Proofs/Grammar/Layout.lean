import SyslModel.Proofs.Diagnostics
import SyslModel.Proofs.Grammar.Relocation
import SyslModel.Proofs.RoundTrip.Reparse
import SyslModel.Proofs.Token.Resume
/-!
# What stands between tokens

Reading looks at tokens and not at places.  So it makes no difference to a tree, but for its spans,
what stands between the tokens: other blanks, other comments, or spaces in place of bad text.
-/

namespace SyslModel

/-!
## Layout is not significant

`parse_layout` compares a source without lexical errors with any text that has the same tokens in
it, separated by other white space and other comments.  The tokens are the same, and whatever rule
reads them, the trees differ in spans at most and the diagnostics say the same in other places.

Two facts are put together: a token that is the highest kind for its text is read wherever white
space or a comment stands behind it, and reading tokens does not look at places.
-/

/-! ### Gaps -/

/-- White space and comments, each of them ended by a line feed. -/
inductive Gap : List Char → Prop
  /-- Nothing. -/
  | nil : Gap []
  /-- A character of white space. -/
  | blank {c : Char} {gap : List Char} : isBlank c = true → Gap gap → Gap (c :: gap)
  /-- A comment with its line feed. -/
  | comment {line gap : List Char} : '\n' ∉ line → Gap gap → Gap ('#' :: (line ++ '\n' :: gap))

/-- A gap at the end of the input, where a comment needs no line feed. -/
inductive LastGap : List Char → Prop
  /-- A gap like any other. -/
  | gap {gap : List Char} : Gap gap → LastGap gap
  /-- A gap with a comment that runs to the end. -/
  | comment {gap line : List Char} : Gap gap → '\n' ∉ line → LastGap (gap ++ '#' :: line)

/-- Texts in a row: there is a gap between any two of them that is not empty, and one behind the
last. -/
inductive Spaced : List String → List Char → Prop
  /-- The last text. -/
  | last {text : String} {gap : List Char} : LastGap gap → Spaced [text] (text.toList ++ gap)
  /-- A text in front of others. -/
  | cons {text : String} {texts : List String} {gap source : List Char} : Gap gap → gap ≠ [] →
      Spaced texts source → Spaced (text :: texts) (text.toList ++ (gap ++ source))

/-- A source that has these texts in a row, with any layout around them. -/
inductive LaidOut : List String → List Char → Prop
  /-- No text at all. -/
  | none {gap : List Char} : LastGap gap → LaidOut [] gap
  /-- A gap and then the texts. -/
  | some {texts : List String} {gap source : List Char} : Gap gap → Spaced texts source →
      LaidOut texts (gap ++ source)

/-! ### Reading over gaps -/

theorem Gap.scans {gap : List Char} (h : Gap gap) (rest : List Char) :
    Scans (gap ++ rest) [] rest := by
  induction h with
  | nil => exact .refl rest
  | blank hc _ ih => exact .blank hc ih
  | @comment line gap hline _ ih =>
    have hnewline : Scans ('\n' :: (gap ++ rest)) [] rest := .blank (by decide) ih
    have hends : EndsLine ('\n' :: (gap ++ rest)) := fun c hc => (Option.some.inj hc).symm
    have hall := Scans.comment hline hends hnewline
    rwa [List.cons_append, List.append_assoc]

theorem LastGap.scans {gap : List Char} (h : LastGap gap) : Scans gap [] [] := by
  cases h with
  | gap h =>
    have hgap := h.scans []
    rwa [List.append_nil] at hgap
  | @comment gap line h hline =>
    have hcomment : Scans ('#' :: (line ++ [])) [] [] :=
      .comment hline (fun _ hc => nomatch hc) (.refl [])
    rw [List.append_nil] at hcomment
    exact (h.scans _).trans hcomment

/-- No word reaches into a gap. -/
theorem Gap.endsWord {gap : List Char} (h : Gap gap) (hne : gap ≠ []) (rest : List Char) :
    EndsWord (gap ++ rest) := by
  intro c hc
  cases h with
  | nil => exact absurd rfl hne
  | @blank d gap hb _ =>
    obtain rfl : d = c := Option.some.inj hc
    have hcases : d = ' ' ∨ d = '\t' ∨ d = '\r' ∨ d = '\n' ∨ d = '\x0c' := by
      simpa [isBlank] using hb
    rcases hcases with rfl | rfl | rfl | rfl | rfl <;> decide
  | comment _ _ =>
    obtain rfl := Option.some.inj hc
    decide

theorem LastGap.endsWord {gap : List Char} (h : LastGap gap) : EndsWord gap := by
  cases h with
  | gap h =>
    by_cases hne : gap = []
    · subst hne
      exact fun c hc => nomatch hc
    · have hgap := h.endsWord hne []
      rwa [List.append_nil] at hgap
  | @comment gap line h hline =>
    by_cases hne : gap = []
    · subst hne
      intro c hc
      obtain rfl := Option.some.inj hc
      decide
    · exact h.endsWord hne _

/-- A token of the highest kind for its text is read in front of a gap. -/
theorem Scans.writes {kind : TokenKind} {text : String} {rest : List Char} (h : kind.Writes text)
    (hk : kind ≠ .endOfFile) (hrest : EndsWord rest) :
    Scans (text.toList ++ rest) [(kind, text)] rest := by
  cases kind with
  | punctuation p =>
    obtain rfl : text = p.text := String.toList_injective (mem_literal.1 h.fits)
    exact .mark p rest
  | quoted => exact .quoted h.fits rest
  | endOfFile => exact absurd rfl hk
  | _ => exact .word rfl h hrest

/-- A source that has the texts of tokens in a row has these tokens. -/
theorem Spaced.scans {lexemes : List Lexeme} {source : List Char}
    (hlexemes : ∀ l ∈ lexemes, l.1.Writes l.2 ∧ l.1 ≠ .endOfFile)
    (h : Spaced (lexemes.map Prod.snd) source) : Scans source lexemes [] := by
  induction lexemes generalizing source with
  | nil => cases h
  | cons l lexemes ih =>
    obtain ⟨hl, hothers⟩ := List.forall_mem_cons.1 hlexemes
    generalize htexts : (l :: lexemes).map Prod.snd = texts at h
    cases h with
    | last hgap =>
      obtain ⟨rfl, hnil⟩ := List.cons.inj htexts
      obtain rfl := List.map_eq_nil_iff.1 hnil
      exact (Scans.writes hl.1 hl.2 hgap.endsWord).trans hgap.scans
    | cons hgap hne hrest =>
      obtain ⟨rfl, rfl⟩ := List.cons.inj htexts
      have hscan := (hgap.scans _).trans (ih hothers hrest)
      exact (Scans.writes hl.1 hl.2 (hgap.endsWord hne _)).trans hscan

theorem LaidOut.scans {lexemes : List Lexeme} {source : List Char}
    (hlexemes : ∀ l ∈ lexemes, l.1.Writes l.2 ∧ l.1 ≠ .endOfFile)
    (h : LaidOut (lexemes.map Prod.snd) source) : Scans source lexemes [] := by
  generalize htexts : lexemes.map Prod.snd = texts at h
  cases h with
  | none hgap =>
    obtain rfl := List.map_eq_nil_iff.1 htexts
    exact hgap.scans
  | some hgap hrest =>
    subst htexts
    exact (hgap.scans _).trans (hrest.scans hlexemes)

/-! ### Two sources with the same tokens -/

/-- The texts of the tokens in front of the end of the file. -/
def Lexed.texts (lexed : Lexed) : List String :=
  (lexed.tokens.takeWhile fun t => t.kind ≠ .endOfFile).map Token.text

/-- What a diagnostic says, without its place. -/
def Diagnostic.gist (d : Diagnostic) : Stage × Option Rule × String := (d.stage, d.rule, d.message)

/-- Two sources are read alike, but for places. -/
structure ReadAlike (source other : String) : Prop where
  /-- The other source has no lexical errors. -/
  errors : (tokenize other).errors = []
  /-- The tokens are of the same kinds and have the same texts. -/
  tokens : (tokenize other).tokens.map Token.lexeme = (tokenize source).tokens.map Token.lexeme
  /-- Whatever the rule, the trees are the same but for spans. -/
  value : ∀ rule, (parseRule other rule).value.map Fragment.unspanned
    = (parseRule source rule).value.map Fragment.unspanned
  /-- Whatever the rule, the diagnostics say the same. -/
  diagnostics : ∀ rule, (parseRule other rule).diagnostics.map Diagnostic.gist
    = (parseRule source rule).diagnostics.map Diagnostic.gist

/-- A token without its place is its kind and its text. -/
theorem Token.relocate_forget (t : Token) :
    t.relocate .forget = ⟨t.lexeme.1, t.lexeme.2, .origin, .first⟩ := rfl

theorem map_forget_eq {tokens others : List Token}
    (h : others.map Token.lexeme = tokens.map Token.lexeme) :
    others.map (Token.relocate .forget) = tokens.map (Token.relocate .forget) := by
  have hmap := congrArg (List.map fun l : Lexeme => (⟨l.1, l.2, .origin, .first⟩ : Token)) h
  rwa [List.map_map, List.map_map] at hmap

/-- Tokens of the same kinds and texts are read alike. -/
theorem readRule_alike {tokens others : List Token} {final last : Token}
    (h : others.map Token.lexeme = tokens.map Token.lexeme) (hfinal : last.lexeme = final.lexeme)
    (rule : Rule) :
    ((Session.before others last).readRule rule).1.map Fragment.unspanned
        = ((Session.before tokens final).readRule rule).1.map Fragment.unspanned ∧
      ((Session.before others last).readRule rule).2.diagnostics.map Diagnostic.gist
        = ((Session.before tokens final).readRule rule).2.diagnostics.map Diagnostic.gist := by
  have hsame : (Session.before others last).relocate .forget
      = (Session.before tokens final).relocate .forget := by
    rw [Session.before_relocate, Session.before_relocate, map_forget_eq h,
      Token.relocate_forget last, Token.relocate_forget final, hfinal]
  have hread := congrArg (Session.readRule · rule) hsame
  simp only [Session.readRule_relocate] at hread
  obtain ⟨hvalue, hsession⟩ := Prod.mk.inj hread
  constructor
  · rwa [show Fragment.respan Relocation.forget.span = Fragment.unspanned from
      funext Fragment.respan_origin] at hvalue
  · have hgist : Diagnostic.gist ∘ Diagnostic.relocate .forget = Diagnostic.gist := rfl
    have hdiagnostics := congrArg (List.map Diagnostic.gist ∘ Session.diagnostics) hsession
    simpa only [Function.comp_apply, Session.relocate, List.map_map, hgist] using hdiagnostics

/-- A source without lexical errors and any text with the same tokens in another layout are read
alike. -/
theorem parse_layout {source other : String} (hlexed : (tokenize source).errors = [])
    (hlaid : LaidOut (tokenize source).texts other.toList) : ReadAlike source other := by
  obtain ⟨tokens, final, htokens, hfinal, htext, -, hkinds⟩ := final_token source
  have htexts : (tokenize source).texts = (tokens.map Token.lexeme).map Prod.snd := by
    rw [Lexed.texts, htokens, List.takeWhile_append_of_pos (by simpa using hkinds)]
    simp [hfinal, Token.lexeme]
  have hwrites : ∀ l ∈ tokens.map Token.lexeme, l.1.Writes l.2 ∧ l.1 ≠ .endOfFile := by
    intro l hl
    obtain ⟨t, ht, rfl⟩ := List.mem_map.1 hl
    have hmem : t ∈ (tokenize source).tokens := htokens ▸ List.mem_append_left _ ht
    exact ⟨token_highestFor hlexed hmem (hkinds t ht), hkinds t ht⟩
  rw [htexts] at hlaid
  obtain ⟨herrors, others, last, hothers, -, -, hlexemes⟩ :=
    tokenize_of_scans (hlaid.scans hwrites)
  obtain ⟨hlast, htext', -⟩ := kinds_of_tokens hothers
  have hend : last.lexeme = final.lexeme := by
    rw [Token.lexeme, Token.lexeme, hlast, hfinal, htext', htext]
  have hread (rule : Rule) := readRule_alike hlexemes hend rule
  have hparse (rule : Rule) := parseRule_of_tokens htokens rule
  have hparse' (rule : Rule) := parseRule_of_tokens hothers rule
  constructor
  · exact herrors
  · rw [hothers, htokens, List.map_append, List.map_append, hlexemes, List.map_singleton,
      List.map_singleton, hend]
  · intro rule
    rw [hparse, hparse']
    exact (hread rule).1
  · intro rule
    rw [hparse, hparse', hlexed, herrors]
    exact (hread rule).2

/-- Comments in front, in between and at the end, one of them without a line feed. -/
theorem parse_layout_comments :
    (tokenize "Shop:").errors = [] ∧
      LaidOut (tokenize "Shop:").texts "# one\nShop :# two".toList ∧
      ReadAlike "Shop:" "# one\nShop :# two" := by
  have herrors : (tokenize "Shop:").errors = [] := by decide +kernel
  have htexts : (tokenize "Shop:").texts = ["Shop", ":"] := by decide +kernel
  have hlaid : LaidOut (tokenize "Shop:").texts "# one\nShop :# two".toList := by
    rw [htexts]
    show LaidOut _ (('#' :: (" one".toList ++ '\n' :: [])) ++
      ("Shop".toList ++ ([' '] ++ (":".toList ++ ([] ++ '#' :: " two".toList)))))
    refine .some (.comment ?_ .nil) (.cons (.blank ?_ .nil) ?_ (.last (.comment .nil ?_)))
    all_goals decide
  exact ⟨herrors, hlaid, parse_layout herrors hlaid⟩

/-!
## Lexical errors act like white space

Reading goes on behind a lexical error, so a source with errors may have a value, and may have a
syntax error besides.  `parseRule_blanked` says that both are those of the source with spaces in
place of its errors: the same tokens, the same value with the same spans, and the same syntax error,
whatever the rule.  Only columns differ, since a character of several bytes becomes as many spaces.

The tokens decide, and reading does not look at places.
-/

/-- The diagnostics of syntax errors. -/
def Parsed.syntactic {α : Type} (parsed : Parsed α) : List Diagnostic :=
  parsed.diagnostics.filter fun d => d.stage = .syntactic

/-- A source reads like the one with spaces in place of its lexical errors. -/
structure ErrorsAreBlank (source : String) : Prop where
  /-- The bytes of the errors, and no others, become spaces. -/
  bytes : (blanked source).toByteArray.data.toList =
    source.toByteArray.data.toList.mapIdx fun i byte =>
      if (tokenize source).errors.any fun e => e.span.hasByte i then 32 else byte
  /-- There are no errors then. -/
  errors : (tokenize (blanked source)).errors = []
  /-- The tokens are the same, up to columns. -/
  tokens : (tokenize (blanked source)).tokens.map (Token.relocate .forgetColumn) =
    (tokenize source).tokens.map (Token.relocate .forgetColumn)
  /-- The value is the same. -/
  value : ∀ rule, (parseRule (blanked source) rule).value = (parseRule source rule).value
  /-- All that is left of the diagnostics is the syntax error, which is the same up to its
  column. -/
  diagnostics : ∀ rule,
    (parseRule (blanked source) rule).diagnostics.map (Diagnostic.relocate .forgetColumn) =
      (parseRule source rule).syntactic.map (Diagnostic.relocate .forgetColumn)

/-- What a session records are the diagnostics of syntax errors. -/
theorem parseRule_syntactic {source : String} {tokens : List Token} {final : Token}
    (h : (tokenize source).tokens = tokens ++ [final]) (rule : Rule) :
    (parseRule source rule).syntactic =
      ((Session.before tokens final).readRule rule).2.diagnostics := by
  obtain ⟨syntactic, hentries, hsyntactic, -⟩ := parseRule_entries source rule
  have hsession := congrArg Parsed.diagnostics (parseRule_of_tokens h rule)
  rw [hentries, List.append_cancel_left_eq] at hsession
  rw [Parsed.syntactic, hentries, ← hsession, List.filter_append, List.filter_eq_nil_iff.2,
    List.nil_append, List.filter_eq_self]
  · intro d hd
    exact decide_eq_true (hsyntactic d (Option.mem_toList.1 hd)).stage
  · intro d hd
    obtain ⟨e, -, rfl⟩ := List.mem_map.1 hd
    exact of_decide_eq_false rfl

/-- Tokens that differ in their columns at most are read in the same way. -/
theorem readRule_forgetColumn {tokens tokens' : List Token} {final final' : Token}
    (h : (tokens ++ [final]).map (Token.relocate .forgetColumn) =
      (tokens' ++ [final']).map (Token.relocate .forgetColumn)) (rule : Rule) :
    ((Session.before tokens final).readRule rule).1 =
        ((Session.before tokens' final').readRule rule).1 ∧
      ((Session.before tokens final).readRule rule).2.diagnostics.map
          (Diagnostic.relocate .forgetColumn) =
        ((Session.before tokens' final').readRule rule).2.diagnostics.map
          (Diagnostic.relocate .forgetColumn) := by
  rw [List.map_append, List.map_append] at h
  obtain ⟨htokens, hfinal⟩ := List.append_inj' h rfl
  have hsession : (Session.before tokens final).relocate .forgetColumn =
      (Session.before tokens' final').relocate .forgetColumn := by
    rw [Session.before_relocate, Session.before_relocate, htokens, List.singleton_inj.1 hfinal]
  have hread := congrArg (fun session => session.readRule rule) hsession
  rw [Session.readRule_relocate, Session.readRule_relocate] at hread
  obtain ⟨hvalue, hrest⟩ := Prod.mk.inj hread
  have hsame (value : Option Fragment) :
      value.map (Fragment.respan Relocation.forgetColumn.span) = value := by
    rw [show Relocation.forgetColumn.span = id from rfl, funext Fragment.respan_id]
    exact Option.map_id'
  rw [hsame, hsame] at hvalue
  exact ⟨hvalue, congrArg Session.diagnostics hrest⟩

/-- Unless a keyword has become an identifier, which only an error behind it can do, the lexical
errors of a source act like as many spaces. -/
theorem parseRule_blanked {source : String}
    (hkeyword : ∀ t ∈ (tokenize source).tokens,
      t.kind = .identifier ∨ t.kind = .smallIdentifier → ¬ IsKeyword t.text.toList) :
    ErrorsAreBlank source := by
  have hpieces := pieces_blanked hkeyword
  have herrors := errors_blanked hpieces
  have hall := tokens_blanked hpieces
  obtain ⟨tokens, final, htokens, -⟩ := final_token source
  obtain ⟨tokens', final', htokens', -⟩ := final_token (blanked source)
  have hread := readRule_forgetColumn (htokens' ▸ htokens ▸ hall)
  refine ⟨bytes_blanked source, herrors, hall, fun rule => ?_, fun rule => ?_⟩
  · rw [parseRule_of_tokens htokens', parseRule_of_tokens htokens]
    exact (hread rule).1
  · rw [parseRule_syntactic htokens, parseRule_of_tokens htokens', herrors]
    exact (hread rule).2

/-- Each of the two errors of two bytes becomes two spaces, so the syntax error is reported one
column further on. -/
theorem parseRule_blanked_two_bytes :
    (∀ t ∈ (tokenize "Shop é:\nø ] \"x").tokens,
        t.kind = .identifier ∨ t.kind = .smallIdentifier → ¬ IsKeyword t.text.toList) ∧
      ErrorsAreBlank "Shop é:\nø ] \"x" ∧ blanked "Shop é:\nø ] \"x" = "Shop   :\n   ]   " ∧
      (parseModel "Shop é:\nø ] \"x").value =
        some ⟨⟨[("Shop", ⟨"Shop", .empty, .empty, ⟨0, 8⟩⟩)]⟩, ⟨0, 8⟩⟩ ∧
      (parseRule "Shop é:\nø ] \"x" .model).syntactic.map (·.position) = [⟨2, 3⟩] ∧
      (parseRule "Shop   :\n   ]   " .model).syntactic.map (·.position) = [⟨2, 4⟩] := by
  have hkeyword : ∀ t ∈ (tokenize "Shop é:\nø ] \"x").tokens,
      t.kind = .identifier ∨ t.kind = .smallIdentifier → ¬ IsKeyword t.text.toList := by
    decide +kernel
  exact ⟨hkeyword, parseRule_blanked hkeyword, by decide +kernel, by decide +kernel,
    by decide +kernel, by decide +kernel⟩

end SyslModel
