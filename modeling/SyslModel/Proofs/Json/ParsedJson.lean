import SyslModel.Proofs.Grammar.Relocation
import SyslModel.Proofs.Json.TreeJson
import SyslModel.Proofs.RoundTrip.Reparse
import SyslModel.Proofs.Token.Lossless
/-!
# Trees that were parsed are given back

The tokens of a source that fits into memory have spans and positions that fit into 64 bits.  So do
the spans of everything that is read from them, each of which is made from two tokens.  The integers
fit because the grammar says so, and a map made from a list has no name twice.
-/

namespace SyslModel

open Json

variable {depth : Nat} {a b e : Phrase}

/-! ## Places that fit -/

/-- Both ends of the span fit into 64 bits. -/
def Span.Fits (s : Span) : Prop :=
  Decimal.isUnsigned64 s.start = true ∧ Decimal.isUnsigned64 s.stop = true

/-- The line and the column fit into 64 bits. -/
def Position.Fits (p : Position) : Prop :=
  Decimal.isUnsigned64 p.line = true ∧ Decimal.isUnsigned64 p.column = true

/-- The greatest unsigned integer of 64 bits. -/
def greatest64 : Nat := 0xffffffffffffffff

theorem isUnsigned64_iff {n : Nat} : Decimal.isUnsigned64 n = true ↔ n ≤ greatest64 := by
  simp only [Decimal.isUnsigned64, greatest64, Bool.and_eq_true, decide_eq_true_eq]
  omega

theorem Span.fits_iff {s : Span} : s.Fits ↔ s.start ≤ greatest64 ∧ s.stop ≤ greatest64 := by
  rw [Span.Fits, isUnsigned64_iff, isUnsigned64_iff]

theorem Span.Fits.restores {s : Span} (h : s.Fits) :
    Restores Span.ofJson? Span.toJson (depth + 1) s := Span.restores h.1 h.2

theorem Span.clamp_fits (s : Span) : ((Relocation.clamp greatest64).span s).Fits :=
  Span.fits_iff.2 ⟨min_le_right _ _, min_le_right _ _⟩

theorem Span.Fits.clamp {s : Span} (h : s.Fits) : (Relocation.clamp greatest64).span s = s := by
  rw [Span.fits_iff] at h
  obtain ⟨start, stop⟩ := s
  exact congrArg₂ Span.mk (min_eq_left h.1) (min_eq_left h.2)

theorem Position.fits_iff {p : Position} :
    p.Fits ↔ p.line ≤ greatest64 ∧ p.column ≤ greatest64 := by
  rw [Position.Fits, isUnsigned64_iff, isUnsigned64_iff]

theorem Position.clamp_fits (p : Position) : ((Relocation.clamp greatest64).position p).Fits :=
  Position.fits_iff.2 ⟨min_le_right _ _, min_le_right _ _⟩

theorem Position.Fits.clamp {p : Position} (h : p.Fits) :
    (Relocation.clamp greatest64).position p = p := by
  rw [Position.fits_iff] at h
  obtain ⟨line, column⟩ := p
  exact congrArg₂ Position.mk (min_eq_left h.1) (min_eq_left h.2)

theorem spanOf_fits {tokens : List Token} {none : Span} (hnone : none.Fits)
    (h : ∀ t ∈ tokens, t.span.Fits) : (spanOf none tokens).Fits := by
  unfold spanOf
  split
  · next first last hfirst hlast =>
    have hf := Span.fits_iff.1 (h first (List.mem_of_head? hfirst))
    have hl := Span.fits_iff.1 (h last (List.mem_of_getLast? hlast))
    rw [Span.fits_iff]
    dsimp only
    omega
  · exact hnone

theorem Span.origin_fits : Span.origin.Fits :=
  Span.fits_iff.2 ⟨Nat.zero_le _, Nat.zero_le _⟩

/-! ## Derivations over tokens that fit -/

/-- The tokens of the derivation have spans that fit. -/
def Derivation.Fits (d : Derivation e) : Prop := ∀ t ∈ d.tokens, t.span.Fits

namespace Derivation.Fits

theorem first {d : Derivation (.seq a b)} (h : d.Fits) : d.1.Fits :=
  fun t ht => h t (List.mem_append_left _ ht)

theorem second {d : Derivation (.seq a b)} (h : d.Fits) : d.2.Fits :=
  fun t ht => h t (List.mem_append_right _ ht)

theorem of_mem {ds : Derivation (.many e)} (h : ds.Fits) {d : Derivation e}
    (hd : d ∈ (show List (Derivation e) from ds)) : d.Fits :=
  fun t ht => h t (List.mem_flatMap.2 ⟨d, hd, ht⟩)

/-- The span of a derivation fits. -/
theorem span {d : Derivation e} (h : d.Fits) : (spanOf .origin d.tokens).Fits :=
  spanOf_fits Span.origin_fits h

end Derivation.Fits

/-- The map of a list of constructs is given back if each construct is. -/
theorem restores_ofList {α : Type} {decode : Decoder α} {encode : α → Value}
    {list : List (String × α)} (h : ∀ entry ∈ list, Restores decode encode depth entry.2) :
    Restores (mapOf decode) (NameMap.toJson encode) (depth + 1) (.ofList list) :=
  restores_mapOf_iff.2 (NameMap.each_ofList h)

theorem restores_many {α : Type} {decode : Decoder α} {encode : α → Value}
    {v : Derivation e → String × α} {ds : Derivation (.many e)} (hds : ds.Fits)
    (h : ∀ d : Derivation e, d.Fits → Restores decode encode depth (v d).2) :
    Restores (mapOf decode) (NameMap.toJson encode) (depth + 1) (.ofList (List.map v ds)) := by
  refine restores_ofList fun entry hentry => ?_
  obtain ⟨d, hd, rfl⟩ := List.mem_map.1 hentry
  exact h d (hds.of_mem hd)

/-- Attributes that were given one by one. -/
theorem attributes_restores (list : List (String × Attribute)) :
    Restores Attributes.ofJson? Attributes.toJson (depth + 3) (.ofList list) :=
  Attributes.restores (NameMap.each_ofList (P := fun _ _ => True) fun _ _ => trivial)

theorem optionalAttributes_restores (d : Derivation (.option Production.attrs)) :
    Restores Attributes.ofJson? Attributes.toJson (depth + 3) (Meaning.optionalAttributes d) := by
  cases d with
  | none => exact attributes_restores []
  | some d => exact attributes_restores _

/-! ## Types -/

theorem typeToken_mem (d : Derivation Production.typeRef) : Meaning.typeToken d ∈ d.tokens := by
  rcases d with u | u | u <;> exact List.mem_singleton_self _

theorem shape_restores {d : Derivation Production.typeRef} (h : d.Fits) :
    Restores Shape.ofJson? Shape.toJson (depth + 3) (Meaning.shape d) := by
  have hspan := h _ (typeToken_mem d)
  rcases d with u | u | u
  · exact Shape.restores_primitive _
  · exact Shape.restores_foreignKey_iff.2 (Reference.restores_iff.2 hspan.restores)
  · exact Shape.restores_typeRef_iff.2 (Reference.restores_iff.2 hspan.restores)

theorem typeRef_restores {d : Derivation Production.typeRef} (h : d.Fits) :
    Restores DataType.ofJson? DataType.toJson (depth + 4) (Meaning.typeRef d) :=
  DataType.restores_iff.2
    ⟨shape_restores h, attributes_restores [], (h _ (typeToken_mem d)).restores⟩

theorem field_restores {d : Derivation Production.field} (h : d.Fits) :
    Restores DataType.ofJson? DataType.toJson (depth + 4) (Meaning.field d).2 := by
  refine DataType.restores_iff.2 ⟨shape_restores h.second.second.first, ?_, h.span.restores⟩
  obtain ⟨_, _, _, _, _ | flags⟩ := d
  · exact attributes_restores []
  · exact attributes_restores _

theorem enumItems_restores (ds : Derivation (.many Production.enumItem)) :
    Restores integersOfJson? (NameMap.toJson Value.integer) (depth + 1) (Meaning.enumItems ds) := by
  refine integers_restores (NameMap.each_ofList fun entry hentry => ?_)
  obtain ⟨⟨_, _, literal⟩, -, rfl⟩ := List.mem_map.1 hentry
  exact (Option.filter_eq_some_iff.1 (Option.some_get literal.2.2).symm).2

theorem body_restores {m : Marker} {d : Derivation (Production.body m)} (h : d.Fits) :
    Restores Shape.ofJson? Shape.toJson (depth + 7) (Meaning.body m d) := by
  cases m with
  | table =>
    refine Shape.restores_relation_iff.2 (Table.restores_iff.2 ⟨Table.inStep_ofFields _, ?_⟩)
    refine Fields.relation_isRecord.restores_iff.2 ?_
    exact restores_many h fun _ => field_restores
  | type =>
    refine Shape.restores_tuple_iff.2 (Fields.tuple_isRecord.restores_iff.2 ?_)
    exact restores_many h fun _ => field_restores
  | enumeration =>
    refine Shape.restores_enumeration_iff.2 (enumeration_isRecord.restores_iff.2 ?_)
    exact enumItems_restores d

/-! ## Members, applications and models -/

theorem declaration_restores {d : Derivation Production.declaration} (h : d.Fits) :
    Restores DataType.ofJson? DataType.toJson (depth + 8) (Meaning.declaration d).2 := by
  obtain ⟨m, d, rfl⟩ := Grammar.exists_declare d
  have h : d.Fits := fun t ht => h t (by rwa [Grammar.declare_tokens])
  rw [Grammar.meaning_declare]
  exact DataType.restores_iff.2 ⟨body_restores h.second.second.second.second,
    optionalAttributes_restores _, h.span.restores⟩

theorem endpoint_restores {d : Derivation Production.endpoint} (h : d.Fits) :
    Restores Endpoint.ofJson? Endpoint.toJson (depth + 4) (Meaning.endpoint d) :=
  Endpoint.restores_iff.2 ⟨optionalAttributes_restores _, h.span.restores⟩

theorem member_restores {d : Derivation Production.member} (h : d.Fits) :
    Restores Member.ofJson? Member.toJson (depth + 9) (Meaning.member d).2 := by
  rcases d with d | d
  · exact Member.restores_type_iff.2 (declaration_restores (d := d) h)
  · exact Member.restores_endpoint_iff.2 (endpoint_restores (d := d) h)

theorem application_restores {d : Derivation Production.application} (h : d.Fits) :
    Restores Application.ofJson? Application.toJson (depth + 11) (Meaning.application d) :=
  Application.restores_iff.2 ⟨optionalAttributes_restores _,
    restores_many h.second.second.second fun _ => member_restores, h.span.restores⟩

theorem applications_restores {ds : Derivation Production.model} (h : ds.Fits) :
    Restores (mapOf Application.ofJson?) (NameMap.toJson Application.toJson) (depth + 12)
      (Meaning.applications ds) := by
  refine restores_ofList fun entry hentry => ?_
  obtain ⟨app, happ, rfl⟩ := List.mem_map.1 hentry
  obtain ⟨d, hd, rfl⟩ := List.mem_map.1 happ
  exact application_restores (h.of_mem hd)

/-! ## The tokens of a source that fits into memory -/

/-- The text of a source takes up no more bytes than a machine can address: the greatest signed
integer of 64 bits. -/
def FitsMemory (source : String) : Prop := Decimal.isSigned64 source.utf8ByteSize = true

theorem FitsMemory.lt {source : String} (h : FitsMemory source) :
    utf8Length source.toList < greatest64 := by
  simp only [FitsMemory, Decimal.isSigned64, Bool.and_eq_true, decide_eq_true_eq] at h
  rw [utf8Length_toList, greatest64]
  omega

theorem length_le_utf8Length (text : List Char) : text.length ≤ utf8Length text := by
  induction text with
  | nil => exact le_rfl
  | cons c text ih =>
    have := Char.utf8Size_pos c
    rw [List.length_cons, utf8Length_cons]
    omega

/-- A character moves on by a line or by a column. -/
theorem Position.after_le (p : Position) (text : List Char) {n : Nat} (hline : p.line ≤ n + 1)
    (hcolumn : p.column ≤ n + 1) : (p.after text).line ≤ n + text.length + 1 ∧
      (p.after text).column ≤ n + text.length + 1 := by
  induction text generalizing p n with
  | nil => exact ⟨hline, hcolumn⟩
  | cons c text ih =>
    have hnext : (p.next c).line ≤ n + 1 + 1 ∧ (p.next c).column ≤ n + 1 + 1 := by
      unfold Position.next
      split <;> dsimp only <;> omega
    have := ih (p.next c) hnext.1 hnext.2
    rw [Position.after_cons, List.length_cons]
    omega

/-- Behind a text that is part of the source the position fits. -/
theorem FitsMemory.position {source : String} (h : FitsMemory source) {before rest : List Char}
    (hsplit : source.toList = before ++ rest) : (Position.first.after before).Fits := by
  have hle := Position.first.after_le before (n := 0) le_rfl le_rfl
  have hlength := length_le_utf8Length before
  have hlt := h.lt
  rw [hsplit, utf8Length_append] at hlt
  rw [Position.fits_iff]
  omega

/-- The stretches of a source have places that fit. -/
theorem FitsMemory.stretch {source : String} (h : FitsMemory source) {p : PlacedPiece}
    (hp : p ∈ stretches source) : p.span.Fits ∧ p.place.position.Fits := by
  constructor
  · have hle := stop_le_of_mem_stretches hp
    have hlt := PlacedPiece.start_lt_stop (text_ne_nil_of_mem_stretches hp)
    have := h.lt
    rw [Span.fits_iff]
    omega
  · obtain ⟨before, tail, heq, hplace⟩ := mem_placed hp
    have hsplit : source.toList = before.flatMap Piece.text
        ++ (p.piece.text ++ tail.flatMap Piece.text) := by
      rw [← List.flatMap_cons, ← List.flatMap_append, ← heq, joinRuns_flatten, pieces_flatten]
    rw [hplace]
    exact h.position hsplit

/-- Tokens of a source that fits into memory stay where they are. -/
theorem FitsMemory.token {source : String} (h : FitsMemory source) {t : Token}
    (ht : t ∈ (tokenize source).tokens) : t.span.Fits ∧ t.position.Fits := by
  rcases mem_tokens ht with ⟨p, hp, hpt⟩ | rfl
  · obtain ⟨-, -, hspan, hposition⟩ := token?_eq_some_iff.1 hpt
    rw [hspan, hposition]
    exact h.stretch hp
  · have := h.lt
    refine ⟨?_, h.position (List.append_nil _).symm⟩
    rw [endOfFile_span, Span.fits_iff, ← utf8Length_toList]
    dsimp only [Span.emptyAt]
    omega

theorem FitsMemory.error {source : String} (h : FitsMemory source) {e : LexicalError}
    (he : e ∈ (tokenize source).errors) : e.span.Fits ∧ e.position.Fits := by
  obtain ⟨p, hp, hpe⟩ := mem_errors he
  obtain ⟨-, -, hspan, hposition⟩ := error?_eq_some_iff.1 hpe
  rw [hspan, hposition]
  exact h.stretch hp

theorem clamp_token {t : Token} (h : t.span.Fits ∧ t.position.Fits) :
    t.relocate (.clamp greatest64) = t := by
  rw [Token.relocate, h.1.clamp, h.2.clamp]

/-! ## What is read from them -/

theorem map_clamp {tokens : List Token} (h : ∀ t ∈ tokens, t.span.Fits ∧ t.position.Fits) :
    tokens.map (Token.relocate (.clamp greatest64)) = tokens := by
  rw [List.map_congr_left fun t ht => clamp_token (h t ht), List.map_id']

/-- Reading tokens that fit gives what it gives on clamped tokens, so all of it fits. -/
theorem readRule_clamp {tokens : List Token} {final : Token}
    (h : ∀ t ∈ tokens ++ [final], t.span.Fits ∧ t.position.Fits) (rule : Rule) :
    (Session.before tokens final).readRule rule =
      (((Session.before tokens final).readRule rule).1.map
          (Fragment.respan (Relocation.clamp greatest64).span),
        ((Session.before tokens final).readRule rule).2.relocate (.clamp greatest64)) := by
  have hsame : (Session.before tokens final).relocate (.clamp greatest64)
      = Session.before tokens final := by
    rw [Session.before_relocate, map_clamp fun t ht => h t (List.mem_append_left _ ht),
      clamp_token (h final (by simp))]
  have hread := (Session.before tokens final).readRule_relocate (.clamp greatest64) rule
  rwa [hsame] at hread

theorem diagnostic_fits {tokens : List Token} {final : Token}
    (h : ∀ t ∈ tokens ++ [final], t.span.Fits ∧ t.position.Fits) (rule : Rule) {d : Diagnostic}
    (hd : d ∈ ((Session.before tokens final).readRule rule).2.diagnostics) :
    d.span.Fits ∧ d.position.Fits := by
  rw [readRule_clamp h rule] at hd
  obtain ⟨d, -, rfl⟩ := List.mem_map.1 hd
  exact ⟨Span.clamp_fits d.span, Position.clamp_fits d.position⟩

theorem modelSpan_fits {tokens : List Token} {final : Token}
    (h : ∀ t ∈ tokens ++ [final], t.span.Fits ∧ t.position.Fits) :
    (Session.before tokens final).readModel.1.span.Fits := by
  have hread := congrArg Prod.fst (readRule_clamp h .model)
  rw [readRule_model, Option.map_some, Option.some.injEq] at hread
  rw [Fragment.model.inj hread]
  exact Span.clamp_fits _

end SyslModel
