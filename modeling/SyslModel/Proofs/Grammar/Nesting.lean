import SyslModel.Proofs.Diagnostics
import SyslModel.Proofs.Grammar.Faithful
import SyslModel.Proofs.Grammar.Partial
/-!
# Spans nest and do not overlap

`parseModel_nested` takes the model of any source, complete or not and with lexical errors or
without.  Every span in it is a slice of the source; the span of a construct holds those of the
constructs inside it, and two constructs side by side have spans apart.

The spans of a construct come from its tokens, and tokens are in order, so this is a fact about runs
of tokens inside one another or side by side (`nested_many`).  The order of a map is another one if
a name is given again, but no two entries of a map stem from the same item.
-/

namespace SyslModel

/-- The spans have no byte in common: one ends before the other starts. -/
def Span.Disjoint (a b : Span) : Prop := a.stop ≤ b.start ∨ b.stop ≤ a.start

/-- Where a member stands in the source. -/
def Member.span : Member → Span
  | .type declared => declared.span
  | .endpoint e => e.span

/-- The values of a map have spans inside a span, and no two of these overlap. -/
structure NameMap.Nested {α : Type} (m : NameMap α) (span : α → Span) (outer : Span) : Prop where
  /-- Each value lies inside. -/
  inside : ∀ entry ∈ m.entries, outer.holds (span entry.2) = true
  /-- Any two values lie apart. -/
  apart : m.entries.Pairwise fun a b => (span a.2).Disjoint (span b.2)

/-- The spans of a model are slices of the source that nest as its constructs do. -/
structure NestedSpans (source : String) (m : Model) : Prop where
  /-- A span starts and ends between characters of the source. -/
  slice : ∀ span, (Part.model m).Contains (.span span) →
    span.start ≤ span.stop ∧ span.stop ≤ source.utf8ByteSize ∧
      ∃ text, IsSlice source.toList span text
  /-- The applications lie inside the model. -/
  applications : m.apps.Nested Application.span m.span
  /-- The members of an application lie inside it. -/
  members : ∀ app, (Part.model m).Contains (.application app) →
    app.members.Nested Member.span app.span
  /-- The fields of a type lie inside it. -/
  fields : ∀ t, (Part.model m).Contains (.dataType t) →
    ∀ fields, t.shape.fields? = some fields → fields.Nested DataType.span t.span
  /-- The reference that names the type of a field lies inside the field. -/
  reference : ∀ t, (Part.model m).Contains (.dataType t) →
    ∀ r, t.shape = .typeRef r ∨ t.shape = .foreignKey r → t.span.holds r.span = true

variable {source : String} {tokens : List Token} {final : Token}

/-! ## Runs of tokens -/

/-- What a repetition gives to a map is nested in what the repetition is a part of. -/
theorem nested_many {α : Type} {e : Phrase} (hsolid : ∀ d : Derivation e, d.tokens ≠ [])
    {v : Derivation e → String × α} {span : α → Span}
    (hspan : ∀ d, span (v d).2 = spanOf .origin d.tokens) (horder : InOrder tokens)
    {ds : Derivation (.many e)} (hds : ds.tokens <:+: tokens) (none : Span) :
    (NameMap.ofList (List.map v ds)).Nested span (spanOf none tokens) where
  inside := by
    intro entry hentry
    obtain ⟨d, hd, rfl⟩ := Meaning.mem_many hds hentry
    rw [hspan]
    exact horder.holds_part hd (hsolid d)
  apart := by
    refine NameMap.pairwise_ofList (fun _ _ => Or.symm) (List.pairwise_map.2 ?_)
    refine ((horder.mono hds).spans_pairwise hsolid).imp fun {d d'} hle => ?_
    rw [hspan, hspan]
    exact .inl hle

/-- A span of the source starts and ends between characters. -/
theorem IsSlice.bounds {span : Span} {text : List Char} (h : IsSlice source.toList span text) :
    span.start ≤ span.stop ∧ span.stop ≤ source.utf8ByteSize ∧
      ∃ text, IsSlice source.toList span text := by
  obtain ⟨before, after, hs⟩ := h
  refine ⟨?_, utf8Length_toList source ▸ hs.stop_le, text, before, after, hs⟩
  rw [hs.start_eq, hs.stop_eq, utf8Length_append]
  exact Nat.le_add_right _ _

/-- Neighbouring tokens make up a slice of the source. -/
theorem isSlice_spanOf (h : (tokenize source).tokens = tokens ++ [final]) (horder : InOrder tokens)
    {part : List Token} (hpart : part <:+: tokens) (hne : part ≠ []) (none : Span) :
    ∃ text, IsSlice source.toList (spanOf none part) text := by
  obtain ⟨before, after, htokens⟩ := hpart
  obtain ⟨front, middle, back, hpieces, -, hspan⟩ := exists_cut h htokens.symm hne
  obtain ⟨t, last, -, -, hends⟩ := (horder.mono ⟨before, after, htokens⟩).exists_spanOf hne
  rw [hends, ← hends .origin, hspan]
  refine ⟨middle.flatMap Piece.text, front.flatMap Piece.text, back.flatMap Piece.text,
    ?_, rfl, rfl⟩
  rw [← pieces_flatten source.toList, hpieces, List.flatMap_append, List.flatMap_append,
    List.append_assoc]

/-- What stems from tokens in order, and is not a model, stands where some neighbours among them
do. -/
theorem Part.StemsFrom.ownSpan {p : Part} (h : p.StemsFrom tokens) (horder : InOrder tokens)
    (hmodel : ∀ m, p ≠ .model m) {span : Span} (hspan : p.ownSpan? = some span) :
    ∃ part, part <:+: tokens ∧ part ≠ [] ∧ span = spanOf .origin part := by
  cases h with
  | model hds => exact absurd rfl (hmodel _)
  | application hd | endpoint hd =>
    exact ⟨_, hd, List.cons_ne_nil _ _, (Option.some.inj hspan).symm⟩
  | @field d hd => exact ⟨_, hd, Grammar.field_tokens_ne_nil d, (Option.some.inj hspan).symm⟩
  | @declared d hd =>
    refine ⟨_, hd, Grammar.declaration_tokens_ne_nil d, ?_⟩
    rw [← declaration_span]
    exact (Option.some.inj hspan).symm
  | @reference t ht =>
    have hpart : [t] <:+: tokens := (List.singleton_infix_iff _ _).2 ht
    obtain ⟨first, last, hfirst, hlast, hends⟩ :=
      (horder.mono hpart).exists_spanOf (List.cons_ne_nil _ _)
    obtain rfl := Option.some.inj hfirst
    obtain rfl := Option.some.inj hlast
    refine ⟨[t], hpart, List.cons_ne_nil _ _, ?_⟩
    rw [hends]
    exact (Option.some.inj hspan).symm
  | _ => cases hspan

/-! ## The span of the model -/

/-- Some tokens are read for a model, those of its applications among them. -/
theorem applicationsOf_reads (tokens : List Token) (final : Token) :
    ∃ (ds : Derivation Production.model) (read : List Token),
      (applicationsOf tokens final).items = List.map Meaning.application ds ∧
      Stream.Reads ⟨[], tokens, final⟩ read (applicationsOf tokens final).rest ∧
      ds.tokens <+: read := by
  cases hfailure : (applicationsOf tokens final).failure with
  | none =>
    obtain ⟨ds, middle, hitems, hread, hmiddle⟩ := Recognises.collect_sound
      Grammar.readApplication_recognises .model ⟨[], tokens, final⟩
    exact ⟨ds, ds.tokens, hitems, hmiddle hfailure ▸ hread, List.prefix_rfl⟩
  | some failure =>
    obtain ⟨ds, middle, hitems, hread, hfail⟩ :=
      Grammar.readApplication_recognises.collect_failed .model ⟨[], tokens, final⟩ hfailure
    obtain ⟨more, hmore, -⟩ := Grammar.readApplication_follows.fail hfail
    exact ⟨ds, _, hitems, hread.append hmore, List.prefix_append _ _⟩

/-- The model of a source, complete or not, stands where its first token does, or from there to the
last token that was read. -/
theorem parseModel_spans (h : (tokenize source).tokens = tokens ++ [final]) :
    ∃ (ds : Derivation Production.model) (read : List Token) (first : Token),
      read <:+: tokens ∧ ds.tokens <:+: read ∧ first ∈ tokens ++ [final] ∧
      (parseModel source).value = some ⟨Meaning.applications ds, spanOf first.span read⟩ := by
  obtain ⟨ds, read, hitems, hread, hprefix⟩ := applicationsOf_reads tokens final
  have hcurrent : Stream.current ⟨[], tokens, final⟩ ∈ tokens ++ [final] := by
    cases tokens with
    | nil => exact List.mem_singleton_self _
    | cons t others => exact List.mem_cons_self
  refine ⟨ds, read, _, ?_, hprefix.isInfix, hcurrent, ?_⟩
  · have hahead : tokens = read ++ _ := hread.ahead
    rw [hahead]
    exact (List.prefix_append _ _).isInfix
  · rw [parseModel, parseRule_of_tokens h, readRule_model, (readModel_eq tokens final).2, hitems,
      spanFrom_read hread]
    rfl

/-! ## The model of a source -/

/-- A token of a source, or the end of the file, is a slice. -/
theorem token_isSlice {t : Token} (ht : t ∈ (tokenize source).tokens) :
    ∃ text, IsSlice source.toList t.span text := by
  obtain ⟨before, text, after, hslice, -⟩ := anchored_of_mem_tokens ht
  exact ⟨text, before, after, hslice⟩

/-- The members of an application are nested in it. -/
theorem members_nested {app : Application} (horder : InOrder tokens)
    (h : (Part.application app).StemsFrom tokens) : app.members.Nested Member.span app.span := by
  cases h with
  | @application d hd =>
    have hmembers : d.2.2.2.tokens <:+: d.tokens := d.infix_fromFourth
    refine nested_many Grammar.member_repeats.solid ?_ (horder.mono hd) hmembers .origin
    rintro (d' | d')
    · exact declaration_span d'
    · rfl

/-- Only a declared type has fields, and they are nested in it. -/
theorem fields_nested {t : DataType} (horder : InOrder tokens)
    (h : (Part.dataType t).StemsFrom tokens) {fields : Fields}
    (hfields : t.shape.fields? = some fields) :
    fields.Nested DataType.span t.span := by
  cases h with
  | @declared d hd =>
    obtain ⟨m, d, rfl⟩ := Grammar.exists_declare d
    rw [Grammar.declare_tokens] at hd
    rw [Grammar.meaning_declare] at hfields ⊢
    have hbody : d.2.2.2.2.tokens <:+: d.tokens := d.2.infix_fromFourth.trans d.infix_second
    have hnested {ds : Derivation (.many Production.field)} (hds : ds.tokens <:+: d.tokens) :
        (Meaning.fields ds).Nested DataType.span (spanOf .origin d.tokens) :=
      nested_many Grammar.field_tokens_ne_nil (fun _ => rfl) (horder.mono hd) hds .origin
    cases m with
    | table =>
      obtain rfl : Meaning.fields d.2.2.2.2 = fields := Option.some.inj hfields
      exact hnested hbody
    | type =>
      obtain rfl : Meaning.fields d.2.2.2.2 = fields := Option.some.inj hfields
      exact hnested hbody
    | enumeration => cases hfields
  | @field d hd =>
    obtain ⟨name, mark, d', more⟩ := d
    rcases d' with t | t | t <;> cases hfields

/-- Only the type of a field refers to another one, by one of its tokens. -/
theorem reference_inside {t : DataType} (horder : InOrder tokens)
    (h : (Part.dataType t).StemsFrom tokens) {r : Reference}
    (hr : t.shape = .typeRef r ∨ t.shape = .foreignKey r) : t.span.holds r.span = true := by
  cases h with
  | @declared d hd =>
    obtain ⟨m, d, rfl⟩ := Grammar.exists_declare d
    rw [Grammar.meaning_declare] at hr
    cases m <;> rcases hr with h | h <;> cases h
  | @field d hd =>
    have hname : d.2.2.1.tokens <:+: d.tokens := d.infix_third
    obtain ⟨t, ht, rfl⟩ : ∃ t ∈ d.2.2.1.tokens, Reference.ofDotted t.text t.span = r := by
      obtain ⟨name, mark, t | t | t, more⟩ := d
      · rcases hr with h | h <;> cases h
      · exact ⟨t.1, List.mem_singleton_self _, Shape.foreignKey.inj (hr.resolve_left nofun)⟩
      · exact ⟨t.1, List.mem_singleton_self _, Shape.typeRef.inj (hr.resolve_right nofun)⟩
    exact (horder.mono hd).holds_of_mem (hname.subset ht)

/-- A model has no other model inside. -/
theorem Part.Contains.model_eq {m m' : Model} (h : (Part.model m).Contains (.model m')) :
    m' = m := by
  rcases Relation.ReflTransGen.cases_tail h with heq | ⟨p, -, hmem⟩
  · exact Part.model.inj heq
  · exact absurd hmem (model_notMem_children p m')

/-- A span inside a model that was read from the tokens of a source is a slice of the source. -/
theorem isSlice_of_contains (h : (tokenize source).tokens = tokens ++ [final])
    (horder : InOrder tokens) {m : Model} (hstems : (Part.model m).StemsFrom tokens)
    (hm : ∃ text, IsSlice source.toList m.span text) {span : Span}
    (hspan : (Part.model m).Contains (.span span)) : ∃ text, IsSlice source.toList span text := by
  rcases Relation.ReflTransGen.cases_tail hspan with heq | ⟨p, hp, hmem⟩
  · cases heq
  have hown := Part.ownSpan?_of_mem_children hmem
  by_cases hmodel : ∃ m', p = .model m'
  · obtain ⟨m', rfl⟩ := hmodel
    obtain rfl := Part.Contains.model_eq hp
    exact Option.some.inj hown ▸ hm
  · obtain ⟨part, hpart, hne, rfl⟩ := (hstems.contains hp).ownSpan horder
      (fun m' heq => hmodel ⟨m', heq⟩) hown
    exact isSlice_spanOf h horder hpart hne _

/-- Whatever the source, also with errors: all spans in its model are slices of it, they nest as the
constructs do, and constructs side by side do not overlap. -/
theorem parseModel_nested (source : String) :
    ∃ m, (parseModel source).value = some m ∧ NestedSpans source m := by
  obtain ⟨tokens, final, htokens, -⟩ := final_token source
  obtain ⟨ds, read, first, hread, hds, hfirst, hvalue⟩ := parseModel_spans htokens
  have horder : InOrder tokens :=
    (tokens_inOrder source).mono (htokens ▸ (List.prefix_append _ _).isInfix)
  have hmodel : (Part.model ⟨Meaning.applications ds, spanOf first.span read⟩).StemsFrom tokens :=
    .model (hds.trans hread)
  refine ⟨_, hvalue, ?slice, ?applications, ?members, ?fields, ?reference⟩
  case slice =>
    intro span hspan
    have hown : ∃ text, IsSlice source.toList (spanOf first.span read) text := by
      by_cases hne : read = []
      · subst hne
        exact token_isSlice (htokens ▸ hfirst)
      · exact isSlice_spanOf htokens horder hread hne _
    obtain ⟨text, hslice⟩ := isSlice_of_contains htokens horder hmodel hown hspan
    exact hslice.bounds
  case applications =>
    have hmap : Meaning.applications ds = .ofList (List.map
        (fun d => ((Meaning.application d).name, Meaning.application d)) ds) :=
      congrArg NameMap.ofList List.map_map
    rw [hmap]
    exact nested_many Grammar.application_repeats.solid (fun _ => rfl) (horder.mono hread) hds _
  case members => exact fun app happ => members_nested horder (hmodel.contains happ)
  case fields => exact fun t ht fields => fields_nested horder (hmodel.contains ht)
  case reference => exact fun t ht r => reference_inside horder (hmodel.contains ht)

end SyslModel
