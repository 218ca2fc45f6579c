import SyslModel.Proofs.Json.ParsedJson
import SyslModel.Proofs.Json.PartJson
import SyslModel.Proofs.RoundTrip.Reparse
/-!
# Trees are read back from their JSON texts

`Part.Produced.readsBack` says that every value of a tree that parsing a source or reading a JSON
text can produce is read back, in full, from the JSON text that is written of it.  The object of a
fragment, which has the name of its rule in front, is read back as the construct itself.
-/

namespace SyslModel

open Json

/-- The values that parsing a source or reading a JSON text can produce: what is read as a type, the
trees and the places in what is parsed, and everything inside of these. -/
inductive Part.Produced : Part → Prop
  /-- A JSON text is read as a type. -/
  | decoded {kind : PartKind} {text : String} {p : Part} :
      decodeText kind.ofJson? text = some p → Produced p
  /-- A source is parsed by a rule; the tree may be partial. -/
  | parsed {source : String} {rule : Rule} {fragment : Fragment} {p : Part} : FitsMemory source →
      (parseRule source rule).value = some fragment → p ∈ fragment.parts → Produced p
  /-- The span of a defect of a source. -/
  | span {source : String} {rule : Rule} {d : Diagnostic} : FitsMemory source →
      d ∈ (parseRule source rule).diagnostics → Produced (.span d.span)
  /-- The position of a defect of a source. -/
  | position {source : String} {rule : Rule} {d : Diagnostic} : FitsMemory source →
      d ∈ (parseRule source rule).diagnostics → Produced (.position d.position)
  /-- A part of what is produced. -/
  | inside {whole p : Part} : Produced whole → whole.Contains p → Produced p

/-- A part is read back from its JSON texts. -/
structure ReadsBack (p : Part) : Prop where
  /-- The text of the part, read as its type, gives the part. -/
  own : ∀ text ∈ [p.toJson.compact, p.toJson.pretty], decodeText p.kind.ofJson? text = some p
  /-- So does the text of a fragment that is this part, with its rule in front. -/
  node : ∀ fragment : Fragment,
    fragment.rule ∈ [Rule.model, .application, .typeRef, .endpoint] → fragment.parts = [p] →
      ∀ text ∈ [fragment.toJson.compact, fragment.toJson.pretty],
        decodeText p.kind.ofJson? text = some p

/-! ## What is parsed is given back -/

section Parsed

variable {source : String} {rule : Rule}

/-- What is inside of the meaning of a derivation. -/
theorem ofRule_restored (final : Token) (hrule : rule ≠ .model)
    {d : Derivation (Production.ofRule rule)} (hd : d.Fits) :
    ∀ p ∈ (Meaning.ofRule final rule d).parts, p.Restored nestingLimit := by
  have hattributes (attrs : Attributes) : ∀ p ∈ attrs.values.map Part.attr,
      p.Restored nestingLimit := by
    intro p hp
    obtain ⟨a, -, rfl⟩ := List.mem_map.1 hp
    exact Part.restored_attribute.2 (Attribute.restores a)
  cases rule with
  | model => exact absurd rfl hrule
  | application =>
    exact List.forall_mem_singleton.2 (Part.restored_application.2 (application_restores hd))
  | attributes | fieldAttrs => exact hattributes _
  | «attribute» | fieldAttr =>
    exact List.forall_mem_singleton.2 (Part.restored_attribute.2 (Attribute.restores _))
  | declaration =>
    exact List.forall_mem_singleton.2 (Part.restored_dataType.2 (declaration_restores hd))
  | enumItem => exact List.forall_mem_nil _
  | field => exact List.forall_mem_singleton.2 (Part.restored_dataType.2 (field_restores hd))
  | typeRef => exact List.forall_mem_singleton.2 (Part.restored_dataType.2 (typeRef_restores hd))
  | endpoint => exact List.forall_mem_singleton.2 (Part.restored_endpoint.2 (endpoint_restores hd))

/-- What a rule gives on tokens that fit, partial models included. -/
theorem readRule_restored {tokens : List Token} {final : Token}
    (h : ∀ t ∈ tokens ++ [final], t.span.Fits ∧ t.position.Fits) {fragment : Fragment}
    (hvalue : ((Session.before tokens final).readRule rule).1 = some fragment) :
    ∀ p ∈ fragment.parts, p.Restored nestingLimit := by
  have hfits {read : List Token} (hread : read <+: tokens) : ∀ t ∈ read, t.span.Fits :=
    fun t ht => (h t (List.mem_append_left _ (hread.subset ht))).1
  cases hreader : Grammar.reader? rule with
  | none =>
    obtain rfl := eq_model_of_reader? hreader
    obtain ⟨ds, hds, hitems, -⟩ := applicationsOf_sound tokens final
    have hspan := modelSpan_fits h
    rw [(readModel_eq tokens final).2, hitems] at hspan
    rw [readRule_model, (readModel_eq tokens final).2, hitems] at hvalue
    obtain rfl := Option.some.inj hvalue
    refine List.forall_mem_singleton.2 (Part.restored_model.2 (Model.isRecord.restores_iff.2 ?_))
    exact ⟨applications_restores (hfits hds), hspan.restores⟩
  | some p =>
    have hrule : rule ≠ .model := by
      rintro rfl
      cases hreader
    rw [readRule_eq_readWhole hreader] at hvalue
    rcases readWhole_spec (reader_recognises final hreader) rule tokens final with
      ⟨d, hd, hsome, -⟩ | ⟨-, hnone, -⟩
    · obtain rfl := Option.some.inj (hsome.symm.trans hvalue)
      exact ofRule_restored final hrule (hfits (hd ▸ List.prefix_refl _))
    · cases hnone.symm.trans hvalue

theorem parts_restored (hsize : FitsMemory source) {fragment : Fragment}
    (hvalue : (parseRule source rule).value = some fragment) :
    ∀ p ∈ fragment.parts, p.Restored nestingLimit := by
  obtain ⟨tokens, final, htokens, -⟩ := final_token source
  rw [parseRule_of_tokens htokens] at hvalue
  exact readRule_restored (fun t ht => hsize.token (htokens ▸ ht)) hvalue

/-- The places of the defects of a source that fits into memory. -/
theorem defect_fits (hsize : FitsMemory source) {d : Diagnostic}
    (hd : d ∈ (parseRule source rule).diagnostics) : d.span.Fits ∧ d.position.Fits := by
  obtain ⟨tokens, final, htokens, -⟩ := final_token source
  rw [parseRule_of_tokens htokens] at hd
  rcases List.mem_append.1 hd with hd | hd
  · obtain ⟨e, he, rfl⟩ := List.mem_map.1 hd
    exact hsize.error he
  · exact diagnostic_fits (fun t ht => hsize.token (htokens ▸ ht)) rule hd

end Parsed

/-- Whatever can be produced is given back. -/
theorem Part.Produced.restored {p : Part} (h : p.Produced) : p.Restored nestingLimit := by
  induction h with
  | decoded h =>
    obtain ⟨value, -, hvalue⟩ := Option.bind_eq_some_iff.1 h
    exact (Part.restored_of_ofJson? hvalue).2
  | parsed hsize hvalue hmem => exact parts_restored hsize hvalue _ hmem
  | span hsize hmem => exact Part.restored_span.2 (defect_fits hsize hmem).1.restores
  | position hsize hmem =>
    obtain ⟨hline, hcolumn⟩ := (defect_fits hsize hmem).2
    exact Part.restored_position.2 (Position.restores hline hcolumn)
  | inside _ hcontains ih => exact ih.of_contains hcontains

/-! ## Texts -/

theorem decodeText_of_writes {α : Type} {decode : Decoder α} {value : Value} {x : α}
    (h : decode nestingLimit value = some x) :
    ∀ text ∈ [value.compact, value.pretty], decodeText decode text = some x := by
  simp only [List.forall_mem_cons, decodeText, ofString?_compact, ofString?_pretty,
    Option.bind_some]
  exact ⟨h, h, List.forall_mem_nil _⟩

/-- The name of the rule in front of a fragment is skipped. -/
theorem ofJson?_node {depth : Nat} {p : Part} {fragment : Fragment}
    (hrule : fragment.rule ∈ [Rule.model, .application, .typeRef, .endpoint])
    (hparts : fragment.parts = [p]) :
    p.kind.ofJson? (depth + 1) fragment.toJson = p.kind.ofJson? (depth + 1) p.toJson := by
  cases fragment with
  | model m =>
    obtain rfl := List.singleton_inj.1 hparts
    refine congrArg (Option.map Part.model) ?_
    rw [Model.isRecord.decodes, Model.isRecord.decodes]
    rfl
  | application app =>
    obtain rfl := List.singleton_inj.1 hparts
    refine congrArg (Option.map Part.application) ?_
    rw [Application.isRecord.decodes, Application.isRecord.decodes]
    rfl
  | typeRef t =>
    obtain rfl := List.singleton_inj.1 hparts
    refine congrArg (Option.map Part.dataType) ?_
    rw [DataType.isRecord.decodes, DataType.isRecord.decodes]
    cases t
    rfl
  | endpoint e =>
    obtain rfl := List.singleton_inj.1 hparts
    refine congrArg (Option.map Part.endpoint) ?_
    rw [Endpoint.isRecord.decodes, Endpoint.isRecord.decodes]
    rfl
  | _ => simp [Fragment.rule] at hrule

/-- Every value that parsing a source or reading a JSON text can produce is read back from its JSON
text as the same value, spans, numbers, texts and the order of names included. -/
theorem Part.Produced.readsBack {p : Part} (h : p.Produced) : ReadsBack p where
  own := decodeText_of_writes h.restored
  node := fun _ hrule hparts =>
    decodeText_of_writes ((ofJson?_node hrule hparts).trans h.restored)

/-- The model of a file with a table, whose primary key is written and not read. -/
theorem readsBack_table : ∃ m,
    (parseRule "Shop:\n  !table Item:\n    id <: int [pk]\n" .model).value = some (.model m) ∧
      ReadsBack (.model m) := by
  have hsize : FitsMemory "Shop:\n  !table Item:\n    id <: int [pk]\n" := by
    unfold FitsMemory
    decide +kernel
  obtain ⟨m, hm⟩ : ∃ m, (parseRule "Shop:\n  !table Item:\n    id <: int [pk]\n" .model).value
      = some (.model m) := ⟨_, rfl⟩
  exact ⟨m, hm, Part.Produced.readsBack (.parsed hsize hm (List.mem_singleton_self _))⟩

end SyslModel
