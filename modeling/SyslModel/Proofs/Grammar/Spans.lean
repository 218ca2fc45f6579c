import SyslModel.Proofs.Grammar.Stems
import SyslModel.Proofs.Token.Lossless
/-!
# The spans of constructs

Every span ends behind its start, and spans are nested and ordered as the tokens are that they were
made from.
-/

namespace SyslModel

/-!
## Spans end behind their start

A construct has the span from its first token to its last one, and never less than from where it
starts.  So if the tokens have spans that end behind their start, all spans in what is read from
them do, at any depth (`Meaning.ofRule_spansOrdered`).
-/

section Spans

variable {tokens : List Token}

/-- The span ends behind its start, or there. -/
def Span.Ordered (s : Span) : Prop := s.start ≤ s.stop

/-- All spans inside the fragment are ordered. -/
def Fragment.SpansOrdered (fragment : Fragment) : Prop :=
  ∀ part ∈ fragment.parts, ∀ span, part.Contains (.span span) → span.Ordered

theorem spanOf_ordered {none : Span} (h : none.Ordered) (tokens : List Token) :
    (spanOf none tokens).Ordered := by
  unfold spanOf
  split
  · exact Nat.le_max_right _ _
  · exact h

theorem Stream.spanFrom_ordered (s : Stream) {first : Span} (h : first.Ordered) :
    (s.spanFrom first).Ordered := by
  unfold Stream.spanFrom
  split
  · exact h
  · exact Nat.le_max_right _ _

/-- The end of the file is a token, or it is missing and stands behind the last one. -/
theorem Stream.final_ordered (htokens : ∀ t ∈ tokens, t.span.Ordered) :
    (Stream.ofTokens tokens).final.span.Ordered := by
  have hmissing : (Stream.missingEnd tokens).span.Ordered := by
    unfold Stream.missingEnd
    split <;> exact Nat.le_refl _
  unfold Stream.ofTokens
  cases hfind : tokens.find? fun t => t.kind = .endOfFile with
  | some final => exact htokens final (List.mem_of_find?_eq_some hfind)
  | none => exact hmissing

namespace Part

/-- The span that a part has of its own. -/
def ownSpan? : Part → Option Span
  | .model m => some m.span
  | .application app => some app.span
  | .endpoint e => some e.span
  | .dataType t => some t.span
  | .reference r => some r.span
  | .member _ | .shape _ | .relation _ | .tuple _ | .enumeration _ | .attr _ | .span _
  | .position _ | .integers _ => none

/-- A span is inside a part as the part's own span only. -/
theorem ownSpan?_of_mem_children {p : Part} {span : Span} (h : .span span ∈ p.children) :
    p.ownSpan? = some span := by
  cases p with
  | member member => cases member <;> simp [children] at h
  | shape shape => cases shape <;> simp [children] at h
  | _ => simp_all [children, ownSpan?]

/-- No part has a model inside. -/
theorem model_notMem_children (p : Part) (m : Model) : .model m ∉ p.children := by
  cases p with
  | member member => cases member <;> simp [children]
  | shape shape => cases shape <;> simp [children]
  | _ => simp [children]

/-- The part is what is read from the tokens: it stems from them, and a model has an ordered span;
or it is a type that is only named. -/
inductive ReadFrom (tokens : List Token) : Part → Prop
  /-- A part that stems from the tokens. -/
  | stems {p : Part} : p.StemsFrom tokens → (∀ m, p = .model m → m.span.Ordered) → ReadFrom tokens p
  /-- A type that is named. -/
  | typeRef {d : Derivation Production.typeRef} : d.tokens <:+: tokens →
      ReadFrom tokens (.dataType (Meaning.typeRef d))

namespace ReadFrom

/-- The parts that a part is made of are read from the tokens as well. -/
theorem children {p : Part} (h : p.ReadFrom tokens) : ∀ c ∈ p.children, c.ReadFrom tokens := by
  cases h with
  | stems h hmodel =>
    intro c hc
    refine .stems (h.children c hc) ?_
    rintro m rfl
    exact absurd hc (model_notMem_children p m)
  | typeRef hd =>
    refine List.forall_mem_cons.2 ⟨.stems (.span _) nofun, List.forall_mem_cons.2 ⟨?_, ?_⟩⟩
    · exact .stems (.typeName hd) nofun
    · exact List.forall_mem_nil _

/-- What is read from tokens with ordered spans has an ordered span, if it has one. -/
theorem ownSpan_ordered (htokens : ∀ t ∈ tokens, t.span.Ordered) {p : Part}
    (h : p.ReadFrom tokens) {span : Span} (hspan : p.ownSpan? = some span) : span.Ordered := by
  have horigin : Span.origin.Ordered := Nat.le_refl 0
  cases h with
  | @typeRef d hd =>
    have htoken : Meaning.typeToken d ∈ tokens := by
      refine hd.subset ?_
      rcases d with t | t | t <;> exact List.mem_singleton_self _
    exact Option.some.inj hspan ▸ htokens _ htoken
  | stems h hmodel =>
    cases h with
    | model hds => exact Option.some.inj hspan ▸ hmodel _ rfl
    | application hd | endpoint hd | field hd =>
      exact Option.some.inj hspan ▸ spanOf_ordered horigin _
    | @declared d hd =>
      obtain ⟨m, d, rfl⟩ := Grammar.exists_declare d
      rw [Grammar.meaning_declare] at hspan
      exact Option.some.inj hspan ▸ spanOf_ordered horigin _
    | reference ht => exact Option.some.inj hspan ▸ htokens _ ht
    | _ => cases hspan

/-- All spans inside what is read from such tokens are ordered. -/
theorem spans_ordered (htokens : ∀ t ∈ tokens, t.span.Ordered) {whole : Part}
    (h : whole.ReadFrom tokens) (hwhole : ∀ s, whole ≠ .span s) {span : Span}
    (hcontains : whole.Contains (.span span)) : span.Ordered := by
  rcases Relation.ReflTransGen.cases_tail hcontains with heq | ⟨p, hp, hmem⟩
  · exact absurd heq.symm (hwhole span)
  · have hread : p.ReadFrom tokens := Contains.induct (fun _ hq => hq.children) hp h
    exact hread.ownSpan_ordered htokens (ownSpan?_of_mem_children hmem)

end ReadFrom
end Part

/-! ### Fragments -/

/-- A fragment is made of parts that are read from the tokens, and is no span itself. -/
theorem Fragment.spansOrdered_of_readFrom (htokens : ∀ t ∈ tokens, t.span.Ordered)
    {fragment : Fragment}
    (h : ∀ part ∈ fragment.parts, part.ReadFrom tokens ∧ ∀ s, part ≠ .span s) :
    fragment.SpansOrdered := by
  intro part hpart span hcontains
  exact (h part hpart).1.spans_ordered htokens (h part hpart).2 hcontains

/-- All spans in what a derivation means are ordered. -/
theorem Meaning.ofRule_spansOrdered {rule : Rule} (hrule : rule ≠ .model) (final : Token)
    (htokens : ∀ t ∈ tokens, t.span.Ordered) {d : Derivation (Production.ofRule rule)}
    (hd : d.tokens <:+: tokens) : (Meaning.ofRule final rule d).SpansOrdered := by
  have hattrs (attrs : List Attribute) :
      ∀ part ∈ attrs.map Part.attr, part.ReadFrom tokens ∧ ∀ s, part ≠ .span s := by
    intro part hpart
    obtain ⟨a, -, rfl⟩ := List.mem_map.1 hpart
    exact ⟨.stems (.attr a) nofun, nofun⟩
  refine Fragment.spansOrdered_of_readFrom htokens ?_
  match rule, d, hd with
  | .model, _, _ => exact absurd rfl hrule
  | .attributes, _, _ | .fieldAttrs, _, _ => exact hattrs _
  | .attribute, _, _ | .fieldAttr, _, _ => exact hattrs [_]
  | .enumItem, _, _ => exact List.forall_mem_nil _
  | .application, _, hd => exact List.forall_mem_singleton.2 ⟨.stems (.application hd) nofun, nofun⟩
  | .declaration, _, hd => exact List.forall_mem_singleton.2 ⟨.stems (.declared hd) nofun, nofun⟩
  | .field, _, hd => exact List.forall_mem_singleton.2 ⟨.stems (.field hd) nofun, nofun⟩
  | .typeRef, _, hd => exact List.forall_mem_singleton.2 ⟨.typeRef hd, nofun⟩
  | .endpoint, _, hd => exact List.forall_mem_singleton.2 ⟨.stems (.endpoint hd) nofun, nofun⟩

/-- All spans in a model are ordered, if its own is. -/
theorem Meaning.model_spansOrdered (htokens : ∀ t ∈ tokens, t.span.Ordered)
    {ds : Derivation Production.model} (hds : ds.tokens <:+: tokens) {span : Span}
    (hspan : span.Ordered) :
    (Fragment.model ⟨Meaning.applications ds, span⟩).SpansOrdered := by
  refine Fragment.spansOrdered_of_readFrom htokens (List.forall_mem_singleton.2 ⟨?_, nofun⟩)
  refine .stems (.model hds) ?_
  rintro m h
  exact Part.model.inj h ▸ hspan

end Spans

/-!
## Spans of neighbouring tokens

The tokens of a source stand in order and do not overlap.  So the span of some of them holds the
spans of neighbours among them (`InOrder.holds_part`), and the items of a repetition stand one
behind the other (`InOrder.spans_pairwise`).
-/

/-- Tokens with ordered spans, each of which ends before those of the later ones start. -/
structure InOrder (tokens : List Token) : Prop where
  /-- A token ends behind its start. -/
  ordered : ∀ t ∈ tokens, t.span.Ordered
  /-- A token ends in front of the later ones. -/
  pairwise : tokens.Pairwise fun a b => a.span.stop ≤ b.span.start

/-- The tokens of a source are in order. -/
theorem tokens_inOrder (source : String) : InOrder (tokenize source).tokens where
  ordered := by
    intro t ht
    by_cases hk : t.kind = .endOfFile
    · rcases mem_tokens ht with ⟨p, hp, hpt⟩ | rfl
      · exact absurd hk (token_ne_endOfFile t (List.mem_filterMap.2 ⟨p, hp, hpt⟩))
      · exact Nat.le_refl _
    · exact Nat.le_of_lt (token_slice ht hk).1
  pairwise := (List.pairwise_map.1 (tokens_ordered source)).imp fun h => h.2

namespace InOrder

variable {none none' : Span} {tokens part : List Token} {t last : Token}

theorem mono (h : InOrder tokens) (hpart : part <:+: tokens) : InOrder part :=
  ⟨fun t ht => h.ordered t (hpart.subset ht), h.pairwise.sublist hpart.sublist⟩

/-! ### The span of all tokens -/

theorem start_le (h : InOrder tokens) (ht : tokens.head? = some t) (hlast : last ∈ tokens) :
    t.span.start ≤ last.span.start := by
  obtain ⟨others, rfl⟩ := List.head?_eq_some_iff.1 ht
  rcases List.mem_cons.1 hlast with rfl | hothers
  · exact Nat.le_refl _
  · have hle := (List.pairwise_cons.1 h.pairwise).1 last hothers
    exact (h.ordered t List.mem_cons_self).trans hle

theorem stop_le (h : InOrder tokens) (hlast : tokens.getLast? = some last) (ht : t ∈ tokens) :
    t.span.stop ≤ last.span.stop := by
  obtain ⟨front, rfl⟩ := List.getLast?_eq_some_iff.1 hlast
  rcases List.mem_append.1 ht with hfront | hlast
  · have hle := (List.pairwise_append.1 h.pairwise).2.2 t hfront last (List.mem_singleton_self _)
    exact hle.trans (h.ordered last (List.mem_append_right _ (List.mem_singleton_self _)))
  · rw [List.mem_singleton.1 hlast]

/-- Tokens in order have the span from where the first one starts to where the last one ends. -/
theorem exists_spanOf (h : InOrder tokens) (hne : tokens ≠ []) :
    ∃ t last, tokens.head? = some t ∧ tokens.getLast? = some last ∧
      ∀ none, spanOf none tokens = ⟨t.span.start, last.span.stop⟩ := by
  obtain ⟨t, ht⟩ := Option.ne_none_iff_exists'.1 (mt List.head?_eq_none_iff.1 hne)
  obtain ⟨last, hlast⟩ := Option.ne_none_iff_exists'.1 (mt List.getLast?_eq_none_iff.1 hne)
  refine ⟨t, last, ht, hlast, fun none => ?_⟩
  have hmem : last ∈ tokens := List.mem_of_getLast? hlast
  have hle := (h.start_le ht hmem).trans (h.ordered last hmem)
  rw [spanOf, ht, hlast]
  dsimp only
  rw [Nat.max_eq_left hle]

/-- The span of all tokens holds that of any neighbours among them. -/
theorem holds_part (h : InOrder tokens) (hpart : part <:+: tokens) (hne : part ≠ []) :
    (spanOf none tokens).holds (spanOf none' part) = true := by
  obtain ⟨t, last, ht, hlast, hspan⟩ := (h.mono hpart).exists_spanOf hne
  have hmem := hpart.subset (List.mem_of_head? ht)
  have hmem' := hpart.subset (List.mem_of_getLast? hlast)
  obtain ⟨first, final, hfirst, hfinal, hall⟩ := h.exists_spanOf (List.ne_nil_of_mem hmem)
  rw [Span.holds_iff, hspan, hall]
  exact ⟨h.start_le hfirst hmem, h.stop_le hfinal hmem'⟩

/-- The span of all tokens holds that of each. -/
theorem holds_of_mem (h : InOrder tokens) (ht : t ∈ tokens) :
    (spanOf none tokens).holds t.span = true := by
  obtain ⟨first, final, hfirst, hfinal, hall⟩ := h.exists_spanOf (List.ne_nil_of_mem ht)
  rw [Span.holds_iff, hall]
  exact ⟨h.start_le hfirst ht, h.stop_le hfinal ht⟩

/-! ### One run of tokens behind another -/

/-- The items of a repetition stand one behind the other. -/
theorem spans_pairwise {e : Phrase} (hsolid : ∀ d : Derivation e, d.tokens ≠ [])
    {ds : Derivation (.many e)} (h : InOrder ds.tokens) :
    List.Pairwise (fun d d' : Derivation e =>
      (spanOf .origin d.tokens).stop ≤ (spanOf .origin d'.tokens).start) ds := by
  have hpairwise : List.Pairwise (fun d d' : Derivation e => ∀ x ∈ d.tokens, ∀ y ∈ d'.tokens,
      x.span.stop ≤ y.span.start) ds := (List.pairwise_flatMap.1 h.pairwise).2
  refine hpairwise.imp_of_mem fun {d d'} hd hd' hle => ?_
  obtain ⟨t, last, -, hlast, hspan⟩ :=
    (h.mono (Derivation.infix_of_mem hd)).exists_spanOf (hsolid d)
  obtain ⟨t', last', ht', -, hspan'⟩ :=
    (h.mono (Derivation.infix_of_mem hd')).exists_spanOf (hsolid d')
  rw [hspan, hspan']
  exact hle last (List.mem_of_getLast? hlast) t' (List.mem_of_head? ht')

end InOrder

end SyslModel
