import SyslModel.Proofs.Grammar.Faithful
/-!
# Parsed trees are well-shaped

One type of tree serves types and endpoints, texts and flags, declarations and fields, and a map
takes any name.  `parseModel_wellShaped` says what the grammar makes of it, for the model of any
source, complete or not and with lexical errors or without: what stands under which name, how names
are spelled, which shapes are declared and which are named, and where texts and flags stand.

Names and references are texts of tokens, and a token fits the pattern of its kind whatever stands
around it.
-/

namespace SyslModel

open scoped Computability

/-! ## Spelling -/

/-- `[A-Z][A-Za-z0-9_]*` -/
def IsUpperName (name : String) : Prop :=
  name.toList ∈ oneOf Char.isUpper * (oneOf isWordChar)∗

/-- `[a-z][A-Za-z0-9_]*` -/
def IsLowerName (name : String) : Prop :=
  name.toList ∈ oneOf Char.isLower * (oneOf isWordChar)∗

/-- `[A-Za-z0-9_\-{}./]*` -/
def IsPathName (name : String) : Prop := name.toList ∈ (oneOf isPathChar)∗

/-- `[A-Za-z0-9_]+` -/
def IsSegment (segment : String) : Prop := segment.toList ∈ oneOrMore (oneOf isWordChar)

/-- All attributes are texts on one line. -/
def Attributes.AreTexts (attrs : Attributes) : Prop :=
  ∀ a ∈ attrs.values, ∃ text, a = .text text ∧ '\n' ∉ text.toList

/-- All attributes are flags. -/
def Attributes.AreFlags (attrs : Attributes) : Prop :=
  ∀ a ∈ attrs.values, ∃ negated, a = .flag negated

/-- A shape that is declared. -/
inductive Shape.IsDeclared : Shape DataType → Prop
  /-- A table. -/
  | relation (table : Table DataType) : IsDeclared (.relation table)
  /-- A record. -/
  | tuple (fields : Fields) : IsDeclared (.tuple fields)
  /-- An enumeration. -/
  | enumeration (items : NameMap Int) : IsDeclared (.enumeration items)

/-- A shape that is named. -/
inductive Shape.IsNamed : Shape DataType → Prop
  /-- A primitive. -/
  | primitive (p : Primitive) : IsNamed (.primitive p)
  /-- A declared type, by one name. -/
  | typeRef {r : Reference} : r.path.length = 1 → (∀ s ∈ r.path, IsSegment s) →
      IsNamed (.typeRef r)
  /-- A field of a declared type, by two names or more. -/
  | foreignKey {r : Reference} : 2 ≤ r.path.length → (∀ s ∈ r.path, IsSegment s) →
      IsNamed (.foreignKey r)

/-- The parts of a model have the forms that the grammar gives them. -/
structure WellShaped (m : Model) : Prop where
  /-- An application stands under its own name. -/
  application : ∀ name app, (name, app) ∈ m.apps.entries →
    app.name = name ∧ IsUpperName name ∧ app.attrs.AreTexts
  /-- A member that is a type is declared, and it is required. -/
  declaration : ∀ app, (Part.model m).Contains (.application app) →
    ∀ name t, (name, .type t) ∈ app.members.entries →
      IsUpperName name ∧ t.shape.IsDeclared ∧ t.optional = false ∧ t.attrs.AreTexts
  /-- An endpoint stands under its own name. -/
  endpoint : ∀ app, (Part.model m).Contains (.application app) →
    ∀ name e, (name, .endpoint e) ∈ app.members.entries →
      e.name = name ∧ IsPathName name ∧ e.attrs.AreTexts
  /-- The type of a field is named. -/
  field : ∀ part, (Part.model m).Contains part → ∀ fields, part.fields? = some fields →
    ∀ name t, (name, t) ∈ fields.entries →
      IsLowerName name ∧ t.shape.IsNamed ∧ t.attrs.AreFlags

/-! ## References -/

theorem isWordChar_dot : isWordChar '.' = false := by decide

/-- A run of word characters holds no dot. -/
theorem dot_notMem {run : List Char} (h : ∀ c ∈ run, isWordChar c = true) : '.' ∉ run :=
  fun hmem => by simpa [isWordChar_dot] using h '.' hmem

/-- Words with dots in front of them are the segments behind a word. -/
theorem splitOn_dotGroups : ∀ groups ∈ (Pattern.dotGroup isWordChar isWordChar)∗,
    ∀ run : List Char, (∀ c ∈ run, isWordChar c = true) →
      ∃ segments, (run ++ groups).splitOn '.' = run :: segments ∧
        (∀ s ∈ segments, s ∈ oneOrMore (oneOf isWordChar)) ∧ (segments = [] → groups = []) := by
  refine star_induction ?_ ?_
  · intro run hrun
    refine ⟨[], ?_, by simp, fun _ => rfl⟩
    rw [List.append_nil, List.splitOn_eq_singleton (dot_notMem hrun)]
  · intro first hfirst rest _ ih run hrun
    obtain ⟨word, hword, rfl⟩ := mem_literal_mul.1 hfirst
    have hword' : word ∈ oneOrMore (oneOf isWordChar) := hword
    obtain ⟨segments, hsplit, hsegments, -⟩ := ih word (mem_oneOrMore_oneOf.1 hword').2
    refine ⟨word :: segments, ?_, List.forall_mem_cons.2 ⟨hword', hsegments⟩, nofun⟩
    rw [List.append_assoc, List.singleton_append,
      List.splitOn_append_cons_self_of_not_mem (dot_notMem hrun), hsplit]

/-- The segments of a word with groups behind it. -/
theorem segments_eq {text : String} {run groups : List Char} (htext : text.toList = run ++ groups)
    (hne : run ≠ []) (hrun : ∀ c ∈ run, isWordChar c = true)
    (hgroups : groups ∈ (Pattern.dotGroup isWordChar isWordChar)∗) :
    (∀ s ∈ Reference.segments text, IsSegment s) ∧
      ∃ segments, Reference.segments text = String.ofList run :: segments ∧
        (segments = [] → groups = []) := by
  obtain ⟨segments, hsplit, hsegments, hnil⟩ := splitOn_dotGroups groups hgroups run hrun
  have heq : Reference.segments text = (run :: segments).map String.ofList := by
    rw [Reference.segments, htext, hsplit]
  refine ⟨?_, segments.map String.ofList, heq, fun h => hnil (List.map_eq_nil_iff.1 h)⟩
  intro s hs
  obtain ⟨chars, hchars, rfl⟩ := List.mem_map.1 (heq ▸ hs)
  rw [IsSegment, String.toList_ofList]
  rcases List.mem_cons.1 hchars with rfl | hchars
  · exact mem_oneOrMore_oneOf.2 ⟨hne, hrun⟩
  · exact hsegments chars hchars

/-- An identifier is one segment. -/
theorem segments_identifier {text : String} (h : TokenKind.identifier.Matches text.toList) :
    (Reference.segments text).length = 1 ∧ ∀ s ∈ Reference.segments text, IsSegment s := by
  obtain ⟨c, rest, htext, hc, hrest⟩ := mem_oneOf_mul.1 h
  have hrun : ∀ x ∈ c :: rest, isWordChar x = true :=
    List.forall_mem_cons.2 ⟨isWordChar_of_isUpper hc, mem_oneOf_star.1 hrest⟩
  obtain ⟨hall, -⟩ := segments_eq (htext.trans (List.append_nil _).symm) (List.cons_ne_nil _ _) hrun
    (Language.nil_mem_kstar _)
  refine ⟨?_, hall⟩
  rw [Reference.segments, htext, List.splitOn_eq_singleton (dot_notMem hrun)]
  rfl

/-- The reference to a field has two segments or more. -/
theorem segments_foreignKey {text : String} (h : TokenKind.foreignKey.Matches text.toList) :
    2 ≤ (Reference.segments text).length ∧ ∀ s ∈ Reference.segments text, IsSegment s := by
  obtain ⟨c, tail, htext, hc, htail⟩ := mem_oneOf_mul.1 h
  obtain ⟨rest, hrest, groups, hgroups, rfl⟩ := Language.mem_mul.1 htail
  have hrun : ∀ x ∈ c :: rest, isWordChar x = true :=
    List.forall_mem_cons.2 ⟨isWordChar_of_isUpper hc, mem_oneOf_star.1 hrest⟩
  have hdot : groups ≠ [] := List.ne_nil_of_mem (Pattern.dot_mem_of_oneOrMore hgroups)
  obtain ⟨hall, segments, heq, hnil⟩ := segments_eq htext (List.cons_ne_nil _ _) hrun
    (mem_star_iff.2 (.inr hgroups))
  refine ⟨?_, hall⟩
  have hpos := List.length_pos_iff.2 fun hsegments => hdot (hnil hsegments)
  rw [heq, List.length_cons]
  omega

/-! ## Attributes -/

/-- The items between brackets are made of neighbouring tokens. -/
theorem infix_of_mem_items {e : Phrase} {d : Derivation (Production.bracketed e)}
    {item : Derivation e} (h : item ∈ Meaning.items d) : item.tokens <:+: d.tokens := by
  have hlist : d.2.1.tokens <:+: d.tokens := d.infix_middle
  rw [Meaning.items] at h
  generalize d.2.1 = list at h hlist
  obtain _ | ⟨first, others⟩ := list
  · cases h
  have hboth : Derivation.tokens (e := .seq e (.many (.seq (Production.mark .comma) e)))
      (first, others) <:+: d.tokens := hlist
  rcases List.mem_cons.1 h with rfl | h
  · exact (Derivation.infix_first (item, others)).trans hboth
  · obtain ⟨next, hnext, rfl⟩ := List.mem_map.1 h
    have hitem := (Derivation.infix_second next).trans (Derivation.infix_of_mem hnext)
    exact hitem.trans ((Derivation.infix_second (first, others)).trans hboth)

/-- What holds of all attributes between brackets holds of their map. -/
theorem forall_values_items {e : Phrase} {v : Derivation e → String × Attribute}
    {P : Attribute → Prop} {tokens : List Token} {d : Derivation (Production.bracketed e)}
    (hd : d.tokens <:+: tokens)
    (hv : ∀ item : Derivation e, item.tokens <:+: tokens → P (v item).2) :
    ∀ a ∈ (NameMap.ofList ((Meaning.items d).map v)).values, P a := by
  intro a ha
  obtain ⟨entry, hentry, rfl⟩ := List.mem_map.1 ha
  obtain ⟨item, hitem, rfl⟩ := List.mem_map.1 (NameMap.mem_of_mem_ofList hentry)
  exact hv item ((infix_of_mem_items hitem).trans hd)

theorem fieldAttributes_areFlags (d : Derivation (.option Production.fieldAttrs)) :
    Attributes.AreFlags (Option.elim d .empty Meaning.fieldAttrs) := by
  cases d with
  | none => exact fun a ha => by cases ha
  | some d => exact forall_values_items (List.infix_refl d.tokens) fun _ _ => ⟨_, rfl⟩

section Tokens

variable {tokens : List Token} (hfits : ∀ t ∈ tokens, t.kind.Matches t.text.toList)

include hfits

/-- The text of a token of one kind fits the kind. -/
theorem matches_of_kind {kind : TokenKind} {u : Derivation (Production.kind kind)}
    (hu : u.tokens <:+: tokens) : kind.Matches u.1.text.toList := by
  have hmatch := hfits u.1 (hu.subset (List.mem_singleton_self _))
  rwa [u.2] at hmatch

theorem attr_isText {d : Derivation Production.attr} (hd : d.tokens <:+: tokens) :
    ∃ text, (Meaning.attr d).2 = .text text ∧ '\n' ∉ text.toList := by
  have hvalue : d.2.2.tokens <:+: tokens := (d.2.infix_second.trans d.infix_second).trans hd
  refine ⟨_, rfl, ?_⟩
  generalize d.2.2 = value at hvalue
  rcases value with u | u
  · exact Quoted.newline_notMem_read (matches_of_kind hfits (u := u) hvalue)
  · exact (matches_of_kind hfits (u := u) hvalue).newline_notMem rfl

theorem attributes_areTexts {d : Derivation (.option Production.attrs)}
    (hd : d.tokens <:+: tokens) : (Meaning.optionalAttributes d).AreTexts := by
  cases d with
  | none => exact fun a ha => by cases ha
  | some d => exact forall_values_items (d := d) hd fun _ => attr_isText hfits

/-! ## Constructs -/

theorem shape_isNamed {d : Derivation Production.typeRef} (hd : d.tokens <:+: tokens) :
    (Meaning.shape d).IsNamed := by
  rcases d with u | u | u
  · exact .primitive _
  · obtain ⟨hlength, hall⟩ := segments_foreignKey (matches_of_kind hfits (u := u) hd)
    exact .foreignKey hlength hall
  · obtain ⟨hlength, hall⟩ := segments_identifier (matches_of_kind hfits (u := u) hd)
    exact .typeRef hlength hall

theorem fieldName_isLower {d : Derivation (.either (Production.kind .smallIdentifier)
    Production.primitive)} (hd : d.tokens <:+: tokens) : IsLowerName (Meaning.eitherText d) := by
  rcases d with u | u
  · exact matches_of_kind hfits (u := u) hd
  · have hmatch := hfits u.1 (hd.subset (List.mem_singleton_self _))
    rw [Grammar.kind_of_primitive u] at hmatch
    exact hmatch.generic

end Tokens

/-- A path without its first slash. -/
theorem pathName_isPathName {path : String} (h : TokenKind.path.Matches path.toList) :
    IsPathName (Grammar.pathName path) := by
  rw [← append_pathName h, String.toList_append] at h
  exact (cons_mem_oneOf_mul.1 h).2

theorem body_isDeclared {m : Marker} (d : Derivation (Production.body m)) :
    (Meaning.body m d).IsDeclared := by
  cases m with
  | table => exact .relation _
  | type => exact .tuple _
  | enumeration => exact .enumeration _

/-! ## The model of a source -/

/-- Whatever the source, also with errors: its model is well-shaped. -/
theorem parseModel_wellShaped (source : String) :
    ∃ m, (parseModel source).value = some m ∧ WellShaped m := by
  obtain ⟨tokens, final, htokens, -, -, -, hkinds⟩ := final_token source
  obtain ⟨ds, span, hds, hvalue⟩ := parseModel_stems htokens
  have hfits : ∀ t ∈ tokens, t.kind.Matches t.text.toList := by
    intro t ht
    obtain ⟨before, after, -, -, hclassified⟩ :=
      token_classified (htokens ▸ List.mem_append_left _ ht) (hkinds t ht)
    exact hclassified.fits
  have hstems {p : Part} (hp : (Part.model ⟨Meaning.applications ds, span⟩).Contains p) :
    p.StemsFrom tokens := (Part.StemsFrom.model hds).contains hp
  refine ⟨_, hvalue, ?application, ?declaration, ?endpoint, ?field⟩
  case application =>
    intro name app happ
    obtain ⟨d, hd, heq⟩ := Meaning.mem_applications hds happ
    obtain ⟨rfl, rfl⟩ := Prod.mk.inj heq
    have hattrs : d.2.1.tokens <:+: d.tokens := d.infix_middle
    exact ⟨rfl, matches_of_kind hfits (u := d.1) (d.infix_first.trans hd),
      attributes_areTexts hfits (hattrs.trans hd)⟩
  case declaration =>
    intro app happ name t ht
    obtain ⟨d, hd, heq⟩ := (hstems happ).type_entry ht
    obtain ⟨m, d, rfl⟩ := Grammar.exists_declare d
    rw [Grammar.declare_tokens] at hd
    rw [Grammar.meaning_declare] at heq
    obtain ⟨rfl, rfl⟩ := Prod.mk.inj heq
    have hname : d.2.1.tokens <:+: d.tokens := d.infix_middle
    have hattrs : d.2.2.1.tokens <:+: d.tokens := d.infix_third
    exact ⟨matches_of_kind hfits (u := d.2.1) (hname.trans hd), body_isDeclared d.2.2.2.2, rfl,
      attributes_areTexts hfits (hattrs.trans hd)⟩
  case endpoint =>
    intro app happ name e he
    obtain ⟨d, hd, rfl, rfl⟩ := (hstems happ).endpoint_entry he
    have hattrs : d.2.2.1.tokens <:+: d.tokens := d.infix_third
    exact ⟨rfl, pathName_isPathName (matches_of_kind hfits (u := d.1) (d.infix_first.trans hd)),
      attributes_areTexts hfits (hattrs.trans hd)⟩
  case field =>
    intro part hpart fields hfields name t ht
    obtain ⟨d, hd, heq⟩ := (hstems hpart).field_entry hfields ht
    obtain ⟨rfl, rfl⟩ := Prod.mk.inj heq
    have hshape : d.2.2.1.tokens <:+: d.tokens := d.infix_third
    exact ⟨fieldName_isLower hfits (d.infix_first.trans hd), shape_isNamed hfits (hshape.trans hd),
      fieldAttributes_areFlags d.2.2.2.2⟩

end SyslModel
