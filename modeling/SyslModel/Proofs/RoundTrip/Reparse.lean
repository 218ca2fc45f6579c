import SyslModel.Parsed
import SyslModel.Proofs.Grammar.Recognition
import SyslModel.Proofs.RoundTrip.CanonicalText
import SyslModel.Proofs.Token.LongestMatch
import SyslModel.Proofs.Token.Lossless
/-!
# Parsing, printing, parsing

What is read from a source can be written down, and reading it again gives the same tree.
-/

namespace SyslModel

/-!
## What is read can be written

If every token of a derivation is of the kind that its text has when it stands alone, the meaning of
the derivation is writable.  By the shape of the derivation: a name is the text of an identifier, a
text comes from a quoted token or a qualified name, and a map made from a list has no name twice.
-/

section MeaningWritable

variable {a b e : Phrase}

/-! ### Derivations over tokens that are read alone -/

/-- Each token of the derivation is of the kind that its text has alone. -/
def Derivation.Lexical (d : Derivation e) : Prop := ∀ t ∈ d.tokens, t.kind.Writes t.text

namespace Derivation.Lexical

theorem first {d : Derivation (.seq a b)} (h : d.Lexical) : d.1.Lexical :=
  fun t ht => h t (List.mem_append_left _ ht)

theorem second {d : Derivation (.seq a b)} (h : d.Lexical) : d.2.Lexical :=
  fun t ht => h t (List.mem_append_right _ ht)

theorem of_mem {ds : Derivation (.many e)} (h : ds.Lexical) {d : Derivation e}
    (hd : d ∈ (show List (Derivation e) from ds)) : d.Lexical :=
  fun t ht => h t (List.mem_flatMap.2 ⟨d, hd, ht⟩)

/-- The text of a token of a kind. -/
theorem writes {kind : TokenKind} {u : Derivation (Production.kind kind)} (h : u.Lexical) :
    kind.Writes u.1.text := by
  have hu := h u.1 (List.mem_singleton_self _)
  rwa [u.2] at hu

end Derivation.Lexical

/-! ### Attributes -/

/-- A token that is neither punctuation nor quoted is on one line. -/
theorem TokenKind.Matches.newline_notMem {kind : TokenKind} {text : List Char}
    (h : kind.Matches text) (hk : kind.isWord = true) : '\n' ∉ text := by
  intro hmem
  cases text with
  | nil => cases hmem
  | cons c tail =>
    rcases List.mem_cons.1 hmem with rfl | hmem
    · have hopens := h.opens
      rw [not_opens_blank (.inr (by decide))] at hopens
      cases hopens
    · have hpath := h.isPathChar_tail (by rintro rfl; cases hk) (by rintro rfl; cases hk) _ hmem
      exact absurd hpath (by decide)

theorem attr_writable (d : Derivation Production.attr) (h : d.Lexical) :
    WritableAttribute (Meaning.attr d).1 (Meaning.attr d).2 := by
  obtain ⟨key, equals, value⟩ := d
  refine ⟨h.first.writes, _, rfl, ?_⟩
  have hvalue := h.second.second
  cases value with
  | inl u =>
    have hu : TokenKind.quoted.Writes u.1.text := Derivation.Lexical.writes (u := u) hvalue
    exact Quoted.newline_notMem_read hu.fits
  | inr u =>
    have hu : TokenKind.qualifiedName.Writes u.1.text := Derivation.Lexical.writes (u := u) hvalue
    exact hu.fits.newline_notMem rfl

theorem fieldAttr_writable (d : Derivation Production.fieldAttr) (h : d.Lexical) :
    WritableFlag (Meaning.fieldAttr d).1 (Meaning.fieldAttr d).2 :=
  ⟨h.second.writes, _, rfl⟩

/-- The items between brackets consist of tokens of the whole. -/
theorem items_lexical {d : Derivation (Production.bracketed e)} (h : d.Lexical) :
    ∀ item ∈ Meaning.items d, item.Lexical := by
  obtain ⟨_, _ | ⟨first, others⟩, _⟩ := d
  · simp [Meaning.items]
  · have hlist := h.second.first
    intro item hitem
    rcases List.mem_cons.1 hitem with rfl | hitem
    · exact Derivation.Lexical.first (d := (item, others)) hlist
    · obtain ⟨next, hnext, rfl⟩ := List.mem_map.1 hitem
      have hothers := Derivation.Lexical.second (d := (first, others)) hlist
      exact (hothers.of_mem hnext).second

/-- The map of what stands between brackets. -/
theorem each_items {v : Derivation e → String × Attribute} {W : String → Attribute → Prop}
    (hw : ∀ d : Derivation e, d.Lexical → W (v d).1 (v d).2)
    {d : Derivation (Production.bracketed e)} (h : d.Lexical) :
    (NameMap.ofList ((Meaning.items d).map v)).Each W := by
  apply NameMap.each_ofList
  intro entry hentry
  obtain ⟨item, hitem, rfl⟩ := List.mem_map.1 hentry
  exact hw item (items_lexical h item hitem)

theorem optionalAttributes_writable (d : Derivation (.option Production.attrs)) (h : d.Lexical) :
    (Meaning.optionalAttributes d).Each WritableAttribute := by
  cases d with
  | none => exact NameMap.each_empty
  | some d => exact each_items attr_writable (d := d) h

/-! ### Types -/

theorem shape_writable (d : Derivation Production.typeRef) (h : d.Lexical) :
    WritableShape (Meaning.shape d) := by
  rcases d with u | u | u
  · exact .primitive _
  · exact .foreignKey u.1.text (Derivation.Lexical.writes (u := u) h) rfl
  · exact .typeRef u.1.text (Derivation.Lexical.writes (u := u) h) rfl

theorem typeRef_writable (d : Derivation Production.typeRef) (h : d.Lexical) :
    WritableTypeRef (Meaning.typeRef d) := ⟨shape_writable d h, rfl, rfl⟩

theorem field_writable (d : Derivation Production.field) (h : d.Lexical) :
    WritableField (Meaning.field d).1 (Meaning.field d).2 := by
  obtain ⟨name, subset, type, optional, flags⟩ := d
  have hrest := h.second.second
  refine ⟨?_, shape_writable type hrest.first, ?_⟩
  · rcases name with u | u
    · exact .inl (Derivation.Lexical.writes (u := u) h.first)
    · have hu : u.1.kind.Writes u.1.text := h.first u.1 (List.mem_singleton_self _)
      rw [Grammar.kind_of_primitive u] at hu
      exact .inr ⟨_, String.toList_injective (mem_literal.1 hu.fits)⟩
  · cases flags with
    | none => exact NameMap.each_empty
    | some flags => exact each_items fieldAttr_writable (d := flags) hrest.second.second

theorem enumItem_writable (d : Derivation Production.enumItem) (h : d.Lexical) :
    WritableItem (Meaning.enumItem d).1 (Meaning.enumItem d).2 := by
  obtain ⟨name, colon, literal⟩ := d
  refine ⟨?_, ?_⟩
  · rcases name with u | u
    · exact .inl (Derivation.Lexical.writes (u := u) h.first)
    · exact .inr (Derivation.Lexical.writes (u := u) h.first)
  · have hvalue := (Option.some_get literal.2.2).symm
    exact (Option.filter_eq_some_iff.1 hvalue).2

theorem many_writable {γ : Type} {v : Derivation e → String × γ} {W : String → γ → Prop}
    (hw : ∀ d : Derivation e, d.Lexical → W (v d).1 (v d).2) {ds : Derivation (.many e)}
    (h : ds.Lexical) : (NameMap.ofList (List.map v ds)).Each W := by
  apply NameMap.each_ofList
  intro entry hentry
  obtain ⟨d, hd, rfl⟩ := List.mem_map.1 hentry
  exact hw d (h.of_mem hd)

theorem body_writable (m : Marker) (d : Derivation (Production.body m)) (h : d.Lexical) :
    WritableBody m (Meaning.body m d) := by
  cases m with
  | table => exact .relation (many_writable field_writable h)
  | type => exact .tuple (many_writable field_writable h)
  | enumeration => exact .enumeration (many_writable enumItem_writable h)

/-! ### Members and applications -/

theorem declaration_writable (d : Derivation Production.declaration) (h : d.Lexical) :
    WritableDeclaration (Meaning.declaration d).1 (Meaning.declaration d).2 := by
  obtain ⟨m, d, rfl⟩ := Grammar.exists_declare d
  have h : d.Lexical := fun t ht => h t (by rwa [Grammar.declare_tokens])
  rw [Grammar.meaning_declare]
  exact ⟨h.second.first.writes, rfl, optionalAttributes_writable _ h.second.second.first, m,
    body_writable m _ h.second.second.second.second⟩

/-- A path begins with a slash. -/
theorem append_pathName {path : String} (h : TokenKind.path.Matches path.toList) :
    "/" ++ Grammar.pathName path = path := by
  obtain ⟨c, rest, hpath, hc, -⟩ := mem_oneOf_mul.1 h
  obtain rfl : c = '/' := by simpa using hc
  rw [Grammar.pathName, hpath]
  apply String.toList_injective
  rw [hpath]
  simp

theorem endpoint_writable (d : Derivation Production.endpoint) (h : d.Lexical) :
    WritableEndpoint (Meaning.endpoint d) := by
  have hpath : TokenKind.path.Writes d.1.1.text := h.first.writes
  refine ⟨?_, optionalAttributes_writable _ h.second.second.first⟩
  show TokenKind.path.Writes ("/" ++ Grammar.pathName d.1.1.text)
  rwa [append_pathName hpath.fits]

theorem member_writable (d : Derivation Production.member) (h : d.Lexical) :
    WritableMember (Meaning.member d).1 (Meaning.member d).2 := by
  rcases d with d | d
  · exact .type (declaration_writable d h)
  · exact .endpoint rfl (endpoint_writable d h)

theorem application_writable (d : Derivation Production.application) (h : d.Lexical) :
    WritableApplication (Meaning.application d) :=
  ⟨h.first.writes, optionalAttributes_writable _ h.second.first,
    many_writable member_writable h.second.second.second⟩

theorem applications_writable (ds : Derivation Production.model) (h : ds.Lexical) :
    (Meaning.applications ds).Each fun name app => app.name = name ∧ WritableApplication app := by
  apply NameMap.each_ofList
  intro entry hentry
  obtain ⟨app, happ, rfl⟩ := List.mem_map.1 hentry
  obtain ⟨d, hd, rfl⟩ := List.mem_map.1 happ
  exact ⟨rfl, application_writable d (h.of_mem hd)⟩

end MeaningWritable

/-!
## Parsing what was written

`parseRule_canonical` closes the circle.  Take a source without lexical errors and what parsing it
by a rule gives, the partial tree of a whole file included.  Its canonical text, at any level of
indentation, is parsed by the same rule without diagnostics, and gives the same tree but for spans.

The proof goes through the grammar twice: the tree is the meaning of a derivation, so it can be
written; and its text is scanned as tokens that derive from the rule, so it is read.
-/

/-- Parsing the text by the rule reports nothing and gives the fragment again, but for spans.  So
names, their order, attributes, flags, references and items are the same, as are the primary keys
and the canonical text, which are made from them. -/
def ParsesTo (text : String) (rule : Rule) (fragment : Fragment) : Prop :=
  ∃ again : Fragment, parseRule text rule = ⟨some again, []⟩ ∧
    again.unspanned = fragment.unspanned ∧
    again.primaryKeys = fragment.primaryKeys ∧
    ∀ level, again.canonical? level = fragment.canonical? level

/-- What a rule gave can be written and parsed again. -/
structure RoundTrip (rule : Rule) (fragment : Fragment) : Prop where
  /-- A model, an application, an endpoint and a type reference have a text of their own. -/
  canonical : rule ∈ [Rule.model, .application, .endpoint, .typeRef] → ∀ level, ∃ text,
    fragment.canonical? level = some text ∧ ParsesTo text rule fragment
  /-- The text of a field is its name and the text of its type. -/
  field : rule = .field → ∃ name type, fragment = .field name type ∧
    ParsesTo (name ++ " <: " ++ type.canonical) rule fragment

/-! ### From a text to a tree -/

/-- The canonical text of a fragment is that of any other that differs in spans alone. -/
theorem canonical?_eq_of_unspanned_eq {fragment again : Fragment}
    (h : again.unspanned = fragment.unspanned) (level : Nat) :
    again.canonical? level = fragment.canonical? level := by
  rw [← Fragment.canonical?_unspanned, h, Fragment.canonical?_unspanned]

theorem primaryKeys_eq_of_unspanned_eq {fragment again : Fragment}
    (h : again.unspanned = fragment.unspanned) : again.primaryKeys = fragment.primaryKeys := by
  rw [← Fragment.primaryKeys_unspanned, h, Fragment.primaryKeys_unspanned]

/-- A text that prints the right side of a rule is parsed by the rule. -/
theorem parsesTo_of_prints {text : String} {rule : Rule} {fragment : Fragment}
    {follow : List Char → Prop} {P : Derivation (Production.ofRule rule) → Prop}
    (h : Prints text (Production.ofRule rule) follow P) (hend : follow [])
    (hP : ∀ d, P d → ∀ final, (Meaning.ofRule final rule d).unspanned = fragment.unspanned) :
    ParsesTo text rule fragment := by
  obtain ⟨lexemes, hscans, hderives⟩ := h
  have hall := hscans [] hend
  rw [List.append_nil] at hall
  obtain ⟨herrors, tokens, final, htokens, hkinds, hfinal, hlexemes⟩ := tokenize_of_scans hall
  obtain ⟨d, hd, hPd⟩ := hderives tokens hlexemes
  obtain ⟨hvalue, hdiagnostics⟩ := readRule_of_derivation final rule hd
  have hmeaning := hP d hPd final
  refine ⟨Meaning.ofRule final rule d, ?_, hmeaning, primaryKeys_eq_of_unspanned_eq hmeaning,
    canonical?_eq_of_unspanned_eq hmeaning⟩
  simp only [parseRule, herrors, htokens, Session.ofTokens_eq hkinds hfinal, hvalue, hdiagnostics]
  rfl

/-! ### From a source to a derivation -/

/-- The tokens of a source without lexical errors are of the kinds that their texts have alone. -/
theorem tokens_write {source : String} (hlexed : (tokenize source).errors = []) :
    ∃ tokens final, Session.ofTokens (tokenize source).tokens = Session.before tokens final ∧
      ∀ t ∈ tokens, t.kind.Writes t.text := by
  obtain ⟨tokens, final, htokens, hfinal, -, -, hkinds⟩ := final_token source
  refine ⟨tokens, final, ?_, ?_⟩
  · rw [htokens, Session.ofTokens_eq hkinds hfinal]
  · intro t ht
    have hmem : t ∈ (tokenize source).tokens := by
      rw [htokens]
      exact List.mem_append_left _ ht
    exact token_highestFor hlexed hmem (hkinds t ht)

/-- A value is what a derivation means, but for spans.  The derivation takes the first tokens: of a
whole file with an error these are the tokens of the applications that are kept. -/
theorem derivation_of_value {tokens : List Token} {final : Token} {rule : Rule}
    {fragment : Fragment} (h : ((Session.before tokens final).readRule rule).1 = some fragment) :
    ∃ d : Derivation (Production.ofRule rule), d.tokens <+: tokens ∧
      (Meaning.ofRule final rule d).unspanned = fragment.unspanned := by
  cases hreader : Grammar.reader? rule with
  | none =>
    obtain rfl := eq_model_of_reader? hreader
    obtain ⟨ds, hds, hitems, -⟩ := applicationsOf_sound tokens final
    obtain ⟨-, hmodel⟩ := readModel_eq tokens final
    rw [readRule_model, hmodel, hitems] at h
    obtain rfl := Option.some.inj h
    exact ⟨ds, hds, rfl⟩
  | some p =>
    rw [readRule_eq_readWhole hreader] at h
    rcases readWhole_spec (reader_recognises final hreader) rule tokens final with
      ⟨d, hd, hvalue, -⟩ | ⟨-, hvalue, -⟩
    · rw [hvalue] at h
      obtain rfl := Option.some.inj h
      exact ⟨d, hd ▸ List.prefix_refl _, rfl⟩
    · rw [hvalue] at h
      cases h

/-- What parsing a source without lexical errors gives is what a derivation means whose tokens are
read alone. -/
theorem lexical_of_parseRule {source : String} {rule : Rule} {fragment : Fragment}
    (hlexed : (tokenize source).errors = [])
    (hparsed : (parseRule source rule).value = some fragment) :
    ∃ (d : Derivation (Production.ofRule rule)) (final : Token), d.Lexical ∧
      (Meaning.ofRule final rule d).unspanned = fragment.unspanned := by
  obtain ⟨tokens, final, hsession, hwrites⟩ := tokens_write hlexed
  have hvalue : ((Session.before tokens final).readRule rule).1 = some fragment := by
    rw [← hsession]
    exact hparsed
  obtain ⟨d, hd, hmeaning⟩ := derivation_of_value hvalue
  exact ⟨d, final, fun t ht => hwrites t (hd.subset ht), hmeaning⟩

/-! ### There and back -/

/-- The meaning of a derivation of a rule that has a text prints the rule. -/
theorem parsesTo_of_lexical (level : Nat) {rule : Rule}
    (hrule : rule ∈ [Rule.model, .application, .endpoint, .typeRef])
    {d : Derivation (Production.ofRule rule)} (final : Token) (h : d.Lexical) {fragment : Fragment}
    (hmeaning : (Meaning.ofRule final rule d).unspanned = fragment.unspanned) :
    ∃ text, fragment.canonical? level = some text ∧ ParsesTo text rule fragment := by
  rw [← canonical?_eq_of_unspanned_eq hmeaning]
  cases rule with
  | model =>
    have hwritable : WritableModel (Meaning.model final d) := applications_writable d h
    refine ⟨_, rfl, parsesTo_of_prints (prints_model level final hwritable) trivial ?_⟩
    intro ds hds _
    exact (congrArg Fragment.model hds).trans hmeaning
  | application =>
    have hprints := prints_application level (application_writable d h)
    refine ⟨_, rfl, parsesTo_of_prints hprints trivial ?_⟩
    intro d' hd' _
    exact (congrArg Fragment.application hd').trans hmeaning
  | endpoint =>
    have hprints := prints_endpoint level (endpoint_writable d h)
    refine ⟨_, rfl, parsesTo_of_prints hprints trivial ?_⟩
    intro d' hd' _
    exact (congrArg Fragment.endpoint hd').trans hmeaning
  | typeRef =>
    have hprints := prints_typeRef (typeRef_writable d h)
    refine ⟨_, rfl, parsesTo_of_prints hprints EndsWord.nil ?_⟩
    intro d' hd' _
    exact (congrArg Fragment.typeRef hd').trans hmeaning
  | _ => simp at hrule

/-- The same for a field, whose text is its name and the text of its type. -/
theorem parsesTo_of_field {d : Derivation Production.field} (h : d.Lexical) {fragment : Fragment}
    (hmeaning : (Fragment.field (Meaning.field d).1 (Meaning.field d).2).unspanned
      = fragment.unspanned) :
    ∃ name type, fragment = .field name type ∧
      ParsesTo (name ++ " <: " ++ type.canonical) .field fragment := by
  cases fragment with
  | field name type =>
    obtain ⟨hname, htype⟩ := Fragment.field.inj hmeaning
    have htext : (Meaning.field d).2.canonical = type.canonical := by
      rw [← DataType.canonical_unspanned, htype, DataType.canonical_unspanned]
    refine ⟨name, type, rfl, ?_⟩
    rw [← hname, ← htext]
    refine parsesTo_of_prints (prints_field (field_writable d h)) EndsWord.nil ?_
    rintro d' ⟨hname', htype'⟩ _
    show Fragment.field _ _ = Fragment.field _ _
    rw [hname', htype', htype]
  | _ => cases hmeaning

/-- What parsing a source without lexical errors gives, even with syntax errors, is written as a
text that is parsed by the same rule, without diagnostics, as the same tree but for spans. -/
theorem parseRule_canonical (source : String) (rule : Rule) (fragment : Fragment)
    (hlexed : (tokenize source).errors = [])
    (hparsed : (parseRule source rule).value = some fragment) : RoundTrip rule fragment := by
  obtain ⟨d, final, hlexical, hmeaning⟩ := lexical_of_parseRule hlexed hparsed
  constructor
  · intro hrule level
    exact parsesTo_of_lexical level hrule final hlexical hmeaning
  · rintro rfl
    exact parsesTo_of_field hlexical hmeaning

/-- The application in front of one that breaks off is kept, and goes there and back. -/
theorem parseRule_canonical_partial : ∃ fragment,
    (parseRule "Shop:\n  !table Item:\n    id <: int [~pk]\nUser" .model).value = some fragment ∧
      fragment.canonical? 0 = some "Shop:\n  !table Item:\n    id <: int [~pk]\n" ∧
      RoundTrip .model fragment := by
  refine ⟨_, rfl, ?_, parseRule_canonical _ _ _ (by decide +kernel) rfl⟩
  decide +kernel

end SyslModel
