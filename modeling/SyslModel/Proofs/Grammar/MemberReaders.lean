import SyslModel.Proofs.Grammar.AttributeReaders
import SyslModel.Proofs.Text.Decimal
/-!
# Types, members and applications are recognised

For each parser from a type reference up to an application there is a theorem that it recognises the
right side of its rule.

What may follow is where the grammar looks ahead.  A field must not be followed by what it could go
on with, a question mark or a bracket; a declaration must not be followed by another field or item.
Behind the members of an application either the source ends or the next application begins, and an
identifier there is no item of an enumeration, because no integer stands behind its colon.
-/

namespace SyslModel
namespace Grammar

open SyslModel.Parser

variable {s rest : Stream} {e : Phrase}

/-! ## Fields -/

theorem readTypeRef_recognises :
    Recognises readTypeRef Production.typeRef (fun d _ => Meaning.typeRef d) Anything := by
  have hplain (span : Span) := typeName_recognises.finish
    (q := fun shape => pure (DataType.plain shape span)) fun _ _ _ => rfl
  refine (Recognises.start hplain ?_).within .typeRef
  rintro s rest (t | t | t) hread <;> rw [hread.current (t := t.1)] <;> rfl

/-- A field does not go on: neither a question mark nor a bracket follows. -/
structure FieldEnds (s : Stream) : Prop where
  /-- No question mark follows. -/
  question : s.kindAt 0 ≠ .punctuation .question
  /-- No bracket follows. -/
  bracket : s.kindAt 0 ≠ .punctuation .openBracket

theorem field_tokens_ne_nil (d : Derivation Production.field) : d.tokens ≠ [] := by
  obtain ⟨t, _, (htokens : d.tokens = _)⟩ := fieldName_isToken.first d
  rw [htokens]
  exact List.cons_ne_nil _ _

theorem readField_recognises :
    Recognises readField Production.field (fun d _ => Meaning.field d) FieldEnds := by
  have hattrs : Recognises
      (branch (·.isAt (.punctuation .openBracket)) readFieldAttrs (pure .empty))
      (.option Production.fieldAttrs) (fun d _ => Option.elim d .empty Meaning.fieldAttrs)
      FieldEnds := by
    refine (readFieldAttrs_recognises.mono fun _ _ => trivial).option ?_ ?_
    · intro s rest d hread _
      exact isAt_iff.2 (kindAt_of_bracketed hread)
    · intro s hs
      exact isAt_eq_false_iff.2 hs.bracket
  have hlast (first : Span) (name : String) (type : DataType) (optional : Bool) := hattrs.finish
    (q := fun attrs => spanFrom first >>= fun span =>
      pure (name, (⟨type.shape, optional, attrs, span⟩ : DataType)))
    (k := fun attrs rest => (name, ⟨type.shape, optional, attrs, rest.spanFrom first⟩))
    fun _ _ _ => rfl
  have hoptional (first : Span) (name : String) (type : DataType) :=
    (accept_recognises (.punctuation .question)).bind (hlast first name type) (by
      rintro s rest (_ | d) hread hf
      · obtain rfl := Stream.Reads.nil_iff.1 hread
        exact hf.question
      · exact At.avoids (kindAt_of_bracketed hread) (by decide))
  have htype (first : Span) (name : String) :=
    readTypeRef_recognises.bind (hoptional first name) fun _ _ _ => trivial
  have hsubset (first : Span) (name : String) :=
    (expect_recognises (.punctuation .subset)).bind (fun _ => htype first name)
      fun _ _ _ => trivial
  have hname (first : Span) := fieldName_recognises.bind (hsubset first) fun _ _ _ => trivial
  refine (Recognises.start hname ?_).within .field
  intro s rest d hread
  exact congrArg (fun span => ((Meaning.field d).1, { (Meaning.field d).2 with span }))
    (hread.spanFrom (field_tokens_ne_nil d) .origin)

/-- A field shows itself to the test for one. -/
theorem atField_of_reads (d : Derivation Production.field) (h : s.Reads d.tokens rest) :
    atField s = true := by
  obtain ⟨⟨t, hk⟩ | t, subset, _⟩ := d
  · have hkind : s.kindAt 0 = .smallIdentifier := (h.kindAt (t := t) rfl).trans hk
    simp [atField, isAt_iff.2 hkind]
  · have hkind : s.kindAt 0 = .primitive (Meaning.primitive t) :=
      (h.kindAt (t := t.1) rfl).trans (kind_of_primitive t)
    have hsubset : s.kindAt 1 = .punctuation .subset :=
      (h.kindAt (t := subset.1) rfl).trans subset.2
    simp [atField, hkind, hsubset, TokenKind.isPrimitive]

/-- A field may follow a field. -/
theorem fieldEnds_of_reads (d : Derivation Production.field) (h : s.Reads d.tokens rest) :
    FieldEnds s := by
  obtain ⟨t, ht, (htokens : d.tokens = _)⟩ := fieldName_isToken.first d
  rw [htokens] at h
  have hkind : s.kindAt 0 = t.kind := h.kindAt rfl
  rcases ht with hk | hp
  · constructor <;> simp [hkind, hk]
  · obtain ⟨p, hp⟩ := Option.isSome_iff_exists.1 hp
    rw [primitive?_eq_some_iff] at hp
    constructor <;> simp [hkind, hp]

/-- The fields end: no field follows, and the last one does not go on. -/
structure FieldsEnd (s : Stream) : Prop where
  /-- No field follows. -/
  none : atField s = false
  /-- The last field does not go on. -/
  last : FieldEnds s

theorem readFields_recognises :
    Recognises readFields (.many Production.field) (fun ds _ => Meaning.fields ds) FieldsEnd := by
  have hfields : Recognises (repeatWhile atField readField) (.many Production.field)
      (fun ds _ => List.map Meaning.field ds) FieldsEnd :=
    readField_recognises.repeatWhile
      { solid := field_tokens_ne_nil
        found := fun d hread _ => atField_of_reads d hread
        again := fun d hread _ => fieldEnds_of_reads d hread
        last := FieldsEnd.last
        stop := FieldsEnd.none }
  exact hfields.finish (q := fun list => pure (NameMap.ofList list)) fun _ _ _ => rfl

/-! ## Enumerations -/

/-- Reading an integer token and its value, which has to fit. -/
theorem integer_recognises :
    Recognises (expect .integer >>= readInteger) Production.integer
      (fun t _ => (Decimal.signed64? t.1.text.toList).get t.2.2) Anything where
  sound := by
    intro rule s n rest h
    obtain ⟨literal, middle, hp, hn⟩ := bind_ok h
    obtain ⟨t, hread, rfl⟩ := (expect_recognises .integer).sound hp
    rw [readInteger, Decimal.read64?_eq] at hn
    cases hvalue : Decimal.signed64? t.1.text.toList with
    | none =>
      rw [hvalue] at hn
      cases hn
    | some value =>
      rw [hvalue] at hn
      obtain ⟨rfl, rfl⟩ := Outcome.ok.inj hn
      exact ⟨⟨t.1, t.2, by simp [hvalue]⟩, hread, by simp [hvalue]⟩
  complete := by
    intro rule s rest t hread _
    have hexpect : expect .integer rule s = _ :=
      (expect_recognises .integer).complete ⟨t.1, t.2.1⟩ hread trivial
    obtain ⟨n, hn⟩ := Option.isSome_iff_exists.1 t.2.2
    simp only [bind_apply, hexpect, readInteger, Decimal.read64?_eq, hn]
    rfl
  unique := by
    intro s rest rest' t t' hread _ hread' _
    have h : (⟨t.1, t.2.1⟩ : Derivation (Production.kind .integer)) = ⟨t'.1, t'.2.1⟩ :=
      (expect_recognises .integer).unique hread trivial hread' trivial
    exact Subtype.ext (congrArg (fun u : Derivation (Production.kind .integer) => u.1) h)

theorem bind_assoc {α β γ : Type} (p : Parser α) (q : α → Parser β) (r : β → Parser γ) :
    p >>= q >>= r = p >>= fun x => q x >>= r := by
  funext rule s
  simp only [bind_apply]
  cases p rule s <;> rfl

theorem readEnumItem_recognises :
    Recognises readEnumItem Production.enumItem (fun d _ => Meaning.enumItem d) Anything := by
  have hvalue (name : String) := integer_recognises.finish
    (q := fun value => pure (name, value)) fun _ _ _ => rfl
  simp only [bind_assoc] at hvalue
  have hcolon (name : String) := (expect_recognises (.punctuation .colon)).bind
    (fun _ => hvalue name) fun _ _ _ => trivial
  exact (itemName_recognises.bind hcolon fun _ _ _ => trivial).within .enumItem

/-- An item shows itself to the test for one. -/
theorem atEnumItem_of_reads (d : Derivation Production.enumItem) (h : s.Reads d.tokens rest) :
    atEnumItem s = true := by
  obtain ⟨⟨t, hk⟩ | ⟨t, hk⟩, colon, literal⟩ := d
  · have hkind : s.kindAt 0 = .identifier := (h.kindAt (t := t) rfl).trans hk
    have hcolon : s.kindAt 1 = .punctuation .colon := (h.kindAt (t := colon.1) rfl).trans colon.2
    have hliteral : s.kindAt 2 = .integer := (h.kindAt (t := literal.1) rfl).trans literal.2.1
    simp [atEnumItem, isAt_iff.2 hkind, hcolon, hliteral]
  · have hkind : s.kindAt 0 = .smallIdentifier := (h.kindAt (t := t) rfl).trans hk
    simp [atEnumItem, isAt_iff.2 hkind]

theorem enumItem_tokens_ne_nil (d : Derivation Production.enumItem) : d.tokens ≠ [] := by
  obtain ⟨t, _, (htokens : d.tokens = _)⟩ := itemName_isToken.first d
  rw [htokens]
  exact List.cons_ne_nil _ _

theorem readEnumItems_recognises :
    Recognises readEnumItems (.many Production.enumItem) (fun ds _ => Meaning.enumItems ds)
      (fun s => atEnumItem s = false) := by
  have hitems : Recognises (repeatWhile atEnumItem readEnumItem) (.many Production.enumItem)
      (fun ds _ => List.map Meaning.enumItem ds) (fun s => atEnumItem s = false) :=
    readEnumItem_recognises.repeatWhile
      { solid := enumItem_tokens_ne_nil
        found := fun d hread _ => atEnumItem_of_reads d hread
        again := fun _ _ _ => trivial
        last := fun _ => trivial
        stop := fun h => h }
  exact hitems.finish (q := fun list => pure (NameMap.ofList list)) fun _ _ _ => rfl

/-! ## Declarations -/

/-- A declaration ends, whatever its body is. -/
structure DeclarationEnds (s : Stream) : Prop where
  /-- No field follows, and the last one does not go on. -/
  fields : FieldsEnd s
  /-- No item of an enumeration follows. -/
  items : atEnumItem s = false

theorem readBody_recognises (m : Marker) :
    Recognises (readBody m) (Production.body m) (fun d _ => Meaning.body m d) DeclarationEnds := by
  cases m with
  | table =>
    exact (readFields_recognises.mono fun _ hs => hs.fields).finish
      (q := fun list => pure (Shape.relation (.ofFields list))) fun _ _ _ => rfl
  | type =>
    exact (readFields_recognises.mono fun _ hs => hs.fields).finish
      (q := fun list => pure (Shape.tuple list)) fun _ _ _ => rfl
  | enumeration =>
    exact (readEnumItems_recognises.mono fun _ hs => hs.items).finish
      (q := fun list => pure (Shape.enumeration list)) fun _ _ _ => rfl

/-- The derivation of a declaration from its marker and the one for this marker. -/
def declare : (m : Marker) → Derivation (Production.declarationOf m) →
    Derivation Production.declaration
  | .table, d => .inl d
  | .type, d => .inr (.inl d)
  | .enumeration, d => .inr (.inr d)

/-- Every derivation of a declaration is one for some marker. -/
theorem exists_declare (d : Derivation Production.declaration) :
    ∃ m, ∃ d' : Derivation (Production.declarationOf m), d = declare m d' := by
  rcases d with d | d | d
  · exact ⟨.table, d, rfl⟩
  · exact ⟨.type, d, rfl⟩
  · exact ⟨.enumeration, d, rfl⟩

@[simp] theorem declare_tokens (m : Marker) (d : Derivation (Production.declarationOf m)) :
    (declare m d).tokens = d.tokens := by
  cases m <;> rfl

theorem declaration_tokens_ne_nil (d : Derivation Production.declaration) : d.tokens ≠ [] := by
  obtain ⟨m, d, rfl⟩ := exists_declare d
  rw [declare_tokens]
  exact List.cons_ne_nil _ _

@[simp] theorem meaning_declare (m : Marker) (d : Derivation (Production.declarationOf m)) :
    Meaning.declaration (declare m d) = Meaning.declarationOf m d := by
  cases m <;> rfl

theorem marker?_eq_some_iff {t : Token} {m : Marker} : marker? t = some m ↔ t.kind = .marker m := by
  unfold marker?
  split
  · next n hn => simp [hn]
  · next hne => simpa using hne m

theorem marker?_of_declarationOf {m : Marker} (d : Derivation (Production.declarationOf m)) :
    marker? d.1.1 = some m := marker?_eq_some_iff.2 d.1.2

/-- Reading a marker and going on by it. -/
theorem marker_recognises {α : Type} {F : Stream → Prop} {q : Marker → Parser α}
    {v : (m : Marker) → Derivation (Production.headed (Production.body m)) → Stream → α}
    {w : Derivation Production.declaration → Stream → α}
    (hq : ∀ m, Recognises (q m) (Production.headed (Production.body m)) (v m) F)
    (hw : ∀ m (d : Derivation (Production.declarationOf m)) rest,
      v m d.2 rest = w (declare m d) rest) :
    Recognises (take .marker marker? >>= q) Production.declaration w F where
  sound := by
    intro rule s x rest h
    obtain ⟨m, middle, hm, hx⟩ := bind_ok h
    obtain ⟨t, ht, rfl⟩ := (choice_recognises .marker marker?).sound hm
    obtain ⟨d, hd, rfl⟩ := (hq _).sound hx
    have hk : t.1.kind = .marker ((marker? t.1).get t.2) :=
      marker?_eq_some_iff.1 (Option.some_get t.2).symm
    let whole : Derivation (Production.declarationOf _) := (⟨t.1, hk⟩, d)
    refine ⟨declare _ whole, ?_, hw _ whole rest⟩
    rw [declare_tokens]
    exact ht.append hd
  complete := by
    intro rule s rest d hread hf
    obtain ⟨m, d, rfl⟩ := exists_declare d
    rw [declare_tokens] at hread
    obtain ⟨middle, h, h'⟩ := Stream.Reads.append_iff.1 hread
    have hm := marker?_of_declarationOf d
    have htake : take .marker marker? rule s = _ :=
      (choice_recognises .marker marker?).complete ⟨d.1.1, by simp [hm]⟩ h trivial
    simp only [hm, Option.get_some] at htake
    rw [bind_apply, htake, ← hw]
    exact (hq m).complete d.2 h' hf
  unique := by
    intro s rest rest' d d' hread hf hread' hf'
    obtain ⟨m, d, rfl⟩ := exists_declare d
    obtain ⟨m', d', rfl⟩ := exists_declare d'
    rw [declare_tokens] at hread hread'
    have hmarker := (kindAt_of_seq hread).symm.trans (kindAt_of_seq hread')
    obtain rfl := TokenKind.marker.inj hmarker
    have hseq := ((expect_recognises (.marker m)).bind (fun _ => hq m) fun _ _ _ => trivial).unique
      hread hf hread' hf'
    rw [hseq]

/-- Behind optional attributes stands a colon, so no bracket. -/
theorem avoids_bracket_of_colon {d : Derivation (.seq (Production.mark .colon) e)}
    (h : s.Reads d.tokens rest) : Avoids (.punctuation .openBracket) s :=
  At.avoids (kindAt_of_seq h) (by decide)

theorem readDeclaration_recognises :
    Recognises readDeclaration Production.declaration (fun d _ => Meaning.declaration d)
      DeclarationEnds := by
  have hbody (first : Span) (name : Token) (attrs : Attributes) (m : Marker) :=
    (readBody_recognises m).finish
      (q := fun shape => spanFrom first >>= fun span =>
        pure (name.text, (⟨shape, false, attrs, span⟩ : DataType)))
      (k := fun shape rest => (name.text, ⟨shape, false, attrs, rest.spanFrom first⟩))
      fun _ _ _ => rfl
  have hcolon (first : Span) (name : Token) (m : Marker) (attrs : Attributes) :=
    (expect_recognises (.punctuation .colon)).bind (fun _ => hbody first name attrs m)
      fun _ _ _ => trivial
  have hattrs (first : Span) (m : Marker) (name : Token) :=
    optionalAttributes_recognises.bind (hcolon first name m) fun _ hread _ =>
      avoids_bracket_of_colon hread
  have hheaded (first : Span) (m : Marker) :=
    (expect_recognises .identifier).bind (hattrs first m) fun _ _ _ => trivial
  have hmarker (first : Span) := marker_recognises (hheaded first)
    (w := fun d rest =>
      ((Meaning.declaration d).1, { (Meaning.declaration d).2 with span := rest.spanFrom first }))
    (by
      intro m d rest
      rw [meaning_declare]
      rfl)
  refine (Recognises.start hmarker ?_).within .declaration
  intro s rest d hread
  obtain ⟨m, d, rfl⟩ := exists_declare d
  rw [declare_tokens] at hread
  rw [meaning_declare, hread.spanFrom (List.cons_ne_nil _ _) .origin]
  rfl

end Grammar
end SyslModel
