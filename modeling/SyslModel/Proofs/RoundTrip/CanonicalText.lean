import SyslModel.Proofs.Grammar.AttributeReaders
import SyslModel.Proofs.Grammar.MemberReaders
import SyslModel.Proofs.RoundTrip.Lexemes
import SyslModel.Proofs.RoundTrip.Prints
import SyslModel.Proofs.Tree.Respan
import SyslModel.Tree
/-!
# Canonical texts are sentences

The canonical text of every writable construct prints the right side of its rule, at every level of
indentation, and what is read differs from what was written in spans at most.
-/

namespace SyslModel

/-!
## The canonical text of attributes

The canonical text of attributes prints the list of attributes, and that of flags the list of flags.
Where there are none, nothing is written, and the list is left out.
-/

section AttributeText

variable {e : Phrase}

/-! ### One attribute -/

theorem prints_attr {key : String} {value : Attribute} (h : WritableAttribute key value) :
    Prints (value.canonical key) Production.attr Whatever
      fun d => Meaning.attr d = (key, value) := by
  obtain ⟨text, rfl, hline⟩ := h.value
  have hquoted : Prints (Quoted.write text)
      (.either (Production.kind .quoted) (Production.kind .qualifiedName)) Whatever
      fun d => Meaning.attributeText d = text := by
    have htoken : Prints (Quoted.write text) (Production.kind .quoted) Whatever _ :=
      .token (fun rest _ => Scans.quoted (Quoted.write_matches hline) rest) fun _ hkind _ => hkind
    refine htoken.inl.map ?_
    rintro _ ⟨u, rfl, -, hu⟩
    exact (congrArg Quoted.read hu).trans (Quoted.read_write text)
  have hequals := (Prints.mark .equals).seq hquoted fun _ _ => trivial
  have hkey := (Prints.kind rfl h.key).seq hequals fun rest _ =>
    endsWord_append_append (endsWord_mark .equals) rest
  rw [Attribute.canonical, String.append_assoc]
  refine hkey.map ?_
  rintro d ⟨hk, -, hv⟩
  show (d.1.1.text, Attribute.text (Meaning.attributeText d.2.2)) = (key, .text text)
  rw [hk, hv]

theorem prints_fieldAttr {name : String} {value : Attribute} (h : WritableFlag name value) :
    Prints (value.canonical name) Production.fieldAttr EndsWord
      fun d => Meaning.fieldAttr d = (name, value) := by
  obtain ⟨negated, rfl⟩ := h.value
  have hname := Prints.kind rfl h.name
  cases negated with
  | true =>
    have htilde := (Prints.mark .tilde).present.seq hname fun _ _ => trivial
    refine htilde.map ?_
    rintro d ⟨⟨tilde, ht, -⟩, hn⟩
    show (d.2.1.text, Attribute.flag (Option.isSome d.1)) = (name, .flag true)
    rw [ht, hn]
    rfl
  | false =>
    have hnone := (Prints.absent (e := Production.mark .tilde)).seq hname fun _ _ => trivial
    rw [String.empty_append] at hnone
    refine hnone.map ?_
    rintro d ⟨ht, hn⟩
    show (d.2.1.text, Attribute.flag (Option.isSome d.1)) = (name, .flag false)
    rw [ht, hn]
    rfl

/-! ### Lists of attributes -/

/-- Texts with a separator between them: the first, and the others each behind a separator. -/
theorem intercalate_cons (separator first : String) (others : List String) :
    separator.intercalate (first :: others) =
      first ++ String.join (others.map fun text => separator ++ text) := by
  induction others generalizing first with
  | nil => simp
  | cons second others ih =>
    rw [String.intercalate_cons_cons, ih, List.map_cons, String.join_cons, String.append_assoc,
      String.append_assoc]

theorem prints_bracketed {v : Derivation e → String × Attribute}
    {write : String × Attribute → String} {first : String × Attribute}
    {others : List (String × Attribute)}
    (h : ∀ a ∈ first :: others, Prints (write a) e EndsWord fun d => v d = a) :
    Prints ("[" ++ (", ".intercalate ((first :: others).map write) ++ "]"))
      (Production.bracketed e) Whatever
      fun d => (Meaning.items d).map v = first :: others := by
  rw [List.forall_mem_cons] at h
  have hcomma : ∀ a ∈ others, Prints (", " ++ write a) (.seq (Production.mark .comma) e) EndsWord
      fun d => v d.2 = a := by
    intro a ha
    have hitem : Prints (" " ++ write a) e EndsWord _ := (h.2 a ha).afterBlanks (by decide)
    have hseq := (Prints.mark .comma).seq hitem fun _ _ => trivial
    rw [← String.append_assoc] at hseq
    exact hseq.map fun _ h => h.2
  have hends : ∀ a ∈ others, ∀ rest, EndsWord ((", " ++ write a).toList ++ rest) :=
    fun a _ rest => endsWord_append_append (endsWord_append rfl (by decide)) rest
  have hothers := Prints.many (g := id) hcomma hends
  have hitems := h.1.seq hothers fun _ hrest => Prints.follow_join hends hrest
  have hclose := hitems.present.seq (Prints.mark .closeBracket) fun rest _ =>
    endsWord_mark .closeBracket rest
  have hopen := (Prints.mark .openBracket).seq hclose fun _ _ => trivial
  rw [List.map_cons, intercalate_cons, List.map_map]
  refine hopen.map ?_
  rintro ⟨_, list, _⟩ ⟨-, ⟨⟨d, ds⟩, rfl, hd, hds⟩, -⟩
  have hmap : List.map v (ds.map Prod.snd) = List.map (fun d => v d.2) ds := List.map_map ..
  show v d :: List.map v (ds.map Prod.snd) = first :: others
  rw [hmap, hd, hds, List.map_id]

/-! ### Lists that may be left out -/

/-- The canonical text of attributes prints a list that is left out where there are none. -/
theorem prints_attributes {W : String → Attribute → Prop} {v : Derivation e → String × Attribute}
    (hw : ∀ key value, W key value →
      Prints (value.canonical key) e EndsWord fun d => v d = (key, value))
    {attrs : Attributes} (h : attrs.Each W) :
    Prints attrs.canonical (.option (Production.bracketed e)) Whatever
      fun d => Option.elim d .empty (fun d => NameMap.ofList ((Meaning.items d).map v))
        = attrs := by
  obtain ⟨entries⟩ := attrs
  cases entries with
  | nil =>
    refine Prints.absent.map ?_
    rintro _ rfl
    rfl
  | cons first others =>
    have hlist := prints_bracketed fun a ha => hw a.1 a.2 (h.entry a ha)
    have hblank := hlist.present.afterBlanks (s := " ") (by decide)
    have htext : Attributes.canonical ⟨first :: others⟩ = " " ++ ("[" ++ (", ".intercalate
        ((first :: others).map fun a => a.2.canonical a.1) ++ "]")) := by
      rw [Attributes.canonical, if_neg (by simp [NameMap.isEmpty]), ← String.append_assoc,
        ← String.append_assoc]
      rfl
    rw [htext]
    refine hblank.map ?_
    rintro _ ⟨d, rfl, hd⟩
    show NameMap.ofList ((Meaning.items d).map v) = _
    rw [hd]
    exact h.ofList_entries

theorem prints_optionalAttributes {attrs : Attributes} (h : attrs.Each WritableAttribute) :
    Prints attrs.canonical (.option Production.attrs) Whatever
      fun d => Meaning.optionalAttributes d = attrs :=
  prints_attributes (fun _ _ h => (prints_attr h).mono fun _ _ => trivial) h

theorem prints_fieldAttrs {attrs : Attributes} (h : attrs.Each WritableFlag) :
    Prints attrs.canonical (.option Production.fieldAttrs) Whatever
      fun d => Option.elim d .empty Meaning.fieldAttrs = attrs :=
  prints_attributes (fun _ _ => prints_fieldAttr) h

/-- No word goes on with attributes, nor with what follows them where there are none. -/
theorem endsWord_attributes (attrs : Attributes) {rest : List Char} (hrest : EndsWord rest) :
    EndsWord (attrs.canonical.toList ++ rest) := by
  unfold Attributes.canonical
  split
  · exact hrest
  · rw [String.append_assoc]
    exact endsWord_append_append (endsWord_append rfl (by decide)) rest

theorem endsWord_attributes_append (attrs : Attributes) {t : String} {rest : List Char}
    (ht : EndsWord (t.toList ++ rest)) : EndsWord ((attrs.canonical ++ t).toList ++ rest) := by
  rw [String.toList_append, List.append_assoc]
  exact endsWord_attributes attrs ht

end AttributeText

/-!
## The canonical text of types

The canonical text of a shape prints a type reference, the line of a field prints a field and the
line of an item an item of an enumeration.  The lines of a whole body print its repetition, and
since no name stands twice, the map that is read is the map that was written, but for spans.
-/

/-! ### Names of types -/

/-- The dotted form of a path that was split off a text is the text. -/
theorem dotted_of_path_eq {target : Reference} {text : String}
    (h : target.path = Reference.segments text) : target.dotted = text := by
  rw [← Reference.dotted_ofDotted text target.span, Reference.dotted, Reference.dotted, h]
  rfl

theorem unspanned_ofDotted {target : Reference} {text : String} (span : Span)
    (h : target.path = Reference.segments text) :
    (Reference.ofDotted text span).unspanned = target.unspanned := by
  rw [Reference.unspanned, Reference.unspanned, h]
  rfl

/-- The word of a primitive. -/
theorem prints_primitive (p : Primitive) :
    Prints p.keyword Production.primitive EndsWord
      fun u => u.1.kind = .primitive p ∧ u.1.text = p.keyword :=
  .word rfl (TokenKind.primitive_writes p) fun u hkind _ => by
    simp [Grammar.primitive?_eq_some_iff.2 hkind]

theorem prints_shape {shape : Shape DataType} (h : WritableShape shape) :
    Prints shape.canonical Production.typeRef EndsWord
      fun d => (Meaning.shape d).unspanned = shape.unspanned := by
  cases h with
  | primitive p =>
    refine (prints_primitive p).inl.map ?_
    rintro _ ⟨u, rfl, hkind, -⟩
    have hp : Meaning.primitive u = p :=
      TokenKind.primitive.inj ((Grammar.kind_of_primitive u).symm.trans hkind)
    exact congrArg Shape.primitive hp
  | @foreignKey target text htext hpath =>
    rw [Shape.canonical, dotted_of_path_eq hpath]
    refine (Prints.kind rfl htext).inl.inr.map ?_
    rintro _ ⟨_, rfl, u, rfl, hu⟩
    rw [← hu] at hpath
    exact congrArg Shape.foreignKey (unspanned_ofDotted u.1.span hpath)
  | @typeRef target text htext hpath =>
    rw [Shape.canonical, dotted_of_path_eq hpath]
    refine (Prints.kind rfl htext).inr.inr.map ?_
    rintro _ ⟨_, rfl, u, rfl, hu⟩
    rw [← hu] at hpath
    exact congrArg Shape.typeRef (unspanned_ofDotted u.1.span hpath)

theorem prints_typeRef {t : DataType} (h : WritableTypeRef t) :
    Prints t.canonical Production.typeRef EndsWord
      fun d => (Meaning.typeRef d).unspanned = t.unspanned := by
  obtain ⟨shape, optional, attrs, span⟩ := t
  obtain ⟨hshape, rfl, rfl⟩ := h
  have htext : DataType.canonical ⟨shape, false, .empty, span⟩ = shape.canonical := by
    simp [DataType.canonical, Attributes.canonical, NameMap.isEmpty, NameMap.empty]
  rw [htext]
  refine (prints_shape hshape).map fun d hd => ?_
  rw [DataType.unspanned_eq, DataType.unspanned_eq]
  exact congrArg (fun shape => (⟨shape, false, .empty, .origin⟩ : DataType)) hd

/-! ### Fields -/

/-- The question mark of an optional type. -/
theorem prints_optional (optional : Bool) :
    Prints (if optional then "?" else "") (.option (Production.mark .question)) Whatever
      fun d => Option.isSome d = optional := by
  cases optional with
  | true =>
    refine (Prints.mark .question).present.map ?_
    rintro _ ⟨_, rfl, -⟩
    rfl
  | false =>
    refine Prints.absent.map ?_
    rintro _ rfl
    rfl

theorem endsWord_optional (optional : Bool) {rest : List Char} (hrest : EndsWord rest) :
    EndsWord ((if optional then "?" else "").toList ++ rest) := by
  cases optional with
  | true => exact endsWord_mark .question rest
  | false => exact hrest

/-- A field without the indentation and the end of its line. -/
theorem prints_field {name : String} {t : DataType} (h : WritableField name t) :
    Prints (name ++ " <: " ++ t.canonical) Production.field EndsWord
      fun d => (Meaning.field d).1 = name ∧ (Meaning.field d).2.unspanned = t.unspanned := by
  have hname : Prints name (.either (Production.kind .smallIdentifier) Production.primitive)
      EndsWord fun d => Meaning.eitherText d = name := by
    rcases h.name with hname | ⟨p, rfl⟩
    · exact (Prints.kind rfl hname).eitherInl
    · exact ((prints_primitive p).map fun _ hu => hu.2).eitherInr
  have hflags := (prints_optional t.optional).seq
    ((prints_fieldAttrs h.flags).mono (G := EndsWord) fun _ _ => trivial)
    fun _ _ => trivial
  have htype := (prints_shape h.shape).seq hflags fun rest hrest => by
    rw [String.toList_append, List.append_assoc]
    exact endsWord_optional _ (endsWord_attributes _ hrest)
  have hsubset := ((Prints.mark .subset).afterBlanks (s := " ") (by decide)).seq
    (htype.afterBlanks (s := " ") (by decide)) fun _ _ => trivial
  have hfield := hname.seq hsubset fun rest _ =>
    endsWord_append_append (endsWord_append_append (endsWord_append rfl (by decide))) rest
  have htext : name ++ " <: " ++ t.canonical = name ++ ((" " ++ Punctuation.subset.text) ++
      (" " ++ (t.shape.canonical ++ ((if t.optional then "?" else "") ++ t.attrs.canonical)))) := by
    have hmark : " <: " = " " ++ Punctuation.subset.text ++ " " := rfl
    rw [hmark, DataType.canonical]
    simp only [String.append_assoc]
  rw [htext]
  refine hfield.map ?_
  rintro d ⟨hn, -, hs, ho, ha⟩
  refine ⟨hn, ?_⟩
  rw [DataType.unspanned_eq, DataType.unspanned_eq]
  show (⟨(Meaning.shape d.2.2.1).unspanned, Option.isSome d.2.2.2.1,
    Option.elim d.2.2.2.2 .empty Meaning.fieldAttrs, .origin⟩ : DataType) = _
  rw [hs, ho, ha]

theorem indentation_isBlank (level : Nat) : (indentation level).toList.all isBlank = true := by
  rw [List.all_eq_true]
  intro c hc
  rw [indentation, String.toList_ofList] at hc
  rw [List.eq_of_mem_replicate hc]
  decide

theorem prints_fieldLine (level : Nat) {name : String} {t : DataType} (h : WritableField name t) :
    Prints (DataType.fieldLine level name t) Production.field Whatever
      fun d => ((Meaning.field d).1, (Meaning.field d).2.unspanned) = (name, t.unspanned) := by
  have hline := ((prints_field h).beforeBlanks (s := "\n") (G := Whatever) (by decide)
    fun rest _ => endsWord_append rfl (by decide) rest).afterBlanks (indentation_isBlank level)
  have htext : DataType.fieldLine level name t =
      indentation level ++ (name ++ " <: " ++ t.canonical ++ "\n") := by
    simp only [DataType.fieldLine, String.append_assoc]
  rw [htext]
  exact hline.map fun d hd => Prod.ext hd.1 hd.2

/-- The lines of fields print them all, and the map that is read differs in spans at most. -/
theorem prints_fields (level : Nat) {fields : Fields} (h : fields.Each WritableField) :
    Prints (String.join (fields.entries.map fun f => DataType.fieldLine level f.1 f.2))
      (.many Production.field) Whatever
      fun ds => (Meaning.fields ds).mapValues DataType.unspanned
        = fields.mapValues DataType.unspanned := by
  have hlines := Prints.many (f := fun d => ((Meaning.field d).1, (Meaning.field d).2.unspanned))
    (fun f hf => prints_fieldLine level (h.entry f hf)) fun _ _ _ => trivial
  refine hlines.map fun ds hds => ?_
  exact h.mapValues_ofList DataType.unspanned ((List.map_map ..).trans hds)

/-! ### Enumerations -/

theorem signed64?_text {n : Int} (h : Decimal.isSigned64 n = true) :
    Decimal.signed64? (Decimal.text n).toList = some n := by
  rw [Decimal.signed64?, Decimal.value?_text, Option.filter_some, if_pos h]

/-- An item without the indentation and the end of its line. -/
theorem prints_item {name : String} {value : Int} (h : WritableItem name value) :
    Prints (name ++ ": " ++ Decimal.text value) Production.enumItem EndsWord
      fun d => Meaning.enumItem d = (name, value) := by
  have hname : Prints name
      (.either (Production.kind .identifier) (Production.kind .smallIdentifier)) EndsWord
      fun d => Meaning.eitherText d = name := by
    rcases h.name with hname | hname
    · exact (Prints.kind rfl hname).eitherInl
    · exact (Prints.kind rfl hname).eitherInr
  have hvalue : Prints (Decimal.text value) Production.integer EndsWord _ :=
    .word rfl (Decimal.text_writes value) fun u hkind htext =>
      ⟨hkind, by rw [htext, signed64?_text h.value]; rfl⟩
  have hcolon := (Prints.mark .colon).seq (hvalue.afterBlanks (s := " ") (by decide))
    fun _ _ => trivial
  have hitem := hname.seq hcolon fun rest _ => endsWord_append_append (endsWord_mark .colon) rest
  have htext : name ++ ": " ++ Decimal.text value =
      name ++ (Punctuation.colon.text ++ (" " ++ Decimal.text value)) := by
    have hmark : ": " = Punctuation.colon.text ++ " " := rfl
    rw [hmark]
    simp only [String.append_assoc]
  rw [htext]
  refine hitem.map ?_
  rintro d ⟨hn, -, -, ht⟩
  refine Prod.ext hn ?_
  show (Decimal.signed64? d.2.2.1.text.toList).get _ = value
  simp only [ht, signed64?_text h.value, Option.get_some]

theorem prints_itemLine (level : Nat) {name : String} {value : Int} (h : WritableItem name value) :
    Prints (DataType.itemLine level name value) Production.enumItem Whatever
      fun d => Meaning.enumItem d = (name, value) := by
  have hline := ((prints_item h).beforeBlanks (s := "\n") (G := Whatever) (by decide)
    fun rest _ => endsWord_append rfl (by decide) rest).afterBlanks (indentation_isBlank level)
  have htext : DataType.itemLine level name value =
      indentation level ++ (name ++ ": " ++ Decimal.text value ++ "\n") := by
    simp only [DataType.itemLine, String.append_assoc]
  rw [htext]
  exact hline

theorem prints_items (level : Nat) {items : NameMap Int} (h : items.Each WritableItem) :
    Prints (String.join (items.entries.map fun i => DataType.itemLine level i.1 i.2))
      (.many Production.enumItem) Whatever fun ds => Meaning.enumItems ds = items := by
  have hlines := Prints.many (f := Meaning.enumItem) (g := id)
    (fun i hi => prints_itemLine level (h.entry i hi)) fun _ _ _ => trivial
  refine hlines.map fun ds hds => ?_
  rw [List.map_id] at hds
  show NameMap.ofList (List.map Meaning.enumItem ds) = items
  rw [hds, h.ofList_entries]

/-! ### Bodies -/

theorem WritableBody.marker_eq {m : Marker} {shape : Shape DataType} (h : WritableBody m shape) :
    shape.marker = m.keyword := by
  cases h <;> rfl

theorem prints_body (level : Nat) {m : Marker} {shape : Shape DataType} (h : WritableBody m shape) :
    Prints (DataType.body level shape) (Production.body m) Whatever
      fun d => (Meaning.body m d).unspanned = shape.unspanned := by
  cases h with
  | relation hfields =>
    refine (prints_fields level hfields).map fun ds hds => ?_
    rw [Shape.unspanned_ofFields, ← hds]
    exact Shape.unspanned_ofFields _
  | tuple hfields =>
    refine (prints_fields level hfields).map fun ds hds => ?_
    rw [Shape.unspanned_tuple, ← hds]
    exact Shape.unspanned_tuple _
  | enumeration hitems =>
    exact (prints_items level hitems).map fun _ => congrArg Shape.enumeration

/-!
## The canonical text of declarations, endpoints and applications

Each canonical text prints the right side of its rule, at every level of indentation, and what is
read differs in spans at most.
-/

section ApplicationText

variable {e : Phrase} {R : Derivation e → Prop}

/-! ### Headers -/

/-- A name, attributes, a colon and what stands below. -/
theorem prints_headed {name below : String} {attrs : Attributes}
    (hname : TokenKind.identifier.Writes name) (hattrs : attrs.Each WritableAttribute)
    (hbelow : Prints below e Whatever R) :
    Prints (name ++ (attrs.canonical ++ (":\n" ++ below))) (Production.headed e) Whatever
      fun d => d.1.1.text = name ∧ Meaning.optionalAttributes d.2.1 = attrs ∧ R d.2.2.2 := by
  have hcolon := (Prints.mark .colon).seq (hbelow.afterBlanks (s := "\n") (by decide))
    fun _ _ => trivial
  have hlist := (prints_optionalAttributes hattrs).seq hcolon fun _ _ => trivial
  have hheader := (Prints.kind rfl hname).seq hlist fun rest _ =>
    endsWord_attributes_append attrs (endsWord_append_append (endsWord_mark .colon) rest)
  have hmark : ":\n" = Punctuation.colon.text ++ "\n" := rfl
  rw [hmark, String.append_assoc]
  refine hheader.map ?_
  rintro d ⟨hn, ha, -, hb⟩
  exact ⟨hn, ha, hb⟩

/-! ### Members -/

/-- What prints a declaration for one marker prints a declaration. -/
theorem Prints.declare {text : String} {m : Marker}
    {P : Derivation (Production.declarationOf m) → Prop}
    (h : Prints text (Production.declarationOf m) Whatever P) :
    Prints text Production.declaration Whatever fun d => ∃ d', d = Grammar.declare m d' ∧ P d' := by
  obtain ⟨lexemes, hscans, hderives⟩ := h
  refine ⟨lexemes, hscans, fun tokens htokens => ?_⟩
  obtain ⟨d, hd, hP⟩ := hderives tokens htokens
  exact ⟨Grammar.declare m d, (Grammar.declare_tokens m d).trans hd, d, rfl, hP⟩

theorem prints_declaration (level : Nat) {name : String} {t : DataType}
    (h : WritableDeclaration name t) :
    Prints (t.declaration level name) Production.declaration Whatever
      fun d => (Meaning.declaration d).1 = name ∧
        (Meaning.declaration d).2.unspanned = t.unspanned := by
  obtain ⟨m, hm⟩ := h.body
  have hmarker : Prints m.keyword (Production.kind (.marker m)) EndsWord _ :=
    Prints.kind rfl (TokenKind.marker_writes m)
  have hheaded := prints_headed h.name h.attrs (prints_body (level + 1) hm)
  have hwhole := (hmarker.seq (hheaded.afterBlanks (s := " ") (by decide)) fun rest _ =>
    endsWord_append_append (endsWord_append rfl (by decide)) rest).afterBlanks
    (indentation_isBlank level)
  have htext : t.declaration level name = indentation level ++ (m.keyword ++ (" " ++ (name ++
      (t.attrs.canonical ++ (":\n" ++ DataType.body (level + 1) t.shape))))) := by
    rw [DataType.declaration, hm.marker_eq]
    simp only [String.append_assoc]
  rw [htext]
  refine (Prints.declare hwhole).map ?_
  rintro _ ⟨d, rfl, -, hn, ha, hb⟩
  rw [Grammar.meaning_declare]
  refine ⟨hn, ?_⟩
  rw [DataType.unspanned_eq, DataType.unspanned_eq, h.required]
  show (⟨(Meaning.body m d.2.2.2.2).unspanned, false, Meaning.optionalAttributes d.2.2.1,
    .origin⟩ : DataType) = _
  rw [hb, ha]

theorem pathName_append (name : String) : Grammar.pathName ("/" ++ name) = name := by
  have hpath : ("/" ++ name).toList = '/' :: name.toList := by simp
  rw [Grammar.pathName, hpath]
  exact String.ofList_toList

theorem prints_endpoint (level : Nat) {e : Endpoint} (h : WritableEndpoint e) :
    Prints (e.canonical level) Production.endpoint Whatever
      fun d => (Meaning.endpoint d).unspanned = e.unspanned := by
  have hmethod : Prints e.method.keyword Production.method EndsWord _ :=
    .word rfl (TokenKind.method_writes e.method) fun u hkind _ => by
      simp [Grammar.method?, hkind]
  have hcolon := (Prints.mark .colon).beforeBlanks (s := "\n") (G := Whatever) (by decide)
    fun _ _ => trivial
  have hattrs := (prints_optionalAttributes h.attrs).seq hcolon fun _ _ => trivial
  have hrest := hmethod.seq hattrs fun rest _ =>
    endsWord_attributes_append e.attrs (endsWord_append_append (endsWord_mark .colon) rest)
  have hwhole := ((Prints.kind rfl h.name).seq (hrest.afterBlanks (s := " ") (by decide))
    fun rest _ => endsWord_append_append (endsWord_append rfl (by decide)) rest).afterBlanks
    (indentation_isBlank level)
  have htext : e.canonical level = indentation level ++ ("/" ++ e.name ++ (" " ++
      (e.method.keyword ++ (e.attrs.canonical ++ (Punctuation.colon.text ++ "\n"))))) := by
    have hmark : ":\n" = Punctuation.colon.text ++ "\n" := rfl
    rw [Endpoint.canonical, hmark]
    simp only [String.append_assoc]
  rw [htext]
  refine hwhole.map ?_
  rintro d ⟨hn, ⟨hm, -⟩, ha, -⟩
  have hvalue : Meaning.method d.2.1 = e.method := by
    unfold Meaning.method
    simp [Grammar.method?, hm]
  show (⟨Grammar.pathName d.1.1.text, Meaning.method d.2.1, Meaning.optionalAttributes d.2.2.1,
    .origin⟩ : Endpoint) = _
  rw [hn, pathName_append, hvalue, ha]
  rfl

theorem prints_member (level : Nat) {name : String} {member : Member}
    (h : WritableMember name member) :
    Prints (member.canonical level name) Production.member Whatever
      fun d => ((Meaning.member d).1, (Meaning.member d).2.unspanned)
        = (name, member.unspanned) := by
  cases h with
  | type h =>
    refine (prints_declaration level h).inl.map ?_
    rintro _ ⟨d, rfl, hn, ht⟩
    exact Prod.ext hn (congrArg Member.type ht)
  | @endpoint e hname h =>
    refine (prints_endpoint level h).inr.map ?_
    rintro _ ⟨d, rfl, hd⟩
    have hn : (Meaning.endpoint d).name = name := (congrArg Endpoint.name hd).trans hname
    exact Prod.ext hn (congrArg Member.endpoint hd)

/-! ### Applications and models -/

theorem prints_application (level : Nat) {app : Application} (h : WritableApplication app) :
    Prints (app.canonical level) Production.application Whatever
      fun d => (Meaning.application d).unspanned = app.unspanned := by
  have hmembers := Prints.many
    (f := fun d => ((Meaning.member d).1, (Meaning.member d).2.unspanned))
    (fun m hm => prints_member (level + 1) (h.members.entry m hm)) fun _ _ _ => trivial
  have hwhole := (prints_headed h.name h.attrs hmembers).afterBlanks (indentation_isBlank level)
  have htext : app.canonical level = indentation level ++ (app.name ++ (app.attrs.canonical ++
      (":\n" ++ String.join
        (app.members.entries.map fun m => m.2.canonical (level + 1) m.1)))) := by
    simp only [Application.canonical, String.append_assoc]
  rw [htext]
  refine hwhole.map ?_
  rintro d ⟨hn, ha, hm⟩
  have hmap := h.members.mapValues_ofList Member.unspanned ((List.map_map ..).trans hm)
  show (⟨d.1.1.text, Meaning.optionalAttributes d.2.1, (NameMap.ofList _).mapValues _,
    .origin⟩ : Application) = _
  rw [hn, ha, hmap]
  rfl

/-- The name and the rest of an application that is read, but for spans. -/
def readAs (d : Derivation Production.application) : String × Application :=
  ((Meaning.application d).name, (Meaning.application d).unspanned)

/-- Applications with an empty line between them. -/
theorem prints_applications (level : Nat) {apps : List (String × Application)}
    (h : ∀ app ∈ apps, app.2.name = app.1 ∧ WritableApplication app.2) :
    Prints ("\n".intercalate (apps.map fun app => app.2.canonical level)) Production.model Whatever
      fun ds => List.map readAs ds = apps.map fun app => (app.1, app.2.unspanned) := by
  have hentry : ∀ app ∈ apps, Prints (app.2.canonical level) Production.application Whatever
      fun d => readAs d = (app.1, app.2.unspanned) := by
    intro app happ
    obtain ⟨hname, hwritable⟩ := h app happ
    refine (prints_application level hwritable).map fun d hd => ?_
    exact Prod.ext ((congrArg Application.name hd).trans hname) hd
  cases apps with
  | nil => exact .nil
  | cons first others =>
    rw [List.forall_mem_cons] at hentry
    have hnext : ∀ app ∈ others, Prints ("\n" ++ app.2.canonical level) Production.application
        Whatever fun d => readAs d = (app.1, app.2.unspanned) :=
      fun app happ => (hentry.2 app happ).afterBlanks (by decide)
    have hothers := Prints.many hnext fun _ _ _ => trivial
    rw [List.map_cons, intercalate_cons, List.map_map]
    exact hentry.1.cons hothers fun _ _ => trivial

theorem prints_model (level : Nat) (final : Token) {m : Model} (h : WritableModel m) :
    Prints (m.canonical level) Production.model Whatever
      fun ds => (Meaning.model final ds).unspanned = m.unspanned := by
  have htext : m.canonical level =
      "\n".intercalate (m.apps.entries.map fun app => app.2.canonical level) := by
    rw [Model.canonical, NameMap.values, List.map_map]
    rfl
  rw [htext]
  refine (prints_applications level h.entry).map fun ds hds => ?_
  let named := List.map (fun app : Application => (app.name, app)) (List.map Meaning.application ds)
  have hread : named.map (fun e => (e.1, e.2.unspanned)) = List.map readAs ds :=
    (List.map_map ..).trans (List.map_map ..)
  have hmap : (NameMap.ofList named).mapValues Application.unspanned = _ :=
    h.mapValues_ofList Application.unspanned (hread.trans hds)
  exact congrArg (fun apps => (⟨apps, .origin⟩ : Model)) hmap

end ApplicationText

end SyslModel
