import SyslModel.Proofs.Grammar.ApplicationReaders
import SyslModel.Proofs.Grammar.Follows
/-!
# Every rule is followed

For each parser there is a theorem that it follows the right side of its rule, put together in the
same way as the parser.  The tests between which a parser branches look at three tokens at most: a
field shows itself in two, an item of an enumeration in three, all else in one.
-/

namespace SyslModel
namespace Grammar

open SyslModel.Parser

variable {e : Phrase}

/-! ## Tests -/

theorem near_atField : Near atField := by
  intro s s' h
  simp only [atField, h.isAt, h.kindAt (show 0 < 3 by decide), h.kindAt (show 1 < 3 by decide)]

theorem near_atEnumItem : Near atEnumItem := by
  intro s s' h
  simp only [atEnumItem, h.isAt, h.kindAt (show 1 < 3 by decide), h.kindAt (show 2 < 3 by decide)]

theorem near_isMarker : Near fun s => (s.kindAt 0).isMarker := by
  intro s s' h
  simp only [h.kindAt (show 0 < 3 by decide)]

theorem near_atMember : Near atMember := by
  intro s s' h
  simp only [atMember, h.isAt, h.kindAt (show 0 < 3 by decide)]

theorem near_ahead : Near fun s => !s.atEnd := by
  intro s s' h
  simp only [h.atEnd]

/-! ## Attributes -/

theorem expect_follows (kind : TokenKind) (h : kind ∈ Production.sampleKinds) :
    Follows (expect kind) (Production.kind kind) :=
  .take (expect_recognises kind) (Production.kind_viable h)

theorem mark_follows (p : Punctuation) : Follows (expect (.punctuation p)) (Production.mark p) :=
  .take (expect_recognises _) (Production.mark_viable p)

/-- Taking a punctuation mark where there is one. -/
theorem accept_follows (p : Punctuation) :
    Follows (accept (.punctuation p)) (.option (Production.mark p)) := by
  refine .option (near_isAt _) ?_
  exact (mark_follows p).finish (q := fun _ => pure true) (k := fun _ _ => true)
    (fun _ _ _ => rfl) fun _ _ _ _ => rfl

theorem bracketed_follows {item : Parser (String × Attribute)} (hitem : Follows item e) :
    Follows (bracketed item) (Production.bracketed e) := by
  have hnext := (mark_follows .comma).bind fun _ => hitem
  have hothers := hnext.repeatWhile (near_isAt (.punctuation .comma)) fun d =>
    List.cons_ne_nil d.1.1 d.2.tokens
  have hsome := hitem.bind fun first => hothers.map (first :: ·)
  have hitems := Follows.branch (near_isAt (.punctuation .closeBracket)) (.absent []) hsome.present
  have hclose (items : List (String × Attribute)) :=
    (mark_follows .closeBracket).map fun _ => NameMap.ofList items
  exact (mark_follows .openBracket).bind fun _ => hitems.bind hclose

theorem readAttribute_follows : Follows readAttribute Production.attr := by
  have htext : Follows (take .attributeText attributeText?) _ :=
    .take attributeText_recognises (.inl (Production.kind_viable (by decide)))
  have hequals (key : Token) := (mark_follows .equals).bind fun _ =>
    htext.map fun text => (key.text, Attribute.text text)
  exact ((expect_follows .smallIdentifier (by decide)).bind hequals).within .attribute

theorem readAttributes_follows : Follows readAttributes Production.attrs :=
  (bracketed_follows readAttribute_follows).within .attributes

theorem optionalAttributes_follows : Follows optionalAttributes (.option Production.attrs) :=
  .option (near_isAt _) readAttributes_follows

theorem readFieldAttr_follows : Follows readFieldAttr Production.fieldAttr := by
  have hname (negated : Bool) := (expect_follows .smallIdentifier (by decide)).map
    fun name => (name.text, Attribute.flag negated)
  exact ((accept_follows .tilde).bind hname).within .fieldAttr

theorem readFieldAttrs_follows : Follows readFieldAttrs Production.fieldAttrs :=
  (bracketed_follows readFieldAttr_follows).within .fieldAttrs

/-! ## Fields and items -/

theorem readTypeRef_follows : Follows readTypeRef Production.typeRef := by
  have hname : Follows (take .typeName typeName?) Production.typeRef :=
    .take typeName_recognises (.inl Production.primitive_viable)
  have hplain (span : Span) := hname.map fun shape => DataType.plain shape span
  exact (Follows.start hplain).within .typeRef

theorem readField_follows : Follows readField Production.field := by
  have hname : Follows (take .fieldName fieldName?) _ :=
    .take fieldName_recognises (.inl (Production.kind_viable (by decide)))
  have hattrs : Follows (branch (·.isAt (.punctuation .openBracket)) readFieldAttrs (pure .empty))
      (.option Production.fieldAttrs) := .option (near_isAt _) readFieldAttrs_follows
  have hlast (first : Span) (name : String) (type : DataType) (optional : Bool) := hattrs.finish
    (q := fun attrs => spanFrom first >>= fun span =>
      pure (name, (⟨type.shape, optional, attrs, span⟩ : DataType)))
    (k := fun attrs rest => (name, ⟨type.shape, optional, attrs, rest.spanFrom first⟩))
    (fun _ _ _ => rfl) fun _ _ _ ha => by rw [ha.spanFrom]
  have hsubset (first : Span) (name : String) := (mark_follows .subset).bind fun _ =>
    readTypeRef_follows.bind fun type => (accept_follows .question).bind (hlast first name type)
  exact (Follows.start fun first => hname.bind (hsubset first)).within .field

theorem readFields_follows : Follows readFields (.many Production.field) :=
  (readField_follows.repeatWhile near_atField field_tokens_ne_nil).map NameMap.ofList

/-- Taking an integer that has to fit: one that does not is reported and has been consumed. -/
theorem integer_follows : Follows (expect .integer >>= readInteger) Production.integer where
  begun := Production.integer_viable
  ok := by
    intro rule s n rest h
    obtain ⟨t, ht, rfl⟩ := integer_recognises.sound h
    exact ⟨t, ht, fun hs' _ => integer_recognises.complete t hs' trivial⟩
  fail := by
    intro rule s failure rest h
    rcases bind_fail h with htake | ⟨literal, middle, htake, hfail⟩
    · obtain ⟨read, hread, hstops, hlocal⟩ := Follows.take_fail Production.integer_viable htake
      refine ⟨read, hread, hstops, ?_⟩
      intro s' rest' hs' ha
      have htake' : expect .integer rule s' = _ := hlocal hs' ha
      rw [bind_apply, htake']
    · obtain ⟨t, ht, rfl⟩ := (expect_recognises .integer).sound htake
      rw [readInteger, Decimal.read64?_eq] at hfail
      cases hvalue : Decimal.signed64? t.1.text.toList with
      | some value =>
        rw [hvalue] at hfail
        cases hfail
      | none =>
        rw [hvalue] at hfail
        obtain ⟨rfl, rfl⟩ := Outcome.fail.inj hfail
        refine ⟨[] ++ [t.1], ht, .integer t.1 Production.integer_viable, ?_⟩
        intro s' rest' hs' _
        have htake' : expect .integer rule s' = _ :=
          (expect_recognises .integer).complete t hs' trivial
        simp only [bind_apply, htake', readInteger, Decimal.read64?_eq, hvalue]
        rfl

theorem readEnumItem_follows : Follows readEnumItem Production.enumItem := by
  have hname : Follows (take .itemName itemName?) _ :=
    .take itemName_recognises (.inl (Production.kind_viable (by decide)))
  have hvalue (name : String) := integer_follows.finish (q := fun value => pure (name, value))
    (k := fun value _ => (name, value)) (fun _ _ _ => rfl) fun _ _ _ _ => rfl
  simp only [bind_assoc] at hvalue
  have hcolon (name : String) := (mark_follows .colon).bind fun _ => hvalue name
  exact (hname.bind hcolon).within .enumItem

theorem readEnumItems_follows : Follows readEnumItems (.many Production.enumItem) :=
  (readEnumItem_follows.repeatWhile near_atEnumItem enumItem_tokens_ne_nil).map NameMap.ofList

/-! ## Declarations, endpoints and applications -/

theorem readBody_follows (m : Marker) : Follows (readBody m) (Production.body m) := by
  cases m with
  | table => exact readFields_follows.map fun fields => Shape.relation (.ofFields fields)
  | type => exact readFields_follows.map Shape.tuple
  | enumeration => exact readEnumItems_follows.map Shape.enumeration

/-- A declaration is begun by its marker. -/
theorem declaration_viable {m : Marker} {tokens : List Token}
    (h : (Production.declarationOf m).Viable tokens) : Production.declaration.Viable tokens := by
  obtain ⟨more, hmore, d, hd⟩ := h
  exact ⟨more, hmore, declare m d, (declare_tokens m d).trans hd⟩

/-- Taking a marker goes past one token of its kind. -/
theorem take_marker_iff {rule : Rule} {m : Marker} {s rest : Stream} :
    take .marker marker? rule s = .ok m rest ↔
      ∃ t : Derivation (Production.kind (.marker m)), s.Reads t.tokens rest := by
  constructor
  · intro h
    obtain ⟨t, ht, rfl⟩ := (choice_recognises .marker marker?).sound h
    exact ⟨⟨t.1, marker?_eq_some_iff.1 (Option.some_get t.2).symm⟩, ht⟩
  · rintro ⟨t, hread⟩
    have hm := marker?_eq_some_iff.2 t.2
    have h : take .marker marker? rule s = _ :=
      (choice_recognises .marker marker?).complete ⟨t.1, by simp [hm]⟩ hread trivial
    simpa only [hm, Option.get_some] using h

/-- Taking a marker and going on by it. -/
theorem marker_follows {α : Type} {q : Marker → Parser α}
    (hq : ∀ m, Follows (q m) (Production.headed (Production.body m))) :
    Follows (take .marker marker? >>= q) Production.declaration := by
  have hbegun : Production.declaration.Viable [] :=
    declaration_viable ((Production.kind_viable (by decide)).first (hq .table).begun)
  refine ⟨hbegun, ?_, ?_⟩
  · intro rule s x rest h
    obtain ⟨m, middle, hm, hx⟩ := bind_ok h
    obtain ⟨t, ht⟩ := take_marker_iff.1 hm
    obtain ⟨d, hd, hlocal⟩ := (hq m).ok hx
    let whole : Derivation (Production.declarationOf m) := (t, d)
    have hwhole : (declare m whole).tokens = t.tokens ++ d.tokens := declare_tokens m whole
    refine ⟨declare m whole, ?_, ?_⟩
    · rw [hwhole]
      exact ht.append hd
    · intro s' rest' hs' ha
      rw [hwhole] at hs'
      obtain ⟨middle', h₁, h₂⟩ := Stream.Reads.append_iff.1 hs'
      rw [bind_apply, take_marker_iff.2 ⟨t, h₁⟩]
      exact hlocal h₂ ha
  · intro rule s failure rest h
    rcases bind_fail h with hm | ⟨m, middle, hm, hfail⟩
    · obtain ⟨read, hread, hstops, hlocal⟩ := Follows.take_fail hbegun hm
      refine ⟨read, hread, hstops, ?_⟩
      intro s' rest' hs' ha
      rw [bind_apply, hlocal hs' ha]
    · obtain ⟨t, ht⟩ := take_marker_iff.1 hm
      obtain ⟨read, hread, hstops, hlocal⟩ := (hq m).fail hfail
      refine ⟨t.tokens ++ read, ht.append hread,
        hstops.behind fun _ hviable => declaration_viable (hviable.second t), ?_⟩
      intro s' rest' hs' ha
      obtain ⟨middle', h₁, h₂⟩ := Stream.Reads.append_iff.1 hs'
      rw [bind_apply, take_marker_iff.2 ⟨t, h₁⟩]
      exact hlocal h₂ ha

theorem readDeclaration_follows : Follows readDeclaration Production.declaration := by
  have hbody (first : Span) (name : Token) (attrs : Attributes) (m : Marker) :=
    (readBody_follows m).finish
      (q := fun shape => spanFrom first >>= fun span =>
        pure (name.text, (⟨shape, false, attrs, span⟩ : DataType)))
      (k := fun shape rest => (name.text, ⟨shape, false, attrs, rest.spanFrom first⟩))
      (fun _ _ _ => rfl) fun _ _ _ ha => by rw [ha.spanFrom]
  have hattrs (first : Span) (m : Marker) (name : Token) :=
    optionalAttributes_follows.bind fun attrs => (mark_follows .colon).bind fun _ =>
      hbody first name attrs m
  have hheaded (first : Span) (m : Marker) :=
    (expect_follows .identifier (by decide)).bind (hattrs first m)
  exact (Follows.start fun first => marker_follows (hheaded first)).within .declaration

theorem readEndpoint_follows : Follows readEndpoint Production.endpoint := by
  have hmethod : Follows (take .method method?) Production.method :=
    .take (choice_recognises .method method?) Production.method_viable
  have hlast (first : Span) (path : Token) (method : Method) (attrs : Attributes) :=
    (mark_follows .colon).finish
      (q := fun _ => spanFrom first >>= fun span =>
        pure (⟨pathName path.text, method, attrs, span⟩ : Endpoint))
      (k := fun _ rest => ⟨pathName path.text, method, attrs, rest.spanFrom first⟩)
      (fun _ _ _ => rfl) fun _ _ _ ha => by rw [ha.spanFrom]
  have hattrs (first : Span) (path : Token) (method : Method) :=
    optionalAttributes_follows.bind (hlast first path method)
  have hpath (first : Span) := (expect_follows .path (by decide)).bind fun path =>
    hmethod.bind (hattrs first path)
  exact (Follows.start hpath).within .endpoint

theorem readMember_follows : Follows readMember Production.member := by
  have hdeclaration := readDeclaration_follows.finish
    (q := fun x => pure (x.1, Member.type x.2)) (k := fun x _ => (x.1, .type x.2))
    (fun _ _ _ => rfl) fun _ _ _ _ => rfl
  have hendpoint := readEndpoint_follows.map fun e => (e.name, Member.endpoint e)
  exact .branch near_isMarker hdeclaration.inl
    (.branch (near_isAt .path) hendpoint.inr (.never hendpoint.inr.begun))

theorem readApplication_follows : Follows readApplication Production.application := by
  have hmembers (first : Span) (name : Token) (attrs : Attributes) :=
    (readMember_follows.repeatWhile near_atMember member_repeats.solid).finish
      (q := fun members => spanFrom first >>= fun span =>
        pure (⟨name.text, attrs, NameMap.ofList members, span⟩ : Application))
      (k := fun members rest => ⟨name.text, attrs, NameMap.ofList members, rest.spanFrom first⟩)
      (fun _ _ _ => rfl) fun _ _ _ ha => by rw [ha.spanFrom]
  have hattrs (first : Span) (name : Token) :=
    optionalAttributes_follows.bind fun attrs => (mark_follows .colon).bind fun _ =>
      hmembers first name attrs
  have hname (first : Span) := (expect_follows .identifier (by decide)).bind (hattrs first)
  exact (Follows.start hname).within .application

end Grammar
end SyslModel
