import SyslModel.Proofs.Grammar.Production
import SyslModel.Proofs.Grammar.Recognises
/-!
# Tokens and attributes are recognised

The parsers that take one token recognise their sort of token, and the parsers of attributes and of
flags recognise the right sides of their rules.  A list between brackets ends by itself; where it
may be left out, no bracket must follow.
-/

namespace SyslModel
namespace Grammar

open SyslModel.Parser

variable {s rest : Stream} {e : Phrase}

/-! ## Single tokens -/

theorem isAt_iff {kind : TokenKind} : s.isAt kind = true ↔ s.kindAt 0 = kind := by
  rw [Stream.isAt, beq_iff_eq]

theorem isAt_eq_false_iff {kind : TokenKind} : s.isAt kind = false ↔ s.kindAt 0 ≠ kind := by
  rw [Stream.isAt, beq_eq_false_iff_ne]

/-- In front of a token of a kind the stream is at that kind. -/
theorem kindAt_of_kind {kind : TokenKind} {t : Derivation (Production.kind kind)}
    (h : s.Reads t.tokens rest) : s.kindAt 0 = kind := by
  rw [h.kindAt (t := t.1) rfl]
  exact t.2

/-- In front of a phrase that begins with a token of a kind the stream is at that kind. -/
theorem kindAt_of_seq {kind : TokenKind} {d : Derivation (.seq (Production.kind kind) e)}
    (h : s.Reads d.tokens rest) : s.kindAt 0 = kind := by
  rw [h.kindAt (t := d.1.1) rfl]
  exact d.1.2

theorem expect_recognises (kind : TokenKind) :
    Recognises (expect kind) (Production.kind kind) (fun t _ => t.1) Anything := by
  refine .take (.token _) ?_ ?_
  · intro t x h
    split at h
    · assumption
    · simp at h
  · rintro ⟨t, hk⟩ _ ht
    obtain rfl := List.singleton_inj.1 ht
    exact if_pos hk

theorem primitive?_eq_some_iff {t : Token} {p : Primitive} :
    Production.primitive? t = some p ↔ t.kind = .primitive p := by
  unfold Production.primitive?
  split
  · next q hq => simp [hq]
  · next hne => simpa using hne p

theorem kind_of_primitive (t : Derivation Production.primitive) :
    t.1.kind = .primitive (Meaning.primitive t) :=
  primitive?_eq_some_iff.1 (Option.some_get t.2).symm

/-- A token that is a primitive is of no other kind. -/
theorem ne_primitive {t : Token} {kind : TokenKind} (hk : t.kind = kind)
    (hne : ∀ p, kind ≠ .primitive p) : ¬ (Production.primitive? t).isSome := by
  intro h
  obtain ⟨p, hp⟩ := Option.isSome_iff_exists.1 h
  exact hne p (hk.symm.trans (primitive?_eq_some_iff.1 hp))

theorem attributeText_recognises :
    Recognises (take .attributeText attributeText?)
      (.either (Production.kind .quoted) (Production.kind .qualifiedName))
      (fun d _ => Meaning.attributeText d) Anything := by
  refine .take (.either (.token _) (.token _) ?_) ?_ ?_
  · intro t hk hk'
    cases hk.symm.trans hk'
  · intro t x h
    unfold attributeText? at h
    split at h
    · exact .inl ‹_›
    · exact .inr ‹_›
    · simp at h
  · rintro (⟨t, hk⟩ | ⟨t, hk⟩) _ ht <;> obtain rfl := List.singleton_inj.1 ht
    · simp [attributeText?, hk, Meaning.attributeText]
    · simp [attributeText?, hk, Meaning.attributeText]

theorem typeName_recognises :
    Recognises (take .typeName typeName?) Production.typeRef (fun d _ => Meaning.shape d)
      Anything := by
  refine .take (.either (.token _) (.either (.token _) (.token _) ?_) ?_) ?_ ?_
  · intro t hk hk'
    cases hk.symm.trans hk'
  · rintro t hp (hk | hk)
    · exact ne_primitive hk (by simp) hp
    · exact ne_primitive hk (by simp) hp
  · intro t x h
    unfold typeName? at h
    split at h
    · next p hp => exact .inl (by simp [primitive?_eq_some_iff.2 hp])
    · exact .inr (.inl ‹_›)
    · exact .inr (.inr ‹_›)
    · simp at h
  · rintro (t | ⟨t, hk⟩ | ⟨t, hk⟩) _ ht <;> obtain rfl := List.singleton_inj.1 ht
    · simp [typeName?, kind_of_primitive t, Meaning.shape]
    · simp [typeName?, hk, Meaning.shape]
    · simp [typeName?, hk, Meaning.shape]

theorem fieldName_isToken :
    (Phrase.either (Production.kind .smallIdentifier) Production.primitive).IsToken
      fun t => t.kind = .smallIdentifier ∨ (Production.primitive? t).isSome :=
  .either (.token _) (.token _) fun _ hk => ne_primitive hk (by simp)

theorem fieldName_recognises :
    Recognises (take .fieldName fieldName?)
      (.either (Production.kind .smallIdentifier) Production.primitive)
      (fun d _ => Meaning.eitherText d) Anything := by
  refine .take fieldName_isToken ?_ ?_
  · intro t x h
    unfold fieldName? at h
    split at h
    · exact .inl ‹_›
    · next p hp => exact .inr (by simp [primitive?_eq_some_iff.2 hp])
    · simp at h
  · rintro (⟨t, hk⟩ | t) _ ht <;> obtain rfl := List.singleton_inj.1 ht
    · simp [fieldName?, hk, Meaning.eitherText]
    · simp [fieldName?, kind_of_primitive t, Meaning.eitherText]

theorem itemName_isToken :
    (Phrase.either (Production.kind .identifier) (Production.kind .smallIdentifier)).IsToken
      fun t => t.kind = .identifier ∨ t.kind = .smallIdentifier :=
  .either (.token _) (.token _) fun _ hk hk' => by cases hk.symm.trans hk'

theorem itemName_recognises :
    Recognises (take .itemName itemName?)
      (.either (Production.kind .identifier) (Production.kind .smallIdentifier))
      (fun d _ => Meaning.eitherText d) Anything := by
  refine .take itemName_isToken ?_ ?_
  · intro t x h
    unfold itemName? at h
    split at h
    · exact .inl ‹_›
    · exact .inr ‹_›
    · simp at h
  · rintro (⟨t, hk⟩ | ⟨t, hk⟩) _ ht <;> obtain rfl := List.singleton_inj.1 ht
    · simp [itemName?, hk, Meaning.eitherText]
    · simp [itemName?, hk, Meaning.eitherText]

/-- Taking a token by what can be made of it. -/
theorem choice_recognises {α : Type} (expected : Expectation) (choose : Token → Option α) :
    Recognises (take expected choose) (.token fun t => (choose t).isSome)
      (fun t _ => (choose t.1).get t.2) Anything := by
  refine .take (.token _) ?_ ?_
  · intro t x h
    simp [h]
  · intro t _ ht
    obtain rfl := List.singleton_inj.1 ht
    exact (Option.some_get t.2).symm

/-! ## Attributes -/

/-- The stream is at a kind of token. -/
def At (kind : TokenKind) : Stream → Prop := fun s => s.kindAt 0 = kind

theorem At.avoids {kind other : TokenKind} (h : At kind s) (hne : kind ≠ other) :
    Avoids other s := fun heq => hne (h.symm.trans heq)

/-- The list between brackets, for an item that does not begin with the closing one. -/
theorem bracketed_recognises {item : Parser (String × Attribute)}
    {v : Derivation e → String × Attribute} (hitem : Recognises item e (fun d _ => v d) Anything)
    (hstart : ∀ {s rest : Stream} (d : Derivation e), s.Reads d.tokens rest →
      s.kindAt 0 ≠ .punctuation .closeBracket) :
    Recognises (bracketed item) (Production.bracketed e)
      (fun d _ => NameMap.ofList ((Meaning.items d).map v)) Anything := by
  have hnext := (expect_recognises (.punctuation .comma)).bind (fun _ => hitem)
    fun _ _ _ => trivial
  have hothers : Recognises
      (repeatWhile (·.isAt (.punctuation .comma)) (expect (.punctuation .comma) >>= fun _ => item))
      (.many (.seq (Production.mark .comma) e)) (fun ds _ => List.map (fun d => v d.2) ds)
      (At (.punctuation .closeBracket)) := by
    refine hnext.repeatWhile ⟨?_, ?_, ?_, ?_, ?_⟩
    · intro d
      exact List.cons_ne_nil d.1.1 d.2.tokens
    · intro s rest d hread _
      exact isAt_iff.2 (kindAt_of_seq hread)
    · intros
      trivial
    · intros
      trivial
    · intro s hs
      exact isAt_eq_false_iff.2 (hs.avoids (by decide))
  have hsome := hitem.bind (fun first => hothers.finish (q := fun others => pure (first :: others))
    fun _ _ _ => rfl) fun _ _ _ => trivial
  have hitems := hsome.optionElse (x := []) (t := (·.isAt (.punctuation .closeBracket)))
    (fun d hread _ => by
      obtain ⟨_, hfirst, _⟩ := Stream.Reads.append_iff.1 hread
      exact isAt_eq_false_iff.2 (hstart d.1 hfirst))
    fun hs => isAt_iff.2 hs
  have hclose (items : List (String × Attribute)) :=
    (expect_recognises (.punctuation .closeBracket)).finish
      (q := fun _ => pure (NameMap.ofList items)) fun _ _ _ => rfl
  have hrest := hitems.bind hclose fun _ hread _ => kindAt_of_kind hread
  have hwhole := (expect_recognises (.punctuation .openBracket)).bind (fun _ => hrest)
    fun _ _ _ => trivial
  refine hwhole.congr ?_
  rintro ⟨_, none | ⟨first, others⟩, _⟩ rest
  · rfl
  · have hmap : List.map (fun d => v d.2) others = List.map v (others.map Prod.snd) :=
      (List.map_map ..).symm
    exact congrArg (fun items => NameMap.ofList (v first :: items)) hmap

theorem readAttribute_recognises :
    Recognises readAttribute Production.attr (fun d _ => Meaning.attr d) Anything := by
  have htext (key : Token) := attributeText_recognises.finish
    (q := fun text => pure (key.text, Attribute.text text)) fun _ _ _ => rfl
  have hequals (key : Token) := (expect_recognises (.punctuation .equals)).bind
    (fun _ => htext key) fun _ _ _ => trivial
  exact ((expect_recognises .smallIdentifier).bind hequals fun _ _ _ => trivial).within .attribute

theorem readAttributes_recognises :
    Recognises readAttributes Production.attrs (fun d _ => Meaning.attrs d) Anything := by
  refine (bracketed_recognises readAttribute_recognises ?_).within .attributes
  intro s rest d hread
  rw [kindAt_of_seq hread]
  decide

theorem kindAt_of_bracketed {d : Derivation (Production.bracketed e)} (h : s.Reads d.tokens rest) :
    s.kindAt 0 = .punctuation .openBracket :=
  kindAt_of_seq h

theorem optionalAttributes_recognises :
    Recognises optionalAttributes (.option Production.attrs)
      (fun d _ => Meaning.optionalAttributes d) (Avoids (.punctuation .openBracket)) := by
  refine (readAttributes_recognises.mono fun _ _ => trivial).option ?_ ?_
  · intro s rest d hread _
    exact isAt_iff.2 (kindAt_of_bracketed hread)
  · intro s hs
    exact isAt_eq_false_iff.2 hs

/-- Taking a token of a kind where there is one. -/
theorem accept_recognises (kind : TokenKind) :
    Recognises (accept kind) (.option (Production.kind kind)) (fun d _ => Option.isSome d)
      (Avoids kind) := by
  have htrue := (expect_recognises kind).finish (q := fun _ => pure true) fun _ _ _ => rfl
  have hoption := (htrue.mono (F := Avoids kind) fun _ _ => trivial).option (x := false)
    (t := (·.isAt kind)) (fun d hread _ => isAt_iff.2 (kindAt_of_kind hread))
    fun hs => isAt_eq_false_iff.2 hs
  refine hoption.congr ?_
  rintro (_ | _) rest <;> rfl

theorem readFieldAttr_recognises :
    Recognises readFieldAttr Production.fieldAttr (fun d _ => Meaning.fieldAttr d) Anything := by
  have hname (negated : Bool) := (expect_recognises .smallIdentifier).finish
    (q := fun name => pure (name.text, Attribute.flag negated)) fun _ _ _ => rfl
  refine ((accept_recognises (.punctuation .tilde)).bind hname ?_).within .fieldAttr
  intro s rest d hread _
  exact At.avoids (kindAt_of_kind hread) (by decide)

theorem readFieldAttrs_recognises :
    Recognises readFieldAttrs Production.fieldAttrs (fun d _ => Meaning.fieldAttrs d)
      Anything := by
  refine (bracketed_recognises readFieldAttr_recognises ?_).within .fieldAttrs
  rintro s rest ⟨_ | tilde, name⟩ hread
  · rw [kindAt_of_kind (t := name) hread]
    decide
  · rw [hread.kindAt (t := tilde.1) rfl, tilde.2]
    decide

end Grammar
end SyslModel
