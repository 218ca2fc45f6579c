import SyslModel.Proofs.Grammar.MemberReaders
/-!
# Endpoints, members and applications are recognised

Behind the members of an application either the source ends or the next application begins.  Either
way no member, no field and no item of an enumeration follows.  For an item this takes a look at the
third token: the header of an application has a colon behind its name as well, but no integer behind
the colon.
-/

namespace SyslModel
namespace Grammar

open SyslModel.Parser

variable {s rest : Stream}

/-! ## Members -/

theorem readEndpoint_recognises :
    Recognises readEndpoint Production.endpoint (fun d _ => Meaning.endpoint d) Anything := by
  have hlast (first : Span) (path : Token) (method : Method) (attrs : Attributes) :=
    (expect_recognises (.punctuation .colon)).finish
      (q := fun _ => spanFrom first >>= fun span =>
        pure (⟨pathName path.text, method, attrs, span⟩ : Endpoint))
      (k := fun _ rest => ⟨pathName path.text, method, attrs, rest.spanFrom first⟩)
      fun _ _ _ => rfl
  have hattrs (first : Span) (path : Token) (method : Method) :=
    optionalAttributes_recognises.bind (hlast first path method) fun _ hread _ =>
      At.avoids (kindAt_of_kind hread) (by decide)
  have hmethod (first : Span) (path : Token) :=
    (choice_recognises .method method?).bind (hattrs first path) fun _ _ _ => trivial
  have hpath (first : Span) := (expect_recognises .path).bind (hmethod first) fun _ _ _ => trivial
  refine (Recognises.start hpath ?_).within .endpoint
  intro s rest d hread
  exact congrArg (fun span => { Meaning.endpoint d with span })
    (hread.spanFrom (List.cons_ne_nil _ _) .origin)

theorem kindAt_of_declaration {d : Derivation Production.declaration} (h : s.Reads d.tokens rest) :
    ∃ m, s.kindAt 0 = .marker m := by
  obtain ⟨m, d, rfl⟩ := exists_declare d
  rw [declare_tokens] at h
  exact ⟨m, kindAt_of_seq h⟩

theorem kindAt_of_endpoint {d : Derivation Production.endpoint} (h : s.Reads d.tokens rest) :
    s.kindAt 0 = .path := kindAt_of_seq h

theorem readMember_recognises :
    Recognises readMember Production.member (fun d _ => Meaning.member d) DeclarationEnds := by
  have hdeclaration := readDeclaration_recognises.finish
    (q := fun x => pure (x.1, Member.type x.2)) (k := fun x _ => (x.1, .type x.2))
    fun _ _ _ => rfl
  have hendpoint := (readEndpoint_recognises.mono (F := DeclarationEnds) fun _ _ => trivial).finish
    (q := fun e => pure (e.name, Member.endpoint e)) fun _ _ _ => rfl
  have hguarded := hendpoint.orFail (t := (·.isAt .path)) (take_none_ne_ok .member)
    fun d hread _ => beq_iff_eq.2 (kindAt_of_endpoint hread)
  refine (hdeclaration.branch hguarded ?_ ?_).congr ?_
  · intro s rest d hread _
    obtain ⟨m, hm⟩ := kindAt_of_declaration hread
    rw [hm]
    rfl
  · intro s rest d hread _
    rw [kindAt_of_endpoint hread]
    rfl
  · rintro (d | d) rest <;> rfl

theorem kindAt_of_member {d : Derivation Production.member} (h : s.Reads d.tokens rest) :
    (∃ m, s.kindAt 0 = .marker m) ∨ s.kindAt 0 = .path := by
  rcases d with d | d
  · exact .inl (kindAt_of_declaration h)
  · exact .inr (kindAt_of_endpoint h)

/-- A declaration ends in front of a token that begins no field, no item and no list. -/
theorem declarationEnds_of_member (h : (∃ m, s.kindAt 0 = .marker m) ∨ s.kindAt 0 = .path) :
    DeclarationEnds s := by
  rcases h with ⟨m, hk⟩ | hk
  · refine ⟨⟨?_, ?_, ?_⟩, ?_⟩ <;> simp [atField, atEnumItem, Stream.isAt, hk, TokenKind.isPrimitive]
  · refine ⟨⟨?_, ?_, ?_⟩, ?_⟩ <;> simp [atField, atEnumItem, Stream.isAt, hk, TokenKind.isPrimitive]

theorem atMember_of_member (h : (∃ m, s.kindAt 0 = .marker m) ∨ s.kindAt 0 = .path) :
    atMember s = true := by
  rcases h with ⟨m, hk⟩ | hk <;> simp [atMember, Stream.isAt, hk, TokenKind.isMarker]

/-- Where a member starts there is a declaration or an endpoint to be read, so the complaint that
there is neither is not reached. -/
theorem readMember_of_atMember (h : atMember s = true) (rule : Rule) :
    readMember rule s =
      if (s.kindAt 0).isMarker then
        (readDeclaration >>= fun d => pure (d.1, .type d.2)) rule s
      else (readEndpoint >>= fun e => pure (e.name, .endpoint e)) rule s := by
  unfold readMember branch
  by_cases hmarker : (s.kindAt 0).isMarker = true
  · rw [if_pos hmarker, if_pos hmarker]
  · have hpath : s.isAt .path = true := by simpa [atMember, hmarker] using h
    rw [if_neg hmarker, if_neg hmarker, if_pos hpath]

/-! ## Applications -/

/-- An application ends: no member follows, nor what a member could go on with, nor an integer. -/
structure ApplicationEnds (s : Stream) : Prop where
  /-- The last declaration ends. -/
  declaration : DeclarationEnds s
  /-- No member follows. -/
  member : atMember s = false
  /-- No integer follows. -/
  integer : s.kindAt 0 ≠ .integer

theorem member_repeats :
    Recognises.Repeats atMember Production.member DeclarationEnds ApplicationEnds where
  solid := by
    rintro (d | d)
    · exact declaration_tokens_ne_nil d
    · exact List.cons_ne_nil _ _
  found := fun _ hread _ => atMember_of_member (kindAt_of_member hread)
  again := fun _ hread _ => declarationEnds_of_member (kindAt_of_member hread)
  last := ApplicationEnds.declaration
  stop := ApplicationEnds.member

theorem readApplication_recognises :
    Recognises readApplication Production.application (fun d _ => Meaning.application d)
      ApplicationEnds := by
  have hmembers (first : Span) (name : Token) (attrs : Attributes) :=
    (readMember_recognises.repeatWhile member_repeats).finish
      (q := fun members => spanFrom first >>= fun span =>
        pure (⟨name.text, attrs, NameMap.ofList members, span⟩ : Application))
      (k := fun members rest => ⟨name.text, attrs, NameMap.ofList members, rest.spanFrom first⟩)
      fun _ _ _ => rfl
  have hcolon (first : Span) (name : Token) (attrs : Attributes) :=
    (expect_recognises (.punctuation .colon)).bind (fun _ => hmembers first name attrs)
      fun _ _ _ => trivial
  have hattrs (first : Span) (name : Token) :=
    optionalAttributes_recognises.bind (hcolon first name) fun _ hread _ =>
      avoids_bracket_of_colon hread
  have hname (first : Span) :=
    (expect_recognises .identifier).bind (hattrs first) fun _ _ _ => trivial
  refine (Recognises.start hname ?_).within .application
  intro s rest d hread
  exact congrArg (fun span => { Meaning.application d with span })
    (hread.spanFrom (List.cons_ne_nil _ _) .origin)

theorem kindAt_of_atEnd (h : s.atEnd = true) (distance : Nat) : s.kindAt distance = .endOfFile := by
  rw [Stream.kindAt, List.isEmpty_iff.1 h]
  rfl

/-- An application ends where the source ends. -/
theorem applicationEnds_of_atEnd (h : s.atEnd = true) : ApplicationEnds s := by
  have hk := kindAt_of_atEnd h 0
  refine ⟨⟨⟨?_, ?_, ?_⟩, ?_⟩, ?_, ?_⟩ <;>
    simp [atField, atEnumItem, atMember, Stream.isAt, hk, TokenKind.isPrimitive, TokenKind.isMarker]

/-- No integer stands in front of members that end, nor where they end. -/
theorem kindAt_of_members {ds : Derivation (.many Production.member)} (h : s.Reads ds.tokens rest)
    (hrest : rest.kindAt 0 ≠ .integer) : s.kindAt 0 ≠ .integer := by
  cases ds with
  | nil =>
    obtain rfl := Stream.Reads.nil_iff.1 h
    exact hrest
  | cons d ds =>
    obtain ⟨middle, hd, -⟩ := Stream.Reads.append_iff.1 h
    rcases kindAt_of_member hd with ⟨m, hk⟩ | hk <;> simp [hk]

/-- The header of an application is no item of an enumeration: no integer is behind its colon. -/
theorem atEnumItem_of_application {d : Derivation Production.application}
    (h : s.Reads d.tokens rest) (hrest : rest.kindAt 0 ≠ .integer) : atEnumItem s = false := by
  have hname : s.kindAt 0 = .identifier := kindAt_of_seq h
  have hcolon : s.kindAt 1 = .punctuation .colon → s.kindAt 2 ≠ .integer := by
    intro hcolon
    obtain ⟨name, _ | attrs, colon, members⟩ := d
    · obtain ⟨middle, hheader, hmembers⟩ :=
        (@Stream.Reads.append_iff _ _ [name.1, colon.1] _).1 h
      have hsecond : s.kindAt 2 = middle.kindAt 0 := hheader.kindAt_length 0
      rw [hsecond]
      exact kindAt_of_members hmembers hrest
    · have hbracket : s.kindAt 1 = .punctuation .openBracket :=
        (h.kindAt (t := attrs.1.1) rfl).trans attrs.1.2
      cases hbracket.symm.trans hcolon
  simpa [atEnumItem, Stream.isAt, hname] using hcolon

/-- An application may follow an application. -/
theorem applicationEnds_of_reads (d : Derivation Production.application)
    (h : s.Reads d.tokens rest) (hrest : ApplicationEnds rest) : ApplicationEnds s := by
  have hname : s.kindAt 0 = .identifier := kindAt_of_seq h
  refine ⟨⟨⟨?_, ?_, ?_⟩, atEnumItem_of_application h hrest.integer⟩, ?_, ?_⟩ <;>
    simp [atField, atMember, Stream.isAt, hname, TokenKind.isPrimitive, TokenKind.isMarker]

theorem application_repeats :
    Recognises.Repeats (fun s => !s.atEnd) Production.application ApplicationEnds
      (fun s => s.atEnd = true) where
  solid := fun _ => List.cons_ne_nil _ _
  found := by
    intro s rest d hread _
    have hlt := hread.length_lt (List.cons_ne_nil _ _)
    have hne : s.ahead ≠ [] := List.ne_nil_of_length_pos (by omega)
    simpa [Stream.atEnd] using hne
  again := fun d hread hrest => applicationEnds_of_reads d hread hrest
  last := applicationEnds_of_atEnd
  stop := fun h => by simp [h]

end Grammar
end SyslModel
