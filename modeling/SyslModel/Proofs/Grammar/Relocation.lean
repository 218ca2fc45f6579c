import SyslModel.Parsed
import SyslModel.Proofs.Grammar.Recognition
import SyslModel.Proofs.Token.Lossless
import SyslModel.Proofs.Tree.Respan
/-!
# Reading does not look at places

A `Relocation` puts tokens elsewhere in a source, with other spans and other positions.  Reading
relocated tokens gives what reading the tokens gives, relocated: no decision and no message depends
on where a token stands.

`Relocates` says this of a parser, and there is one lemma for each way in which parsers are put
together.  All that a relocation has to respect is how a span is made from the first and the last
token of a construct.
-/

namespace SyslModel

open SyslModel.Parser (collect Collected)

/-- Other places for the tokens of a source. -/
structure Relocation where
  /-- The span that takes the place of a span. -/
  span : Span → Span
  /-- The position that takes the place of a position. -/
  position : Position → Position
  /-- The span of a construct is made from the spans of its first and its last token. -/
  span_from : ∀ first last : Span, span ⟨first.start, max last.stop first.start⟩ =
    ⟨(span first).start, max (span last).stop (span first).start⟩

namespace Relocation

/-- All tokens in one place. -/
def forget : Relocation := ⟨fun _ => .origin, fun _ => .first, fun _ _ => rfl⟩

/-- Tokens moved up by a number of bytes, with other positions. -/
def shift (bytes : Nat) (position : Position → Position) : Relocation where
  span := Span.shift bytes
  position := position
  span_from := by
    intro first last
    exact congrArg (Span.mk _) (Nat.add_max_add_right _ _ _).symm

/-- Tokens that stand further on than a limit are moved down to it. -/
def clamp (limit : Nat) : Relocation where
  span s := ⟨min s.start limit, min s.stop limit⟩
  position p := ⟨min p.line limit, min p.column limit⟩
  span_from := by
    intro first last
    simp only [Span.mk.injEq, true_and]
    omega

end Relocation

/-! ## What is relocated -/

/-- The token elsewhere. -/
def Token.relocate (m : Relocation) (t : Token) : Token :=
  { t with span := m.span t.span, position := m.position t.position }

/-- The stream with its tokens elsewhere. -/
def Stream.relocate (m : Relocation) (s : Stream) : Stream :=
  ⟨s.consumed.map (Token.relocate m), s.ahead.map (Token.relocate m), s.final.relocate m⟩

/-- The error with its token elsewhere. -/
def SyntaxError.relocate (m : Relocation) : SyntaxError → SyntaxError
  | .mismatch expected found => .mismatch expected (found.relocate m)
  | .integerOutOfRange literal => .integerOutOfRange (literal.relocate m)
  | .trailingInput rule found => .trailingInput rule (found.relocate m)

/-- The failure with its token elsewhere. -/
def Failure.relocate (m : Relocation) (failure : Failure) : Failure :=
  { failure with error := failure.error.relocate m }

/-- The diagnostic elsewhere. -/
def Diagnostic.relocate (m : Relocation) (d : Diagnostic) : Diagnostic :=
  { d with span := m.span d.span, position := m.position d.position }

/-- The session with its tokens and its diagnostics elsewhere. -/
def Session.relocate (m : Relocation) (session : Session) : Session :=
  ⟨session.stream.relocate m, session.diagnostics.map (Diagnostic.relocate m), session.failed⟩

/-- The outcome with its value changed and its stream elsewhere. -/
def Outcome.relocate {α β : Type} (m : Relocation) (g : α → β) : Outcome α → Outcome β
  | .ok value rest => .ok (g value) (rest.relocate m)
  | .fail failure rest => .fail (failure.relocate m) (rest.relocate m)

/-- The items of a repetition changed and its stream elsewhere. -/
def Parser.Collected.relocate {α β : Type} (m : Relocation) (g : α → β) (c : Collected α) :
    Collected β :=
  ⟨c.items.map g, c.failure.map (Failure.relocate m), c.rest.relocate m⟩

/-! ## Looking at relocated tokens -/

section Look

variable (m : Relocation) (s : Stream)

theorem Stream.length_ahead_relocate : (s.relocate m).ahead.length = s.ahead.length :=
  List.length_map _

@[simp] theorem Stream.atEnd_relocate : (s.relocate m).atEnd = s.atEnd := by
  obtain ⟨_, _ | ⟨t, others⟩, _⟩ := s <;> rfl

@[simp] theorem Stream.kindAt_relocate (distance : Nat) :
    (s.relocate m).kindAt distance = s.kindAt distance := by
  simp only [Stream.kindAt, Stream.relocate, List.getElem?_map]
  cases s.ahead[distance]? <;> rfl

@[simp] theorem Stream.isAt_relocate (kind : TokenKind) :
    (s.relocate m).isAt kind = s.isAt kind := by
  simp [Stream.isAt]

theorem Stream.current_relocate : (s.relocate m).current = s.current.relocate m := by
  obtain ⟨_, _ | ⟨t, others⟩, _⟩ := s <;> rfl

theorem Stream.spanFrom_relocate (first : Span) :
    (s.relocate m).spanFrom (m.span first) = m.span (s.spanFrom first) := by
  obtain ⟨_ | ⟨last, _⟩, _, _⟩ := s
  · rfl
  · exact (m.span_from first last.span).symm

end Look

/-! ## Parsers -/

/-- On relocated tokens the second parser gives what the first one gives, relocated. -/
def Relocates {α β : Type} (m : Relocation) (g : α → β) (p : Parser α) (q : Parser β) : Prop :=
  ∀ rule s, q rule (s.relocate m) = (p rule s).relocate m g

namespace Relocates

open SyslModel.Parser

variable {m : Relocation} {α β γ δ : Type} {g : α → β} {k : γ → δ}

theorem pure {x : α} {y : β} (h : y = g x) : Relocates m g (pure x) (pure y) := by
  subst h
  intro rule s
  rfl

theorem bind {p : Parser α} {q : Parser β} {next : α → Parser γ} {next' : β → Parser δ}
    (hp : Relocates m g p q) (hnext : ∀ x, Relocates m k (next x) (next' (g x))) :
    Relocates m k (p >>= next) (q >>= next') := by
  intro rule s
  rw [bind_apply, bind_apply, hp]
  cases p rule s with
  | ok value rest => exact hnext value rule rest
  | fail failure rest => rfl

theorem map {p : Parser α} {q : Parser β} {f : α → γ} {f' : β → δ} (hp : Relocates m g p q)
    (h : ∀ x, f' (g x) = k (f x)) : Relocates m k (f <$> p) (f' <$> q) := by
  show Relocates m k (p >>= fun x => Pure.pure (f x)) (q >>= fun y => Pure.pure (f' y))
  exact hp.bind fun x => .pure (h x)

theorem within {p : Parser α} {q : Parser β} (h : Relocates m g p q) (rule : Rule) :
    Relocates m g (within rule p) (within rule q) := fun _ s => h rule s

theorem fail (error : SyntaxError) :
    Relocates m g (fail error) (fail (error.relocate m)) := fun _ _ => rfl

theorem take {expected : Expectation} {choose : Token → Option α} {choose' : Token → Option β}
    (h : ∀ t, choose' (t.relocate m) = (choose t).map g) :
    Relocates m g (take expected choose) (take expected choose') := by
  intro rule s
  obtain ⟨consumed, _ | ⟨t, others⟩, final⟩ := s
  · rfl
  · simp only [Parser.take, Stream.relocate, List.map_cons, h]
    cases choose t <;> rfl

theorem expect (kind : TokenKind) : Relocates m (Token.relocate m) (expect kind) (expect kind) := by
  refine take fun t => ?_
  by_cases h : t.kind = kind <;> simp [Token.relocate, h]

theorem branch {test : Stream → Bool} {yes no : Parser α} {yes' no' : Parser β}
    (htest : ∀ s, test (s.relocate m) = test s) (hyes : Relocates m g yes yes')
    (hno : Relocates m g no no') : Relocates m g (branch test yes no) (branch test yes' no') := by
  intro rule s
  simp only [Parser.branch, htest]
  split
  · exact hyes rule s
  · exact hno rule s

theorem accept (kind : TokenKind) : Relocates m id (accept kind) (accept kind) :=
  branch (fun s => s.isAt_relocate m kind) ((expect kind).bind fun _ => .pure rfl) (.pure rfl)

theorem start : Relocates m m.span start start := by
  intro rule s
  simp only [Parser.start, Parser.look, Stream.current_relocate]
  rfl

theorem spanFrom (first : Span) :
    Relocates m m.span (spanFrom first) (spanFrom (m.span first)) := by
  intro rule s
  simp only [Parser.spanFrom, Parser.look, Stream.spanFrom_relocate]
  rfl

/-! ## Repetition -/

theorem collect {more : Stream → Bool} {item : Parser α} {item' : Parser β}
    (hmore : ∀ s, more (s.relocate m) = more s) (h : Relocates m g item item') (rule : Rule)
    (s : Stream) :
    collect more item' rule (s.relocate m) = (collect more item rule s).relocate m g := by
  fun_induction Parser.collect more item rule s with
  | case1 s hs failure rest hitem =>
    rw [Parser.collect, if_pos ((hmore s).trans hs), h, hitem]
    rfl
  | case2 s hs value rest hitem hlt others ih =>
    have hlt' : (rest.relocate m).ahead.length < (s.relocate m).ahead.length := by
      rwa [Stream.length_ahead_relocate, Stream.length_ahead_relocate]
    rw [Parser.collect, if_pos ((hmore s).trans hs), h, hitem]
    simp only [Outcome.relocate, if_pos hlt', ih]
    rfl
  | case3 s hs value rest hitem hge =>
    have hge' : ¬ (rest.relocate m).ahead.length < (s.relocate m).ahead.length := by
      rwa [Stream.length_ahead_relocate, Stream.length_ahead_relocate]
    rw [Parser.collect, if_pos ((hmore s).trans hs), h, hitem]
    simp only [Outcome.relocate, if_neg hge']
    rfl
  | case4 s hs =>
    rw [Parser.collect, if_neg (by rwa [hmore])]
    rfl

theorem repeatWhile {more : Stream → Bool} {item : Parser α} {item' : Parser β}
    (hmore : ∀ s, more (s.relocate m) = more s) (h : Relocates m g item item') :
    Relocates m (List.map g) (repeatWhile more item) (repeatWhile more item') := by
  intro rule s
  simp only [Parser.repeatWhile, collect hmore h]
  cases hfailure : (Parser.collect more item rule s).failure <;>
    simp only [Collected.relocate, hfailure] <;> rfl

end Relocates

/-! ## The rules -/

namespace Grammar

open Relocates

variable (m : Relocation)

/-- What reading by a rule gives under a name, with other spans in the value. -/
def respanned {α : Type} (f : α → α) (entry : String × α) : String × α := (entry.1, f entry.2)

theorem bracketed_relocates {item : Parser (String × Attribute)} (h : Relocates m id item item) :
    Relocates m id (bracketed item) (bracketed item) := by
  refine (expect _).bind fun _ => ?_
  refine bind (g := id) (branch (fun s => s.isAt_relocate m _) (.pure rfl) ?_) fun items => ?_
  · refine h.bind fun first => ?_
    refine (repeatWhile (g := id) (fun s => s.isAt_relocate m _) ?_).bind fun others => ?_
    · exact (expect _).bind fun _ => h
    · exact .pure (by simp)
  · exact (expect _).bind fun _ => .pure rfl

theorem readAttribute_relocates : Relocates m id readAttribute readAttribute := by
  refine within ((expect _).bind fun key => (expect _).bind fun _ => ?_) _
  refine bind (g := id) (take fun t => ?_) fun text => .pure rfl
  rw [Option.map_id]
  rfl

theorem readAttributes_relocates : Relocates m id readAttributes readAttributes :=
  (bracketed_relocates m (readAttribute_relocates m)).within _

theorem optionalAttributes_relocates : Relocates m id optionalAttributes optionalAttributes :=
  branch (fun s => s.isAt_relocate m _) (readAttributes_relocates m) (.pure rfl)

theorem readFieldAttr_relocates : Relocates m id readFieldAttr readFieldAttr := by
  refine within ((accept _).bind fun negated => ?_) _
  exact bind (expect _) fun name => .pure rfl

theorem readFieldAttrs_relocates : Relocates m id readFieldAttrs readFieldAttrs :=
  (bracketed_relocates m (readFieldAttr_relocates m)).within _

theorem readTypeRef_relocates :
    Relocates m (DataType.respan m.span) readTypeRef readTypeRef := by
  refine within (start.bind fun span => ?_) _
  refine bind (g := Shape.respan m.span) (take fun t => ?_) fun shape => .pure rfl
  obtain ⟨kind, text, span, position⟩ := t
  cases kind <;> rfl

theorem readField_relocates :
    Relocates m (respanned (DataType.respan m.span)) readField readField := by
  refine within (start.bind fun first => ?_) _
  refine bind (g := id) (take fun t => ?_) fun name => ?_
  · rw [Option.map_id]
    rfl
  refine (expect _).bind fun _ => (readTypeRef_relocates m).bind fun type => ?_
  refine (accept _).bind fun optional => ?_
  refine bind (g := id) ?_ fun attrs => (spanFrom first).bind fun span => .pure ?_
  · exact branch (fun s => s.isAt_relocate m _) (readFieldAttrs_relocates m) (.pure rfl)
  · rw [respanned, DataType.respan_eq, DataType.respan_eq]
    rfl

theorem atField_relocate (s : Stream) : atField (s.relocate m) = atField s := by
  simp [atField]

theorem readFields_relocates :
    Relocates m (NameMap.mapValues (DataType.respan m.span)) readFields readFields :=
  (repeatWhile (atField_relocate m) (readField_relocates m)).bind fun list =>
    .pure (NameMap.mapValues_ofList _ list).symm

theorem readEnumItem_relocates : Relocates m id readEnumItem readEnumItem := by
  refine within ?_ _
  refine bind (g := id) (take fun t => ?_) fun name => ?_
  · rw [Option.map_id]
    rfl
  refine (expect _).bind fun _ => (expect _).bind fun literal => ?_
  refine bind (g := id) ?_ fun value => .pure rfl
  have htext : (literal.relocate m).text = literal.text := rfl
  rw [readInteger, readInteger, htext, Decimal.read64?_eq]
  cases Decimal.signed64? literal.text.toList with
  | none => exact .fail (.integerOutOfRange literal)
  | some value => exact .pure rfl

theorem atEnumItem_relocate (s : Stream) : atEnumItem (s.relocate m) = atEnumItem s := by
  simp [atEnumItem]

theorem readEnumItems_relocates : Relocates m id readEnumItems readEnumItems :=
  (repeatWhile (atEnumItem_relocate m) (readEnumItem_relocates m)).bind fun list =>
    .pure (by rw [List.map_id]; rfl)

theorem readBody_relocates (marker : Marker) :
    Relocates m (Shape.respan m.span) (readBody marker) (readBody marker) := by
  cases marker with
  | table =>
    exact (readFields_relocates m).bind fun fields => .pure (Shape.respan_ofFields _ fields).symm
  | type =>
    exact (readFields_relocates m).bind fun fields => .pure (Shape.respan_tuple _ fields).symm
  | enumeration => exact (readEnumItems_relocates m).bind fun items => .pure rfl

theorem readDeclaration_relocates :
    Relocates m (respanned (DataType.respan m.span)) readDeclaration readDeclaration := by
  refine within (start.bind fun first => ?_) _
  refine bind (g := id) (take fun t => ?_) fun marker => ?_
  · rw [Option.map_id]
    rfl
  refine (expect _).bind fun name => (optionalAttributes_relocates m).bind fun attrs => ?_
  refine (expect _).bind fun _ => (readBody_relocates m marker).bind fun shape => ?_
  exact (spanFrom first).bind fun span => .pure rfl

theorem readEndpoint_relocates :
    Relocates m (Endpoint.respan m.span) readEndpoint readEndpoint := by
  refine within (start.bind fun first => (expect _).bind fun path => ?_) _
  refine bind (g := id) (take fun t => ?_) fun method => ?_
  · rw [Option.map_id]
    rfl
  refine (optionalAttributes_relocates m).bind fun attrs => (expect _).bind fun _ => ?_
  exact (spanFrom first).bind fun span => .pure rfl

theorem readMember_relocates :
    Relocates m (respanned (Member.respan m.span)) readMember readMember :=
  branch (fun s => by simp) ((readDeclaration_relocates m).bind fun _ => .pure rfl)
    (branch (fun s => s.isAt_relocate m .path)
      ((readEndpoint_relocates m).bind fun _ => .pure rfl) (take fun _ => rfl))

theorem atMember_relocate (s : Stream) : atMember (s.relocate m) = atMember s := by
  simp [atMember]

theorem readApplication_relocates :
    Relocates m (Application.respan m.span) readApplication readApplication := by
  refine within (start.bind fun first => (expect _).bind fun name => ?_) _
  refine (optionalAttributes_relocates m).bind fun attrs => (expect _).bind fun _ => ?_
  refine (repeatWhile (atMember_relocate m) (readMember_relocates m)).bind fun members => ?_
  refine (spanFrom first).bind fun span => .pure ?_
  rw [Application.respan, NameMap.mapValues_ofList]
  rfl

/-- The parser of every rule but the outermost. -/
theorem reader_relocates {rule : Rule} {p : Parser Fragment} (h : reader? rule = some p) :
    Relocates m (Fragment.respan m.span) p p := by
  cases rule with
  | model => cases h
  | application =>
    obtain rfl := Option.some.inj h
    exact (readApplication_relocates m).map fun _ => rfl
  | attributes =>
    obtain rfl := Option.some.inj h
    exact (readAttributes_relocates m).map fun _ => rfl
  | «attribute» =>
    obtain rfl := Option.some.inj h
    exact (readAttribute_relocates m).map fun _ => rfl
  | declaration =>
    obtain rfl := Option.some.inj h
    exact (readDeclaration_relocates m).map fun _ => rfl
  | enumItem =>
    obtain rfl := Option.some.inj h
    exact (readEnumItem_relocates m).map fun _ => rfl
  | field =>
    obtain rfl := Option.some.inj h
    exact (readField_relocates m).map fun _ => rfl
  | typeRef =>
    obtain rfl := Option.some.inj h
    exact (readTypeRef_relocates m).map fun _ => rfl
  | fieldAttrs =>
    obtain rfl := Option.some.inj h
    exact (readFieldAttrs_relocates m).map fun _ => rfl
  | fieldAttr =>
    obtain rfl := Option.some.inj h
    exact (readFieldAttr_relocates m).map fun _ => rfl
  | endpoint =>
    obtain rfl := Option.some.inj h
    exact (readEndpoint_relocates m).map fun _ => rfl

end Grammar

/-! ## Sessions -/

section Sessions

variable (m : Relocation)

theorem Diagnostic.ofSyntaxError_relocate (e : SyntaxError) (rule : Option Rule) :
    Diagnostic.ofSyntaxError (e.relocate m) rule =
      (Diagnostic.ofSyntaxError e rule).relocate m := by
  cases e <;> rfl

theorem Session.record_relocate (session : Session) (e : SyntaxError) :
    (session.relocate m).record (e.relocate m) = (session.record e).relocate m := by
  simp only [Session.record, Session.relocate, Diagnostic.ofSyntaxError_relocate, List.map_append,
    List.map_cons, List.map_nil]

/-- The model that is made of the applications that were read. -/
theorem model_relocate (first : Token) (items : List Application) (rest : Stream) :
    (⟨.ofList ((items.map (Application.respan m.span)).map fun app => (app.name, app)),
      (rest.relocate m).spanFrom (first.relocate m).span⟩ : Model) =
    Model.respan m.span
      ⟨.ofList (items.map fun app => (app.name, app)), rest.spanFrom first.span⟩ := by
  have hspan : (rest.relocate m).spanFrom (first.relocate m).span
    = m.span (rest.spanFrom first.span) := rest.spanFrom_relocate m first.span
  rw [Model.respan, NameMap.mapValues_ofList, hspan, List.map_map, List.map_map]
  rfl

theorem Session.readModel_relocate (session : Session) : (session.relocate m).readModel =
    (session.readModel.1.respan m.span, session.readModel.2.relocate m) := by
  have happs : collect (fun s => !s.atEnd) Grammar.readApplication .model
      (session.stream.relocate m) =
      (collect (fun s => !s.atEnd) Grammar.readApplication .model session.stream).relocate m
        (Application.respan m.span) :=
    Relocates.collect (fun s => by simp) (Grammar.readApplication_relocates m) _ _
  have hstream : (session.relocate m).stream = session.stream.relocate m := rfl
  simp only [Session.readModel, hstream, happs, Stream.current_relocate]
  generalize collect (fun s => !s.atEnd) Grammar.readApplication .model session.stream = apps
  obtain ⟨items, _ | failure, rest⟩ := apps
  · exact Prod.ext (model_relocate m _ items rest) rfl
  · refine Prod.ext (model_relocate m _ items rest) ?_
    exact ((session.moveTo rest).remember failure.rule).record_relocate m failure.error

theorem Session.call_relocate {rule : Rule} {p : Parser Fragment}
    (hp : Relocates m (Fragment.respan m.span) p p) (session : Session) :
    (session.relocate m).call rule p =
      (match (session.call rule p).1 with
        | .ok value => .ok (value.respan m.span)
        | .error error => .error (error.relocate m),
      (session.call rule p).2.relocate m) := by
  have hstream : (session.relocate m).stream = session.stream.relocate m := rfl
  simp only [Session.call, hstream, hp rule session.stream]
  cases p rule session.stream <;> rfl

theorem Session.readWhole_relocate {rule : Rule} {p : Parser Fragment}
    (hp : Relocates m (Fragment.respan m.span) p p) (session : Session) :
    (session.relocate m).readWhole rule p =
      ((session.readWhole rule p).1.map (Fragment.respan m.span),
        (session.readWhole rule p).2.relocate m) := by
  simp only [Session.readWhole, Session.call_relocate m hp session]
  obtain ⟨error | value, session⟩ := session.call rule p
  · exact Prod.ext rfl (session.record_relocate m error)
  · have hend : (session.relocate m).stream.atEnd = session.stream.atEnd :=
      session.stream.atEnd_relocate m
    dsimp only
    rw [hend]
    split
    · rfl
    · have hcurrent : (session.relocate m).stream.current = session.stream.current.relocate m :=
        session.stream.current_relocate m
      rw [hcurrent]
      exact Prod.ext rfl (Session.record_relocate m { session with failed := some rule }
        (.trailingInput rule session.stream.current))

/-- Reading by a rule does not look at places. -/
theorem Session.readRule_relocate (session : Session) (rule : Rule) :
    (session.relocate m).readRule rule =
      ((session.readRule rule).1.map (Fragment.respan m.span),
        (session.readRule rule).2.relocate m) := by
  cases hreader : Grammar.reader? rule with
  | none =>
    obtain rfl := eq_model_of_reader? hreader
    rw [readRule_model, readRule_model, Session.readModel_relocate]
    rfl
  | some p =>
    rw [readRule_eq_readWhole hreader, readRule_eq_readWhole hreader]
    exact session.readWhole_relocate m (Grammar.reader_relocates m hreader)

theorem Session.before_relocate (tokens : List Token) (final : Token) :
    (Session.before tokens final).relocate m =
      Session.before (tokens.map (Token.relocate m)) (final.relocate m) := rfl

/-- Tokens that derive from a rule derive from it elsewhere, and mean the same there, with other
spans. -/
theorem exists_relocated (final : Token) (rule : Rule) (d : Derivation (Production.ofRule rule)) :
    ∃ d' : Derivation (Production.ofRule rule), d'.tokens = d.tokens.map (Token.relocate m) ∧
      Meaning.ofRule (final.relocate m) rule d' = (Meaning.ofRule final rule d).respan m.span := by
  obtain ⟨hvalue, hdiagnostics⟩ := readRule_of_derivation final rule (d := d) rfl
  have hread := (Session.before d.tokens final).readRule_relocate m rule
  rw [Session.before_relocate] at hread
  obtain ⟨d', hd'⟩ := derivation_of_readRule (final.relocate m) rule
    (show ((Session.before (d.tokens.map (Token.relocate m)) _).readRule rule).2.diagnostics = [] by
      rw [hread, Session.relocate, hdiagnostics, List.map_nil])
  refine ⟨d', hd', ?_⟩
  have hvalue' := (readRule_of_derivation (final.relocate m) rule hd').1
  rw [hread, hvalue] at hvalue'
  exact (Option.some.inj hvalue').symm

/-! ## Sources -/

/-- Parsing a source reads its tokens. -/
theorem parseRule_of_tokens {source : String} {tokens : List Token} {final : Token}
    (htokens : (tokenize source).tokens = tokens ++ [final]) (rule : Rule) :
    parseRule source rule =
      ⟨((Session.before tokens final).readRule rule).1,
        (tokenize source).errors.map Diagnostic.ofLexicalError
          ++ ((Session.before tokens final).readRule rule).2.diagnostics⟩ := by
  obtain ⟨hfinal, -, hkinds⟩ := kinds_of_tokens htokens
  rw [← Session.ofTokens_eq hkinds hfinal, ← htokens]
  rfl

end Sessions

end SyslModel
