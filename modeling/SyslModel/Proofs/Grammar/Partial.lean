import SyslModel.Proofs.Grammar.Fresh
import SyslModel.Proofs.Grammar.Spans
import SyslModel.Proofs.Token.Cut
/-!
# Whole and partial models

A whole file is read application by application.  So two files may be put behind each other, and a
file with an error may be cut in front of the application that has it.
-/

namespace SyslModel

/-!
## Models compose by concatenation

`parseModel_concat` puts two sources behind each other, with a line feed between them.  If both
parse without diagnostics, so do they together, and the applications of the second are given to the
first, one by one: a repeated name replaces the whole application where it stands.

The tokens are those of the one and then those of the other.  The derivations can be put behind each
other as well, since a model is any number of applications and nothing else.
-/

/-- A source that parses as a model without diagnostics derives from the grammar. -/
theorem derivation_of_parseModel {source : String} {m : Model}
    (h : parseModel source = ⟨some m, []⟩) :
    (tokenize source).errors = [] ∧ ∃ (ds : Derivation Production.model) (final : Token),
      (tokenize source).tokens = ds.tokens ++ [final] ∧ m = Meaning.model final ds := by
  obtain ⟨tokens, final, htokens, -⟩ := final_token source
  obtain ⟨hvalue, hdiagnostics⟩ := Parsed.mk.inj h
  rw [parseRule_of_tokens htokens] at hvalue hdiagnostics
  obtain ⟨herrors, hread⟩ := List.append_eq_nil_iff.1 hdiagnostics
  obtain ⟨ds, rfl⟩ := derivation_of_readRule final .model hread
  have hmeaning := (readRule_of_derivation final .model (d := ds) rfl).1
  rw [hmeaning] at hvalue
  exact ⟨List.map_eq_nil_iff.1 herrors, ds, final, htokens, (Option.some.inj hvalue).symm⟩

theorem parseModel_of_derivation {source : String} {ds : Derivation Production.model}
    {final : Token} (hlexed : (tokenize source).errors = [])
    (htokens : (tokenize source).tokens = ds.tokens ++ [final]) :
    parseModel source = ⟨some (Meaning.model final ds), []⟩ := by
  obtain ⟨hvalue, hdiagnostics⟩ :=
    readRule_of_derivation final .model (show ds.tokens = ds.tokens from rfl)
  rw [parseModel, parseRule_of_tokens htokens]
  dsimp only
  rw [hvalue, hdiagnostics, hlexed]
  rfl

/-- Two derivations of a model, one behind the other. -/
def Derivation.append (ds ds' : Derivation Production.model) : Derivation Production.model :=
  List.append ds ds'

theorem Derivation.tokens_append (ds ds' : Derivation Production.model) :
    (ds.append ds').tokens = ds.tokens ++ ds'.tokens := List.flatMap_append

theorem Derivation.map_append {α : Type} (f : Derivation Production.application → α)
    (ds ds' : Derivation Production.model) :
    List.map f (ds.append ds') = List.map f ds ++ List.map f ds' := List.map_append

/-- The applications of the second are given to those of the first. -/
theorem applications_append (ds ds' : Derivation Production.model) :
    Meaning.applications (ds.append ds')
      = (Meaning.applications ds).insertAll (Meaning.applications ds').entries := by
  rw [Meaning.applications, Meaning.applications, Meaning.applications, NameMap.insertAll_ofList,
    Derivation.map_append, List.map_append, NameMap.ofList, NameMap.insertAll_append]
  rfl

/-- Two sources that parse without diagnostics do so with a line feed between them, and the
applications of the second are given to those of the first, moved up by the length of the first. -/
theorem parseModel_concat {first second : String} {m₁ m₂ : Model}
    (h₁ : parseModel first = ⟨some m₁, []⟩) (h₂ : parseModel second = ⟨some m₂, []⟩) :
    ∃ m, parseModel (first ++ "\n" ++ second) = ⟨some m, []⟩ ∧
      m.apps = m₁.apps.insertAll
        (m₂.apps.mapValues (Application.respan (.shift (first.utf8ByteSize + 1)))).entries := by
  obtain ⟨hlexed₁, ds₁, final₁, htokens₁, rfl⟩ := derivation_of_parseModel h₁
  obtain ⟨hlexed₂, ds₂, final₂, htokens₂, rfl⟩ := derivation_of_parseModel h₂
  have hlexed := errors_append_newline hlexed₁ hlexed₂
  have htokens := tokens_append_newline htokens₁ htokens₂
  generalize hm : Relocation.behind (first ++ "\n").toList = m at htokens
  have hspan : m.span = Span.shift (first.utf8ByteSize + 1) := by
    rw [← hm]
    show Span.shift (utf8Length (first ++ "\n").toList) = _
    rw [utf8Length_toList, String.utf8ByteSize_append]
    rfl
  obtain ⟨ds₂' : Derivation Production.model,
    hds : ds₂'.tokens = ds₂.tokens.map (Token.relocate m), hmeaning⟩ :=
    exists_relocated m final₂ .model ds₂
  have happs := congrArg Model.apps (Fragment.model.inj hmeaning)
  rw [List.map_append, ← hds, ← List.append_assoc, ← Derivation.tokens_append] at htokens
  refine ⟨_, parseModel_of_derivation hlexed htokens, ?_⟩
  show Meaning.applications (ds₁.append ds₂') = _
  rw [applications_append, ← hspan]
  exact congrArg (fun apps => (Meaning.applications ds₁).insertAll (NameMap.entries apps)) happs

/-- The second source replaces an application of the first, where that one stands. -/
theorem parseModel_concat_replaced : ∃ m,
    parseModel ("Shop:\nUser:" ++ "\n" ++ "Shop:") = ⟨some m, []⟩ ∧
      m.apps = ⟨[("Shop", ⟨"Shop", .empty, .empty, ⟨12, 17⟩⟩),
        ("User", ⟨"User", .empty, .empty, ⟨6, 11⟩⟩)]⟩ := by
  have h₁ : parseModel "Shop:\nUser:" =
      ⟨some ⟨⟨[("Shop", ⟨"Shop", .empty, .empty, ⟨0, 5⟩⟩),
        ("User", ⟨"User", .empty, .empty, ⟨6, 11⟩⟩)]⟩, ⟨0, 11⟩⟩, []⟩ := by decide +kernel
  have h₂ : parseModel "Shop:" =
      ⟨some ⟨⟨[("Shop", ⟨"Shop", .empty, .empty, ⟨0, 5⟩⟩)]⟩, ⟨0, 5⟩⟩, []⟩ := by decide +kernel
  obtain ⟨m, hm, happs⟩ := parseModel_concat h₁ h₂
  exact ⟨m, hm, happs.trans (by decide +kernel)⟩

/-!
## A partial model is what was complete

A whole file is read application by application, and the first one that fails ends it.
`parseModel_partial` says that the source then falls into two parts.  The first part ends where the
last complete application does, and by itself it is a whole file without errors, with the same
applications.  The second part is where the failing application begins, and by itself it fails as
that one did.

An application that is given again replaces the one before it, so the last complete application is
one of the model, and none of the model ends behind it (`cut_applications`).
-/

section Partial

open SyslModel.Parser (collect)

/-- Where the last application of a model ends; 0 if it has none. -/
def Model.cut (m : Model) : Nat := (m.apps.values.map fun app => app.span.stop).max?.getD 0

/-- The model of a source that was not read to its end, because of a syntax error.  The source falls
into a text that is read and one that is not. -/
structure PartialModel (source : String) (m : Model) (d : Diagnostic) (front back : String) :
    Prop where
  /-- Both texts are the source. -/
  split : source = front ++ back
  /-- The first text ends where the last application does. -/
  size : front.utf8ByteSize = m.cut
  /-- By itself it has the same applications, and no error. -/
  complete : ∃ whole, parseModel front = ⟨some whole, []⟩ ∧ whole.apps = m.apps
  /-- By itself the second text is no application, because of the same error in the same place. -/
  failing : ∃ own, parseRule back .application = ⟨none, [own]⟩ ∧ own.stage = .syntactic ∧
    own.rule = d.rule ∧ own.message = d.message ∧ own.span.shift m.cut = d.span

/-! ### Where reading stops -/

/-- If an item fails, those before it have derivations, and it fails behind them. -/
theorem Recognises.collect_failed {α : Type} {e : Phrase} {G : Stream → Prop}
    {more : Stream → Bool} {item : Parser α} {v : Derivation e → α}
    (hp : Recognises item e (fun d _ => v d) G) (rule : Rule) (s : Stream) {failure : Failure} :
    (collect more item rule s).failure = some failure → ∃ (ds : Derivation (.many e))
      (middle : Stream), (collect more item rule s).items = ds.map v ∧ s.Reads ds.tokens middle ∧
      item rule middle = .fail failure (collect more item rule s).rest := by
  fun_induction collect more item rule s with
  | case1 s hmore failed rest hitem =>
    intro hfailed
    obtain rfl := Option.some.inj hfailed
    exact ⟨[], s, rfl, .refl s, hitem⟩
  | case2 s hmore x rest hitem hlt others ih =>
    intro hfailed
    obtain ⟨d, hd, rfl⟩ := hp.sound hitem
    obtain ⟨ds, middle, hitems, hread, hfail⟩ := ih hfailed
    exact ⟨d :: ds, middle, congrArg _ hitems, hd.append hread, hfail⟩
  | case3 s hmore x rest hitem hge => exact fun h => by cases h
  | case4 s hmore => exact fun h => by cases h

/-- The applications of a file that is not read to its end have derivations, and behind them no
application can be read. -/
theorem applicationsOf_failed {tokens : List Token} {final : Token} {failure : Failure}
    (h : (applicationsOf tokens final).failure = some failure) :
    ∃ (ds : Derivation Production.model) (left : List Token), tokens = ds.tokens ++ left ∧
      (applicationsOf tokens final).items = List.map Meaning.application ds ∧
      ∃ rest, Grammar.readApplication .application ⟨[], left, final⟩ = .fail failure rest := by
  obtain ⟨ds, middle, hitems, hread, hfail⟩ :=
    Grammar.readApplication_recognises.collect_failed .model ⟨[], tokens, final⟩ h
  have hfresh := Grammar.readApplication_fail_fresh hfail
  rw [hread.final] at hfresh
  exact ⟨ds, middle.ahead, hread.ahead, hitems, hfresh⟩

theorem readModel_failed {tokens : List Token} {final : Token} {failure : Failure}
    (h : (applicationsOf tokens final).failure = some failure) :
    (Session.before tokens final).readModel.2.diagnostics =
      [Diagnostic.ofSyntaxError failure.error (some failure.rule)] := by
  have hall : collect (fun s => !s.atEnd) Grammar.readApplication .model
      (Session.before tokens final).stream = applicationsOf tokens final := rfl
  simp only [Session.readModel, hall, h]
  rfl

theorem readApplication_failed {tokens : List Token} {final : Token} {failure : Failure}
    {rest : Stream}
    (h : Grammar.readApplication .application ⟨[], tokens, final⟩ = .fail failure rest) :
    ((Session.before tokens final).readRule .application).1 = none ∧
      ((Session.before tokens final).readRule .application).2.diagnostics =
        [Diagnostic.ofSyntaxError failure.error (some failure.rule)] := by
  have hfail : (Fragment.application <$> Grammar.readApplication) .application ⟨[], tokens, final⟩
      = .fail failure rest := by
    show (Grammar.readApplication >>= fun app => pure (Fragment.application app)) _ _ = _
    rw [Parser.bind_apply, h]
  have hread : (Session.before tokens final).readRule .application =
      (Session.before tokens final).readWhole .application
        (Fragment.application <$> Grammar.readApplication) := rfl
  have hstream : (Session.before tokens final).stream = ⟨[], tokens, final⟩ := rfl
  rw [hread, Session.readWhole, Session.call, hstream, hfail]
  exact ⟨rfl, rfl⟩

/-! ### Where the last application ends -/

/-- A model is cut where one of its applications ends, if none ends behind it. -/
theorem Model.cut_eq {m : Model} {app : Application} (happ : app ∈ m.apps.values)
    (hle : ∀ other ∈ m.apps.values, other.span.stop ≤ app.span.stop) : m.cut = app.span.stop := by
  have hmax : (m.apps.values.map fun app => app.span.stop).max? = some app.span.stop := by
    rw [List.max?_eq_some_iff]
    refine ⟨List.mem_map_of_mem happ, ?_⟩
    intro stop hstop
    obtain ⟨other, hother, rfl⟩ := List.mem_map.1 hstop
    exact hle other hother
  rw [Model.cut, hmax]
  rfl

/-- A model of one application. -/
def Derivation.single (d : Derivation Production.application) : Derivation Production.model := [d]

theorem Derivation.tokens_single (d : Derivation Production.application) :
    (single d).tokens = d.tokens := List.append_nil _

theorem Derivation.eq_nil_or_append (ds : Derivation Production.model) :
    ds = [] ∨ ∃ (front : Derivation Production.model) (d : Derivation Production.application),
      ds = front.append (single d) :=
  (List.eq_nil_or_concat ds).imp id fun ⟨front, d, h⟩ => ⟨front, d, h.trans List.concat_eq_append⟩

/-- The last application of a model that was read from tokens in order ends with the last of
them. -/
theorem cut_applications {m : Model} {ds : Derivation Production.model}
    (hm : m.apps = Meaning.applications ds) (h : InOrder ds.tokens) :
    m.cut = (ds.tokens.getLast?.map (·.span.stop)).getD 0 := by
  have hends {d : Derivation Production.application} (hd : d.tokens <:+: ds.tokens) :
      ∃ last, d.tokens.getLast? = some last ∧
        (Meaning.application d).span.stop = last.span.stop := by
    obtain ⟨t, last, -, hlast, hspan⟩ := (h.mono hd).exists_spanOf (List.cons_ne_nil _ _)
    refine ⟨last, hlast, ?_⟩
    show (spanOf .origin d.tokens).stop = _
    rw [hspan]
  rcases ds.eq_nil_or_append with rfl | ⟨front, d, rfl⟩
  · rw [Model.cut, hm]
    rfl
  have htokens : (front.append (.single d)).tokens = front.tokens ++ d.tokens := by
    rw [Derivation.tokens_append, Derivation.tokens_single]
  obtain ⟨last, hlast, hstop⟩ := hends (htokens ▸ (List.suffix_append _ _).isInfix)
  have hend : (front.append (.single d)).tokens.getLast? = some last := by
    rw [htokens, List.getLast?_append, hlast]
    rfl
  -- The last application given is one of the model, and no other ends behind it.
  have happ : Meaning.application d ∈ m.apps.values := by
    rw [hm, applications_append]
    exact List.mem_map_of_mem (NameMap.mem_put_self _)
  rw [Model.cut_eq happ, hend, hstop]
  · rfl
  intro other hother
  rw [hm] at hother
  obtain ⟨entry, hentry, rfl⟩ := List.mem_map.1 hother
  obtain ⟨d', hd', rfl⟩ := Meaning.mem_applications (List.infix_refl _) hentry
  obtain ⟨last', hlast', hstop'⟩ := hends hd'
  rw [hstop]
  exact hstop'.trans_le (h.stop_le hend (hd'.subset (List.mem_of_getLast? hlast')))

/-! ### The two parts -/

/-- Where an application fails behind some tokens, it fails in the same way in the text that these
tokens make up by themselves, only that everything stands further in front. -/
theorem parseRule_application_failed {front back : String} {own left : List Token}
    {last final : Token} {failure : Failure} {rest : Stream}
    (hlexed : (tokenize back).errors = []) (hown : (tokenize back).tokens = own ++ [last])
    (hleft : own.map (Token.relocate (.behind front.toList)) = left)
    (hfinal : last.relocate (.behind front.toList) = final)
    (hfail : Grammar.readApplication .application ⟨[], left, final⟩ = .fail failure rest) :
    ∃ d, parseRule back .application = ⟨none, [d]⟩ ∧
      d.relocate (.behind front.toList) =
        Diagnostic.ofSyntaxError failure.error (some failure.rule) := by
  obtain ⟨hvalue, hdiagnostics⟩ := readApplication_failed hfail
  have hread := (Session.before own last).readRule_relocate (.behind front.toList) .application
  rw [Session.before_relocate, hleft, hfinal] at hread
  rw [hread] at hvalue hdiagnostics
  obtain ⟨d, hd, hplace⟩ := List.map_eq_singleton_iff.1 hdiagnostics
  refine ⟨d, ?_, hplace⟩
  rw [parseRule_of_tokens hown, Option.map_eq_none_iff.1 hvalue, hlexed, hd]
  rfl

/-- Whatever the source, if it has no lexical errors and its model a diagnostic, then this is the
only one.  The applications of the model are those of the text up to where the last of them ends,
and the text behind it is no application, for the reason that the diagnostic gives. -/
theorem parseModel_partial {source : String} (hlexed : (tokenize source).errors = [])
    {d : Diagnostic} (hd : d ∈ (parseModel source).diagnostics) :
    ∃ m, parseModel source = ⟨some m, [d]⟩ ∧ ∃ front back, PartialModel source m d front back := by
  obtain ⟨tokens, final, htokens, -⟩ := final_token source
  have hparsed : parseModel source = ⟨some (Session.before tokens final).readModel.1,
      (Session.before tokens final).readModel.2.diagnostics⟩ := by
    rw [parseModel, parseRule_of_tokens htokens, hlexed, readRule_model]
    rfl
  obtain ⟨hdiagnostics, hmodel⟩ := readModel_eq tokens final
  rw [hparsed] at hd ⊢
  obtain ⟨failure, hfailure⟩ := Option.ne_none_iff_exists'.1
    (mt hdiagnostics.2 (List.ne_nil_of_mem hd))
  rw [readModel_failed hfailure] at hd ⊢
  obtain rfl := List.mem_singleton.1 hd
  refine ⟨_, rfl, ?_⟩
  obtain ⟨ds, left, rfl, hitems, rest, hfail⟩ := applicationsOf_failed hfailure
  obtain ⟨front, back, hsplit, hsize, hfront, ⟨last, hlast⟩, hback, own, final', hown, hleft,
    hfinal⟩ := tokens_of_split hlexed htokens
  obtain ⟨d, hparse, hplace⟩ := parseRule_application_failed hback hown hleft hfinal hfail
  have horder : InOrder ds.tokens := by
    refine (tokens_inOrder source).mono ?_
    rw [htokens, List.append_assoc]
    exact (List.prefix_append _ _).isInfix
  rw [hitems] at hmodel
  have happs := congrArg Model.apps hmodel
  have hcut := hsize.trans (cut_applications happs horder).symm
  have hstage : (d.relocate (.behind front.toList)).stage = .syntactic :=
    congrArg Diagnostic.stage hplace
  rw [← hplace]
  refine ⟨front, back, hsplit, hcut, ⟨_, parseModel_of_derivation hfront hlast, happs.symm⟩, d,
    hparse, hstage, rfl, rfl, ?_⟩
  rw [← hcut, ← utf8Length_toList]
  rfl

/-- The last application fails after the second one was given its name again; both stay as they
were. -/
theorem parseModel_partial_redeclared :
    (tokenize "A:\nB:\nA:\n/x GET:\nB ]").errors = [] ∧
      ∃ d ∈ (parseModel "A:\nB:\nA:\n/x GET:\nB ]").diagnostics, ∃ m,
        parseModel "A:\nB:\nA:\n/x GET:\nB ]" = ⟨some m, [d]⟩ ∧
        (∃ front back, PartialModel "A:\nB:\nA:\n/x GET:\nB ]" m d front back) ∧
        m.apps.names = ["A", "B"] ∧ m.cut = 16 := by
  have hlexed : (tokenize "A:\nB:\nA:\n/x GET:\nB ]").errors = [] := by decide +kernel
  have hne : (parseModel "A:\nB:\nA:\n/x GET:\nB ]").diagnostics ≠ [] := by decide +kernel
  have hshape : (parseModel "A:\nB:\nA:\n/x GET:\nB ]").value.map
      (fun m => (m.apps.names, m.cut)) = some (["A", "B"], 16) := by decide +kernel
  obtain ⟨d, hd⟩ := List.exists_mem_of_ne_nil _ hne
  obtain ⟨m, hm, hpartial⟩ := parseModel_partial hlexed hd
  rw [hm] at hshape
  obtain ⟨hnames, hcut⟩ := Prod.mk.inj (Option.some.inj hshape)
  exact ⟨hlexed, d, hd, m, hm, hpartial, hnames, hcut⟩

end Partial

end SyslModel
