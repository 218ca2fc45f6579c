import SyslModel.Proofs.Grammar.Production
import SyslModel.Proofs.RoundTrip.Lexemes
import SyslModel.Proofs.Token.Lexeme
/-!
# Texts that print a phrase

A text prints a phrase if it is scanned as tokens that derive from the phrase, wherever it stands
in front of what may follow.  `Prints` also says what is known of the derivation.  There is one
lemma for each way in which texts are put together, so the canonical text of a construct is treated
by putting lemmas together in the same way.
-/

namespace SyslModel

variable {s t : String} {a b e : Phrase} {F G : List Char → Prop} {P : Derivation a → Prop}
  {Q : Derivation b → Prop} {R : Derivation e → Prop}

/-- What may follow a text that ends by itself. -/
def Whatever : List Char → Prop := fun _ => True

/-- The text is scanned, in front of what may follow, as tokens that derive from the phrase with
this property. -/
def Prints (text : String) (e : Phrase) (follow : List Char → Prop) (P : Derivation e → Prop) :
    Prop :=
  ∃ lexemes : List Lexeme,
    (∀ rest, follow rest → Scans (text.toList ++ rest) lexemes rest) ∧
      ∀ tokens : List Token, tokens.map Token.lexeme = lexemes →
        ∃ d : Derivation e, d.tokens = tokens ∧ P d

theorem EndsWord.nil : EndsWord [] := by simp [EndsWord]

/-- A text whose first character no word goes on with. -/
theorem endsWord_append {c : Char} {tail : List Char} (hs : s.toList = c :: tail)
    (hc : isPathChar c = false) (rest : List Char) : EndsWord (s.toList ++ rest) := by
  simpa [EndsWord, hs] using hc

theorem endsWord_append_append (h : ∀ rest, EndsWord (s.toList ++ rest)) (rest : List Char) :
    EndsWord ((s ++ t).toList ++ rest) := by
  rw [String.toList_append, List.append_assoc]
  exact h _

theorem endsWord_mark (p : Punctuation) (rest : List Char) : EndsWord (p.text.toList ++ rest) := by
  cases p
  all_goals exact endsWord_append rfl (by decide) rest

namespace Prints

/-! ## Steps -/

/-- Less may follow. -/
theorem mono (h : Prints t e F R) (hF : ∀ rest, G rest → F rest) : Prints t e G R := by
  obtain ⟨lexemes, hscans, hderives⟩ := h
  exact ⟨lexemes, fun rest hrest => hscans rest (hF rest hrest), hderives⟩

/-- Something else is known of the derivation. -/
theorem map {R' : Derivation e → Prop} (h : Prints t e F R) (hR : ∀ d, R d → R' d) :
    Prints t e F R' := by
  obtain ⟨lexemes, hscans, hderives⟩ := h
  refine ⟨lexemes, hscans, fun tokens htokens => ?_⟩
  obtain ⟨d, hd, hRd⟩ := hderives tokens htokens
  exact ⟨d, hd, hR d hRd⟩

/-- White space in front. -/
theorem afterBlanks (hs : s.toList.all isBlank = true) (h : Prints t e F R) :
    Prints (s ++ t) e F R := by
  obtain ⟨lexemes, hscans, hderives⟩ := h
  refine ⟨lexemes, fun rest hrest => ?_, hderives⟩
  rw [String.toList_append, List.append_assoc]
  exact (Scans.blanks hs _).trans (hscans rest hrest)

/-- White space behind. -/
theorem beforeBlanks (h : Prints t e F R) (hs : s.toList.all isBlank = true)
    (hF : ∀ rest, G rest → F (s.toList ++ rest)) : Prints (t ++ s) e G R := by
  obtain ⟨lexemes, hscans, hderives⟩ := h
  refine ⟨lexemes, fun rest hrest => ?_, hderives⟩
  rw [String.toList_append, List.append_assoc, ← List.append_nil lexemes]
  exact (hscans _ (hF rest hrest)).trans (Scans.blanks hs rest)

/-- One text behind another. -/
theorem seq (hs : Prints s a F P) (ht : Prints t b G Q)
    (hF : ∀ rest, G rest → F (t.toList ++ rest)) :
    Prints (s ++ t) (.seq a b) G fun d => P d.1 ∧ Q d.2 := by
  obtain ⟨lexemes, hscans, hderives⟩ := hs
  obtain ⟨lexemes', hscans', hderives'⟩ := ht
  refine ⟨lexemes ++ lexemes', fun rest hrest => ?_, fun tokens htokens => ?_⟩
  · rw [String.toList_append, List.append_assoc]
    exact (hscans _ (hF rest hrest)).trans (hscans' rest hrest)
  · obtain ⟨first, second, rfl, hfirst, hsecond⟩ := List.map_eq_append_iff.1 htokens
    obtain ⟨d, rfl, hd⟩ := hderives first hfirst
    obtain ⟨d', rfl, hd'⟩ := hderives' second hsecond
    exact ⟨(d, d'), rfl, hd, hd'⟩

theorem inl (h : Prints t a F P) : Prints t (.either a b) F fun d => ∃ d', d = .inl d' ∧ P d' := by
  obtain ⟨lexemes, hscans, hderives⟩ := h
  refine ⟨lexemes, hscans, fun tokens htokens => ?_⟩
  obtain ⟨d, hd, hP⟩ := hderives tokens htokens
  exact ⟨.inl d, hd, d, rfl, hP⟩

theorem inr (h : Prints t b F Q) : Prints t (.either a b) F fun d => ∃ d', d = .inr d' ∧ Q d' := by
  obtain ⟨lexemes, hscans, hderives⟩ := h
  refine ⟨lexemes, hscans, fun tokens htokens => ?_⟩
  obtain ⟨d, hd, hQ⟩ := hderives tokens htokens
  exact ⟨.inr d, hd, d, rfl, hQ⟩

/-- Nothing, for a phrase that may be left out. -/
theorem absent : Prints "" (.option e) Whatever fun d => d = none := by
  refine ⟨[], fun rest _ => .refl rest, fun tokens htokens => ?_⟩
  obtain rfl := List.map_eq_nil_iff.1 htokens
  exact ⟨none, rfl, rfl⟩

theorem present (h : Prints t e F R) :
    Prints t (.option e) F fun d => ∃ d', d = some d' ∧ R d' := by
  obtain ⟨lexemes, hscans, hderives⟩ := h
  refine ⟨lexemes, hscans, fun tokens htokens => ?_⟩
  obtain ⟨d, hd, hR⟩ := hderives tokens htokens
  exact ⟨some d, hd, d, rfl, hR⟩

section Many

variable {γ δ : Type} {f : Derivation e → γ} {g : δ → γ} {write : δ → String} {items : List δ}

theorem nil : Prints "" (.many e) F fun ds => List.map f ds = [] := by
  refine ⟨[], fun rest _ => .refl rest, fun tokens htokens => ?_⟩
  obtain rfl := List.map_eq_nil_iff.1 htokens
  exact ⟨[], rfl, rfl⟩

/-- One more text in front of a repetition. -/
theorem cons {x : γ} {xs : List γ} (hs : Prints s e F fun d => f d = x)
    (ht : Prints t (.many e) F fun ds => List.map f ds = xs)
    (hF : ∀ rest, F rest → F (t.toList ++ rest)) :
    Prints (s ++ t) (.many e) F fun ds => List.map f ds = x :: xs := by
  obtain ⟨lexemes, hscans, hderives⟩ := hs.seq ht hF
  refine ⟨lexemes, hscans, fun tokens htokens => ?_⟩
  obtain ⟨⟨d, ds⟩, rfl, hd, hds⟩ := hderives tokens htokens
  exact ⟨d :: ds, rfl, congrArg₂ List.cons hd hds⟩

/-- What may follow a text may follow more texts that may each follow it. -/
theorem follow_join (hF : ∀ x ∈ items, ∀ rest, F ((write x).toList ++ rest)) {rest : List Char}
    (hrest : F rest) : F ((String.join (items.map write)).toList ++ rest) := by
  cases items with
  | nil => exact hrest
  | cons x items =>
    rw [List.map_cons, String.join_cons, String.toList_append, List.append_assoc]
    exact hF x List.mem_cons_self _

/-- Texts one behind the other, each of which may follow the one before. -/
theorem many (h : ∀ x ∈ items, Prints (write x) e F fun d => f d = g x)
    (hF : ∀ x ∈ items, ∀ rest, F ((write x).toList ++ rest)) :
    Prints (String.join (items.map write)) (.many e) F
      fun ds => List.map f ds = items.map g := by
  induction items with
  | nil => exact nil
  | cons x items ih =>
    rw [List.forall_mem_cons] at h hF
    rw [List.map_cons, String.join_cons]
    exact h.1.cons (ih h.2 hF.2) fun _ hrest => follow_join hF.2 hrest

end Many

/-! ## Single tokens -/

/-- A text that is scanned as one token, for a phrase of such tokens. -/
theorem token {kind : TokenKind} {fits : Token → Prop}
    (hscans : ∀ rest, F rest → Scans (t.toList ++ rest) [(kind, t)] rest)
    (hfits : ∀ u : Token, u.kind = kind → u.text = t → fits u) :
    Prints t (.token fits) F fun u => u.1.kind = kind ∧ u.1.text = t := by
  refine ⟨[(kind, t)], hscans, fun tokens htokens => ?_⟩
  obtain ⟨u, rfl, hu⟩ := List.map_eq_singleton_iff.1 htokens
  obtain ⟨hkind, htext⟩ := Prod.mk.inj hu
  exact ⟨⟨u, hfits u hkind htext⟩, rfl, hkind, htext⟩

theorem mark (p : Punctuation) : Prints p.text (Production.mark p) Whatever fun _ => True :=
  (token (fun rest _ => Scans.mark p rest) fun _ hkind _ => hkind).map fun _ _ => trivial

/-- A token that is neither punctuation nor quoted, in front of a character that no word goes on
with. -/
theorem word {kind : TokenKind} {fits : Token → Prop} (hk : kind.isWord = true)
    (h : kind.Writes t) (hfits : ∀ u : Token, u.kind = kind → u.text = t → fits u) :
    Prints t (.token fits) EndsWord fun u => u.1.kind = kind ∧ u.1.text = t :=
  token (fun _ hrest => Scans.word hk h hrest) hfits

/-- A token of one kind. -/
theorem kind {kind : TokenKind} (hk : kind.isWord = true) (h : kind.Writes t) :
    Prints t (Production.kind kind) EndsWord fun u => u.1.text = t :=
  (word hk h fun _ hkind _ => hkind).map fun _ h => h.2

section Either

variable {p q : Token → Prop}

/-- A token of the first of two sorts. -/
theorem eitherInl (h : Prints t (.token p) F fun u => u.1.text = t) :
    Prints t (.either (.token p) (.token q)) F fun d => Meaning.eitherText d = t := by
  refine h.inl.map ?_
  rintro _ ⟨u, rfl, hu⟩
  exact hu

/-- A token of the second of two sorts. -/
theorem eitherInr (h : Prints t (.token q) F fun u => u.1.text = t) :
    Prints t (.either (.token p) (.token q)) F fun d => Meaning.eitherText d = t := by
  refine h.inr.map ?_
  rintro _ ⟨u, rfl, hu⟩
  exact hu

end Either

end Prints
end SyslModel
