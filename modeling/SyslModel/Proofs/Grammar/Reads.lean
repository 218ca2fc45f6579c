import SyslModel.Grammar.Parser
import SyslModel.Token.Lexed
/-!
# Tokens that are read

What a reader goes past is a list of tokens (`Stream.Reads`), and what it goes past as a whole has
the form of a phrase (`Derivation`).
-/

namespace SyslModel

/-!
## What a stream goes past

`Stream.Reads` relates a stream to a later place in it and to the tokens between the two.  Going
past two lists of tokens is going past one and then the other, and the place reached is determined
by the tokens.
-/

section Reads

/-- The span of consecutive tokens: from the start of the first to the end of the last.  Where there
is none it is the span given. -/
def spanOf (none : Span) (tokens : List Token) : Span :=
  match tokens.head?, tokens.getLast? with
  | some first, some last => ⟨first.span.start, max last.span.stop first.span.start⟩
  | _, _ => none

namespace Stream

variable {s rest other : Stream} {tokens more : List Token} {t : Token}

/-- Reading goes past these tokens, from one place in a stream to another. -/
structure Reads (s : Stream) (tokens : List Token) (rest : Stream) : Prop where
  /-- The tokens stand between the places. -/
  ahead : s.ahead = tokens ++ rest.ahead
  /-- The tokens are consumed, the last one most recently. -/
  consumed : rest.consumed = tokens.reverse ++ s.consumed
  /-- The end of the file stays. -/
  final : rest.final = s.final

namespace Reads

theorem nil_iff : s.Reads [] rest ↔ rest = s := by
  constructor
  · intro h
    have hahead := h.ahead
    have hconsumed := h.consumed
    have hfinal := h.final
    cases s
    cases rest
    simp_all
  · rintro rfl
    exact ⟨rfl, rfl, rfl⟩

theorem refl (s : Stream) : s.Reads [] s := nil_iff.2 rfl

/-- The place that is reached is determined. -/
theorem unique (h : s.Reads tokens rest) (h' : s.Reads tokens other) : rest = other := by
  have hahead : rest.ahead = other.ahead := List.append_cancel_left (h.ahead.symm.trans h'.ahead)
  cases rest
  cases other
  have hconsumed := h.consumed.trans h'.consumed.symm
  have hfinal := h.final.trans h'.final.symm
  simp_all

/-- Whatever stands in front can be gone past. -/
theorem exists_of_ahead {left : List Token} (h : s.ahead = tokens ++ left) :
    ∃ rest, s.Reads tokens rest ∧ rest.ahead = left :=
  ⟨⟨tokens.reverse ++ s.consumed, left, s.final⟩, ⟨h, rfl, rfl⟩, rfl⟩

theorem append (h : s.Reads tokens rest) (h' : rest.Reads more other) :
    s.Reads (tokens ++ more) other where
  ahead := by rw [h.ahead, h'.ahead, List.append_assoc]
  consumed := by rw [h'.consumed, h.consumed, List.reverse_append, List.append_assoc]
  final := h'.final.trans h.final

/-- Going past one list and then another. -/
theorem append_iff :
    s.Reads (tokens ++ more) other ↔ ∃ rest, s.Reads tokens rest ∧ rest.Reads more other := by
  constructor
  · intro h
    have hahead : s.ahead = tokens ++ (more ++ other.ahead) := by
      rw [h.ahead, List.append_assoc]
    obtain ⟨rest, hrest, hleft⟩ := exists_of_ahead hahead
    refine ⟨rest, hrest, hleft, ?_, ?_⟩
    · rw [h.consumed, hrest.consumed, List.reverse_append, List.append_assoc]
    · rw [h.final, hrest.final]
  · rintro ⟨rest, h, h'⟩
    exact h.append h'

theorem length_lt (h : s.Reads tokens rest) (hne : tokens ≠ []) :
    rest.ahead.length < s.ahead.length := by
  have hpos := List.length_pos_iff.2 hne
  rw [h.ahead, List.length_append]
  omega

/-! ### Looking at what is read -/

/-- The kind of a token that is read. -/
theorem kindAt (h : s.Reads tokens rest) {distance : Nat} (ht : tokens[distance]? = some t) :
    s.kindAt distance = t.kind := by
  obtain ⟨hlt, -⟩ := List.getElem?_eq_some_iff.1 ht
  rw [Stream.kindAt, h.ahead, List.getElem?_append_left hlt, ht]

/-- The kind of a token behind those that are read. -/
theorem kindAt_length (h : s.Reads tokens rest) (distance : Nat) :
    s.kindAt (tokens.length + distance) = rest.kindAt distance := by
  rw [Stream.kindAt, h.ahead, List.getElem?_append_right (by omega), Nat.add_sub_cancel_left,
    Stream.kindAt]

theorem current (h : s.Reads (t :: tokens) rest) : s.current = t := by
  rw [Stream.current, h.ahead]
  rfl

/-- The span that is taken behind some tokens, from the place in front of them. -/
theorem spanFrom (h : s.Reads tokens rest) (hne : tokens ≠ []) (none : Span) :
    rest.spanFrom s.current.span = spanOf none tokens := by
  obtain ⟨first, others, rfl⟩ := List.exists_cons_of_ne_nil hne
  obtain ⟨front, last, hlast⟩ := List.eq_nil_or_concat (first :: others) |>.resolve_left hne
  have hcons : rest.consumed = last :: (front.reverse ++ s.consumed) := by
    rw [h.consumed, hlast]
    simp
  have hget : (first :: others).getLast? = some last := by
    rw [hlast]
    simp
  rw [Stream.spanFrom, hcons, h.current, spanOf, List.head?_cons, hget]

end Reads
end Stream

/-! ### Outcomes of parsers -/

variable {α β : Type}

namespace Outcome

/-- The place that reading comes to, whether or not it fails. -/
def place : Outcome α → Stream
  | .ok _ rest => rest
  | .fail _ rest => rest

/-- The value that was read, or what stood in the way. -/
def result : Outcome α → Except SyntaxError α
  | .ok value _ => .ok value
  | .fail failure _ => .error failure.error

end Outcome

namespace Parser

/-- A token that is taken is the next one. -/
theorem take_ok {expected : Expectation} {choose : Token → Option α} {rule : Rule}
    {s rest : Stream} {value : α} (h : take expected choose rule s = .ok value rest) :
    ∃ t others, s.ahead = t :: others ∧ choose t = some value ∧
      rest = { s with consumed := t :: s.consumed, ahead := others } := by
  unfold take at h
  split at h
  · cases h
  · next t others hahead =>
    split at h
    · next value hvalue =>
      obtain ⟨rfl, rfl⟩ := Outcome.ok.inj h
      exact ⟨t, others, hahead, hvalue, rfl⟩
    · cases h

/-- Of two parsers in turn both yield a value. -/
theorem bind_ok {p : Parser α} {q : α → Parser β} {rule : Rule} {s rest : Stream} {value : β}
    (h : (p >>= q) rule s = .ok value rest) :
    ∃ x middle, p rule s = .ok x middle ∧ q x rule middle = .ok value rest := by
  rw [bind_apply] at h
  split at h
  · next x middle hfirst => exact ⟨x, middle, hfirst, h⟩
  · cases h

/-- Of two parsers in turn the first one fails, or the second one behind it. -/
theorem bind_fail {p : Parser α} {q : α → Parser β} {rule : Rule} {s rest : Stream}
    {failure : Failure} (h : (p >>= q) rule s = .fail failure rest) :
    p rule s = .fail failure rest ∨
      ∃ x middle, p rule s = .ok x middle ∧ q x rule middle = .fail failure rest := by
  rw [bind_apply] at h
  split at h
  · next x middle hfirst => exact .inr ⟨x, middle, hfirst, h⟩
  · next failed middle hfirst =>
    obtain ⟨rfl, rfl⟩ := Outcome.fail.inj h
    exact .inl hfirst

/-- A repetition, item by item. -/
theorem repeatWhile_eq (more : Stream → Bool) (p : Parser α) (rule : Rule) (s : Stream) :
    repeatWhile more p rule s =
      if more s then
        match p rule s with
        | .fail failure rest => .fail failure rest
        | .ok value rest =>
          if rest.ahead.length < s.ahead.length then
            match repeatWhile more p rule rest with
            | .ok values last => .ok (value :: values) last
            | .fail failure last => .fail failure last
          else .ok [value] rest
      else .ok [] s := by
  rw [repeatWhile, collect]
  by_cases hmore : more s = true
  · rw [if_pos hmore, if_pos hmore]
    cases p rule s with
    | fail failure rest => rfl
    | ok value rest =>
      dsimp only
      by_cases hlt : rest.ahead.length < s.ahead.length
      · rw [if_pos hlt, if_pos hlt, repeatWhile]
        cases (collect more p rule rest).failure <;> rfl
      · rw [if_neg hlt, if_neg hlt]
  · rw [if_neg hmore, if_neg hmore]

end Parser

end Reads

/-!
## Phrases and their derivations

A phrase is a right side of a production: tokens, one phrase after another, one of two phrases, a
phrase that may be left out, or any number of them.  No rule of the grammar uses itself, so every
rule is one phrase.

A derivation of a phrase is a tree of the same form with tokens at its leaves.
-/

/-- A right side of a production. -/
inductive Phrase where
  /-- One token of a sort. -/
  | token (fits : Token → Prop)
  /-- One phrase and then another. -/
  | seq (first second : Phrase)
  /-- One of two phrases. -/
  | either (left right : Phrase)
  /-- A phrase or nothing. -/
  | option (item : Phrase)
  /-- Any number of phrases, one behind the other. -/
  | many (item : Phrase)

/-- The ways in which a phrase derives tokens. -/
def Derivation : Phrase → Type
  | .token fits => { t : Token // fits t }
  | .seq first second => Derivation first × Derivation second
  | .either left right => Derivation left ⊕ Derivation right
  | .option item => Option (Derivation item)
  | .many item => List (Derivation item)

namespace Derivation

/-- The tokens at the leaves, from left to right. -/
def tokens : {e : Phrase} → Derivation e → List Token
  | .token _, t => [t.1]
  | .seq _ _, d => tokens d.1 ++ tokens d.2
  | .either _ _, .inl d => tokens d
  | .either _ _, .inr d => tokens d
  | .option _, none => []
  | .option _, some d => tokens d
  | .many _, ds => ds.flatMap fun d => tokens d

variable {a b e : Phrase}

@[simp] theorem tokens_seq (d : Derivation (.seq a b)) :
    d.tokens = d.1.tokens ++ d.2.tokens := rfl

@[simp] theorem tokens_nil : tokens (e := .many e) [] = [] := rfl

@[simp] theorem tokens_cons (d : Derivation e) (ds : List (Derivation e)) :
    tokens (e := .many e) (d :: ds) = d.tokens ++ tokens (e := .many e) ds := rfl

end Derivation

/-! ### Phrases of one token -/

/-- The phrase derives single tokens, those that fit, and each in one way. -/
structure Phrase.IsToken (e : Phrase) (fits : Token → Prop) : Prop where
  /-- A derivation has one token, which fits. -/
  single : ∀ d : Derivation e, ∃ t, d.tokens = [t] ∧ fits t
  /-- A token that fits has a derivation. -/
  derived : ∀ t, fits t → ∃ d : Derivation e, d.tokens = [t]
  /-- A token has one derivation at most. -/
  unique : ∀ d d' : Derivation e, d.tokens = d'.tokens → d = d'

namespace Phrase.IsToken

variable {a b : Phrase} {p q : Token → Prop}

/-- A phrase that goes on after a token. -/
theorem first (h : a.IsToken p) (d : Derivation (.seq a b)) :
    ∃ t, p t ∧ d.tokens = t :: d.2.tokens := by
  obtain ⟨t, ht, hp⟩ := h.single d.1
  exact ⟨t, hp, by rw [Derivation.tokens_seq, ht, List.singleton_append]⟩

theorem token (fits : Token → Prop) : (Phrase.token fits).IsToken fits where
  single := fun t => ⟨t.1, rfl, t.2⟩
  derived := fun t ht => ⟨⟨t, ht⟩, rfl⟩
  unique := fun _ _ h => Subtype.ext (List.singleton_inj.1 h)

/-- Two sorts of tokens that have none in common. -/
theorem either (ha : a.IsToken p) (hb : b.IsToken q) (h : ∀ t, p t → ¬ q t) :
    (Phrase.either a b).IsToken fun t => p t ∨ q t where
  single := by
    rintro (d | d)
    · obtain ⟨t, ht, hp⟩ := ha.single d
      exact ⟨t, ht, .inl hp⟩
    · obtain ⟨t, ht, hq⟩ := hb.single d
      exact ⟨t, ht, .inr hq⟩
  derived := by
    rintro t (hp | hq)
    · obtain ⟨d, hd⟩ := ha.derived t hp
      exact ⟨.inl d, hd⟩
    · obtain ⟨d, hd⟩ := hb.derived t hq
      exact ⟨.inr d, hd⟩
  unique := by
    have hne (d : Derivation a) (d' : Derivation b) : d.tokens ≠ d'.tokens := by
      intro hd
      obtain ⟨t, ht, hp⟩ := ha.single d
      obtain ⟨t', ht', hq⟩ := hb.single d'
      rw [ht, ht', List.singleton_inj] at hd
      exact h t hp (hd ▸ hq)
    rintro (d | d) (d' | d') hd
    · exact congrArg Sum.inl (ha.unique d d' hd)
    · exact absurd hd (hne d d')
    · exact absurd hd.symm (hne d' d)
    · exact congrArg Sum.inr (hb.unique d d' hd)

end Phrase.IsToken

end SyslModel
