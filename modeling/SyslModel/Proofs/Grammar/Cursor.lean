import SyslModel.Proofs.Grammar.Recognition
import SyslModel.Proofs.Grammar.Script
/-!
# A stream as a place in the whole list

A stream keeps what is in front of the first end of the file and drops the rest.  Here the whole
list is kept, with an index into it: a `Cursor` stands in a list that may have anything behind its
first end, more ends included.  It goes forward token by token, and not past the last one.

`Stream.Views` relates a stream to the cursor that stands where the stream is.  Whatever the grammar
asks gets the same answer from both, and a token that is taken moves both by one (`Views.advance`).
`Script.Leads` takes the steps of a script on a cursor, and `Script.leads_iff` says that they lead
where the parser of the script comes to on the stream, with the same value or the same error, and
nowhere else.  There is nothing to stop a repetition on a cursor but its look at the tokens, so this
is also to say that all repetitions of the grammar end.

`Stream.Stands` is what it comes to for an index, without mention of steps.
-/

namespace SyslModel

variable {α β : Type} {all : List Token}

/-! ## The list of tokens -/

/-- The tokens that are read: behind tokens that do not end with an end of the file stands one. -/
def completed (tokens : List Token) : List Token :=
  if tokens.getLast?.any fun t => t.kind = .endOfFile then tokens
  else tokens ++ [Stream.missingEnd tokens]

/-- The tokens up to the first end of the file. -/
def cutAtEnd : List Token → List Token
  | [] => []
  | t :: others => if t.kind = .endOfFile then [t] else t :: cutAtEnd others

/-- The kind of the token that stands so far behind an index; behind the list it is the end. -/
def kindFrom (all : List Token) (index distance : Nat) : TokenKind :=
  all[index + distance]?.elim .endOfFile Token.kind

/-! ## Cursors -/

/-- An index into a list of tokens, in range. -/
structure Cursor (all : List Token) where
  /-- The index of the next token. -/
  index : Nat
  /-- There is a token. -/
  inRange : index < all.length

namespace Cursor

/-- The token at the index. -/
def current (c : Cursor all) : Token := all.get ⟨c.index, c.inRange⟩

/-- The kind of the token that stands so far behind the index. -/
def peekAhead (c : Cursor all) (distance : Nat) : TokenKind := kindFrom all c.index distance

/-- Goes past a token, unless it is the last one. -/
def advance (c : Cursor all) : Cursor all :=
  if h : c.index < all.length - 1 then ⟨c.index + 1, by omega⟩ else c

/-- The span from the start of another one to the end of the token in front of the index. -/
def spanFrom (c : Cursor all) (start : Span) : Span :=
  match c.index, c.inRange with
  | 0, _ => start
  | before + 1, h =>
    ⟨start.start, max (all.get ⟨before, Nat.lt_of_succ_lt h⟩).span.stop start.start⟩

end Cursor

/-- What a look finds on a cursor. -/
def Look.sees (c : Cursor all) : Look → Bool
  | .kinds test => test c.peekAhead
  | .notAtEnd => c.current.kind ≠ .endOfFile

/-- How a repetition goes, given how its items do.  Nothing but the look ends it. -/
inductive Cursor.Repeats (look : Look)
    (item : Cursor all → Except SyntaxError α → Cursor all → Prop) :
    Cursor all → Except SyntaxError (List α) → Cursor all → Prop
  /-- No item is found. -/
  | stop {c : Cursor all} : look.sees c = false → Repeats look item c (.ok []) c
  /-- An item is found and fails. -/
  | fail {c c' : Cursor all} {error : SyntaxError} : look.sees c = true →
      item c (.error error) c' → Repeats look item c (.error error) c'
  /-- An item is found and read, and the repetition goes on behind it. -/
  | again {c middle c' : Cursor all} {value : α} {others : Except SyntaxError (List α)} :
      look.sees c = true → item c (.ok value) middle → Repeats look item middle others c' →
      Repeats look item c (others.map (value :: ·)) c'

/-- The steps of a script lead from a cursor to another one, with a value or an error. -/
def Script.Leads {α : Type} : Script α → Cursor all → Except SyntaxError α → Cursor all → Prop
  | .yield value, c, result, c' => result = .ok value ∧ c' = c
  | .andThen first next, c, result, c' =>
    (∃ error, first.Leads c (.error error) c' ∧ result = .error error) ∨
      ∃ value middle, first.Leads c (.ok value) middle ∧ (next value).Leads middle result c'
  | .within _ body, c, result, c' => body.Leads c result c'
  | .refuse literal, c, result, c' => result = .error (.integerOutOfRange literal) ∧ c' = c
  | .take expected choose, c, result, c' =>
    match choose c.current with
    | some value => result = .ok value ∧ c' = c.advance
    | none => result = .error (.mismatch expected c.current) ∧ c' = c
  | .start, c, result, c' => result = .ok c.current.span ∧ c' = c
  | .spanFrom first, c, result, c' => result = .ok (c.spanFrom first) ∧ c' = c
  | .branch look yes no, c, result, c' =>
    if look.sees c then yes.Leads c result c' else no.Leads c result c'
  | .repeatWhile look item, c, result, c' => Cursor.Repeats look item.Leads c result c'

/-- A repetition ends in one way at most, if its items do. -/
theorem Cursor.Repeats.unique {look : Look}
    {item : Cursor all → Except SyntaxError α → Cursor all → Prop}
    {c c₁ c₂ : Cursor all} {result₁ result₂ : Except SyntaxError (List α)}
    (h₁ : Repeats look item c result₁ c₁) (h₂ : Repeats look item c result₂ c₂)
    (hitem : ∀ {c c₁ c₂ result₁ result₂}, item c result₁ c₁ → item c result₂ c₂ →
      result₁ = result₂ ∧ c₁ = c₂) :
    result₁ = result₂ ∧ c₁ = c₂ := by
  induction h₁ generalizing result₂ c₂ with
  | stop hstop =>
    cases h₂ with
    | stop _ => exact ⟨rfl, rfl⟩
    | fail hmore _ | again hmore _ _ => cases hstop.symm.trans hmore
  | fail hmore herror =>
    cases h₂ with
    | stop hstop => cases hstop.symm.trans hmore
    | fail _ herror' =>
      obtain ⟨heq, rfl⟩ := hitem herror herror'
      exact ⟨congrArg Except.error (Except.error.inj heq), rfl⟩
    | again _ hvalue _ => cases (hitem herror hvalue).1
  | again hmore hvalue _ ih =>
    cases h₂ with
    | stop hstop => cases hstop.symm.trans hmore
    | fail _ herror => cases (hitem hvalue herror).1
    | again _ hvalue' hothers =>
      obtain ⟨heq, rfl⟩ := hitem hvalue hvalue'
      obtain rfl := Except.ok.inj heq
      obtain ⟨rfl, rfl⟩ := ih hothers
      exact ⟨rfl, rfl⟩

/-- The steps of a script lead to one place at most, in one way. -/
theorem Script.Leads.unique {script : Script α} {c c₁ c₂ : Cursor all}
    {result₁ result₂ : Except SyntaxError α} (h₁ : script.Leads c result₁ c₁)
    (h₂ : script.Leads c result₂ c₂) : result₁ = result₂ ∧ c₁ = c₂ := by
  induction script generalizing c c₁ c₂ with
  | yield | refuse | start | spanFrom => exact ⟨h₁.1.trans h₂.1.symm, h₁.2.trans h₂.2.symm⟩
  | within rule body ih => exact ih h₁ h₂
  | take expected choose =>
    simp only [Leads] at h₁ h₂
    cases hchoose : choose c.current with
    | some value =>
      rw [hchoose] at h₁ h₂
      exact ⟨h₁.1.trans h₂.1.symm, h₁.2.trans h₂.2.symm⟩
    | none =>
      rw [hchoose] at h₁ h₂
      exact ⟨h₁.1.trans h₂.1.symm, h₁.2.trans h₂.2.symm⟩
  | branch look yes no ihyes ihno =>
    simp only [Leads] at h₁ h₂
    split at h₁
    · next hlook => exact ihyes h₁ (by rwa [if_pos hlook] at h₂)
    · next hlook => exact ihno h₁ (by rwa [if_neg hlook] at h₂)
  | repeatWhile look item ih =>
    have h₁ : Cursor.Repeats look item.Leads c result₁ c₁ := h₁
    exact h₁.unique h₂ ih
  | andThen first next ihfirst ihnext =>
    rcases h₁ with ⟨error, hfirst, rfl⟩ | ⟨value, middle, hfirst, hnext⟩
    · rcases h₂ with ⟨error', hfirst', rfl⟩ | ⟨value', middle', hfirst', -⟩
      · obtain ⟨heq, rfl⟩ := ihfirst hfirst hfirst'
        exact ⟨congrArg Except.error (Except.error.inj heq), rfl⟩
      · cases (ihfirst hfirst hfirst').1
    · rcases h₂ with ⟨error', hfirst', rfl⟩ | ⟨value', middle', hfirst', hnext'⟩
      · cases (ihfirst hfirst hfirst').1
      · obtain ⟨heq, rfl⟩ := ihfirst hfirst hfirst'
        obtain rfl := Except.ok.inj heq
        exact ihnext value hnext hnext'

/-! ## Looks that stop at the end -/

namespace Grammar

/-- Kinds of tokens that are the same up to the first end of the file. -/
def SameToEnd (kinds others : Nat → TokenKind) : Prop :=
  ∀ distance, (∀ nearer < distance, kinds nearer ≠ .endOfFile) → kinds distance = others distance

/-- Looking for a field does not look past an end of the file. -/
theorem SameToEnd.fieldAt {kinds others : Nat → TokenKind} (h : SameToEnd kinds others) :
    fieldAt kinds = fieldAt others := by
  have hfirst := h 0 fun _ hlt => absurd hlt (Nat.not_lt_zero _)
  unfold Grammar.fieldAt
  rw [← hfirst]
  by_cases hend : kinds 0 = .endOfFile
  · simp [hend, TokenKind.isPrimitive]
  · rw [h 1 fun nearer hlt => Nat.lt_one_iff.1 hlt ▸ hend]

/-- Nor does looking for an item. -/
theorem SameToEnd.enumItemAt {kinds others : Nat → TokenKind} (h : SameToEnd kinds others) :
    enumItemAt kinds = enumItemAt others := by
  have hfirst := h 0 fun _ hlt => absurd hlt (Nat.not_lt_zero _)
  unfold Grammar.enumItemAt
  rw [← hfirst]
  by_cases hend : kinds 0 = .endOfFile
  · rw [hend]
    rfl
  · have hsecond := h 1 fun nearer hlt => Nat.lt_one_iff.1 hlt ▸ hend
    rw [← hsecond]
    by_cases hend' : kinds 1 = .endOfFile
    · have hcolon : (kinds 1 == .punctuation .colon) = false := by rw [hend']; rfl
      simp [hcolon]
    · have hnearer : ∀ nearer < 2, kinds nearer ≠ .endOfFile := by
        intro nearer hlt
        obtain rfl | rfl : nearer = 0 ∨ nearer = 1 := by omega
        · exact hend
        · exact hend'
      rw [h 2 hnearer]

/-- A look at the next token alone. -/
theorem SameToEnd.zero {kinds others : Nat → TokenKind} (h : SameToEnd kinds others) :
    kinds 0 = others 0 := h 0 fun _ hlt => absurd hlt (Nat.not_lt_zero _)

end Grammar

/-- The look does not depend on what is behind the first end of the file. -/
def Look.StopsAtEnd : Look → Prop
  | .kinds test => ∀ kinds others, Grammar.SameToEnd kinds others → test kinds = test others
  | .notAtEnd => True

/-- The script does not take an end of the file nor looks past one, and the items that it repeats go
past a token each. -/
def Script.StopsAtEnd {α : Type} : Script α → Prop
  | .yield _ | .refuse _ | .start | .spanFrom _ => True
  | .andThen first next => first.StopsAtEnd ∧ ∀ value, (next value).StopsAtEnd
  | .within _ body => body.StopsAtEnd
  | .take _ choose => ∀ t : Token, t.kind = .endOfFile → choose t = none
  | .branch look yes no => look.StopsAtEnd ∧ yes.StopsAtEnd ∧ no.StopsAtEnd
  | .repeatWhile look item => look.StopsAtEnd ∧ item.StopsAtEnd ∧ item.Consumes

namespace Stream

/-- The stream is what can be seen from an index of a list of tokens. -/
structure Stands (s : Stream) (all : List Token) (index : Nat) : Prop where
  /-- The index is in range, and the token at the place is the one there. -/
  current : all[index]? = some s.current
  /-- The tokens in front of the index are consumed. -/
  consumed : s.consumed = (all.take index).reverse
  /-- None of them is an end of the file, so the index is not behind the first one. -/
  notPast : ∀ t ∈ all.take index, t.kind ≠ .endOfFile
  /-- What is ahead reaches from the index to the first end of the file. -/
  ahead : s.ahead = (all.drop index).takeWhile fun t => t.kind ≠ .endOfFile
  /-- Up to there the whole list has the same kinds of tokens. -/
  kinds : Grammar.SameToEnd s.kindAt (kindFrom all index)
  /-- Looking for a field in the whole list gives the same answer. -/
  field : Grammar.atField s = Grammar.fieldAt (kindFrom all index)
  /-- So does looking for an item of an enumeration. -/
  enumItem : Grammar.atEnumItem s = Grammar.enumItemAt (kindFrom all index)

/-! ## The first end of the file -/

/-- Tokens have no end of the file among them, or there is a first one. -/
theorem first_end (tokens : List Token) :
    (∀ t ∈ tokens, t.kind ≠ .endOfFile) ∨ ∃ front final behind,
      tokens = front ++ final :: behind ∧ (∀ t ∈ front, t.kind ≠ .endOfFile) ∧
        final.kind = .endOfFile := by
  induction tokens with
  | nil => exact .inl (List.forall_mem_nil _)
  | cons t others ih =>
    by_cases ht : t.kind = .endOfFile
    · exact .inr ⟨[], t, others, rfl, List.forall_mem_nil _, ht⟩
    · rcases ih with hothers | ⟨front, final, behind, rfl, hfront, hfinal⟩
      · exact .inl (List.forall_mem_cons.2 ⟨ht, hothers⟩)
      · exact .inr ⟨t :: front, final, behind, rfl, List.forall_mem_cons.2 ⟨ht, hfront⟩, hfinal⟩

/-- Without an end of the file all tokens are ahead, and the missing end is behind them. -/
theorem ofTokens_of_forall {tokens : List Token} (h : ∀ t ∈ tokens, t.kind ≠ .endOfFile) :
    ofTokens tokens = ⟨[], tokens, missingEnd tokens⟩ := by
  have htake : tokens.takeWhile (fun t => t.kind ≠ .endOfFile) = tokens := by
    rw [← List.append_nil tokens, List.takeWhile_append_of_pos (by simpa using h)]
    rfl
  have hfind : tokens.find? (fun t => t.kind = .endOfFile) = none :=
    List.find?_eq_none.2 (by simpa using h)
  simp only [ofTokens, htake, hfind, Option.getD_none]

/-- In the tokens that are read an end of the file stands behind those that the stream keeps. -/
theorem completed_eq (tokens : List Token) :
    (∀ t ∈ (ofTokens tokens).ahead, t.kind ≠ .endOfFile) ∧
      (ofTokens tokens).final.kind = .endOfFile ∧
      ∃ behind, completed tokens =
        (ofTokens tokens).ahead ++ (ofTokens tokens).final :: behind := by
  rcases first_end tokens with h | ⟨front, final, behind, rfl, hfront, hfinal⟩
  · have hlast : ¬ tokens.getLast?.any fun t => t.kind = .endOfFile := by
      rw [Option.any_eq_true]
      rintro ⟨t, ht, hk⟩
      exact h t (List.mem_of_getLast? ht) (by simpa using hk)
    rw [ofTokens_of_forall h]
    refine ⟨h, ?_, [], if_neg hlast⟩
    unfold missingEnd
    split <;> rfl
  · rw [ofTokens_cut hfront hfinal]
    refine ⟨hfront, hfinal, ?_⟩
    unfold completed
    split
    · exact ⟨behind, rfl⟩
    · exact ⟨behind ++ [_], List.append_assoc ..⟩

theorem cutAtEnd_append {front : List Token} {final : Token}
    (hfront : ∀ t ∈ front, t.kind ≠ .endOfFile) (hfinal : final.kind = .endOfFile)
    (behind : List Token) : cutAtEnd (front ++ final :: behind) = front ++ [final] := by
  induction front with
  | nil => exact if_pos hfinal
  | cons t front ih =>
    obtain ⟨ht, hothers⟩ := List.forall_mem_cons.1 hfront
    rw [List.cons_append, cutAtEnd, if_neg ht, ih hothers, List.cons_append]

theorem cutAtEnd_of_forall {tokens : List Token} (h : ∀ t ∈ tokens, t.kind ≠ .endOfFile) :
    cutAtEnd tokens = tokens := by
  induction tokens with
  | nil => rfl
  | cons t others ih =>
    obtain ⟨ht, hothers⟩ := List.forall_mem_cons.1 h
    rw [cutAtEnd, if_neg ht, ih hothers]

/-- What is behind the first end of the file plays no part. -/
theorem ofTokens_cutAtEnd (tokens : List Token) : ofTokens (cutAtEnd tokens) = ofTokens tokens := by
  rcases first_end tokens with h | ⟨front, final, behind, rfl, hfront, hfinal⟩
  · rw [cutAtEnd_of_forall h]
  · rw [cutAtEnd_append hfront hfinal, ofTokens_cut hfront hfinal, ofTokens_cut hfront hfinal]

/-! ## Seeing the same -/

/-- The stream is what can be seen from the cursor. -/
structure Views (s : Stream) (c : Cursor all) : Prop where
  /-- The tokens in front of the index are consumed. -/
  consumed : s.consumed = (all.take c.index).reverse
  /-- None of them is an end of the file. -/
  notPast : ∀ t ∈ all.take c.index, t.kind ≠ .endOfFile
  /-- Those ahead stand behind the index, and behind them an end of the file. -/
  ahead : ∃ behind, all.drop c.index = s.ahead ++ s.final :: behind
  /-- None of those ahead is an end of the file. -/
  plain : ∀ t ∈ s.ahead, t.kind ≠ .endOfFile
  /-- The last token is. -/
  final : s.final.kind = .endOfFile

namespace Views

variable {s : Stream} {c : Cursor all}

/-- A token of the whole list, by its distance from the index. -/
theorem getElem?_eq (h : s.Views c) : ∃ behind, ∀ distance,
    all[c.index + distance]? = (s.ahead ++ s.final :: behind)[distance]? := by
  obtain ⟨behind, hdrop⟩ := h.ahead
  exact ⟨behind, fun distance => by rw [← hdrop, List.getElem?_drop]⟩

/-- The next token is the one at the index. -/
theorem current_eq (h : s.Views c) : s.current = c.current := by
  obtain ⟨behind, hget⟩ := h.getElem?_eq
  have hfirst : all[c.index]? = some s.current := by
    rw [← Nat.add_zero c.index, hget, Stream.current]
    cases s.ahead <;> rfl
  exact (List.getElem_eq_iff c.inRange).2 hfirst |>.symm

/-- Up to the first end of the file the kinds are the same. -/
theorem kinds (h : s.Views c) : Grammar.SameToEnd s.kindAt c.peekAhead := by
  obtain ⟨behind, hget⟩ := h.getElem?_eq
  intro distance hnearer
  have hle : distance ≤ s.ahead.length := by
    refine Nat.le_of_not_lt fun hlt => hnearer s.ahead.length hlt ?_
    rw [Stream.kindAt, List.getElem?_eq_none (Nat.le_refl _)]
  rw [Stream.kindAt, Cursor.peekAhead, kindFrom, hget]
  rcases Nat.lt_or_eq_of_le hle with hlt | rfl
  · rw [List.getElem?_append_left hlt]
    cases s.ahead[distance]? <;> rfl
  · rw [List.getElem?_append_right (Nat.le_refl _), Nat.sub_self, List.getElem?_cons_zero,
      List.getElem?_eq_none (Nat.le_refl _)]
    exact h.final.symm

theorem atEnd_eq (h : s.Views c) : s.atEnd = decide (c.current.kind = .endOfFile) := by
  rw [← h.current_eq, Stream.atEnd, Stream.current]
  cases hahead : s.ahead with
  | nil => simp [h.final]
  | cons t others => simp [h.plain t (hahead ▸ List.mem_cons_self)]

/-- A look that stops at the end finds the same. -/
theorem look_eq (h : s.Views c) {look : Look} (hlook : look.StopsAtEnd) :
    look.holds s = look.sees c := by
  cases look with
  | kinds test => exact hlook _ _ h.kinds
  | notAtEnd =>
    rw [Look.holds, h.atEnd_eq]
    simp [Look.sees]

theorem spanFrom_eq (h : s.Views c) (start : Span) : s.spanFrom start = c.spanFrom start := by
  obtain ⟨index, hrange⟩ := c
  rw [Stream.spanFrom, h.consumed]
  cases index with
  | zero => rfl
  | succ before =>
    rw [List.take_add_one, List.getElem?_eq_getElem (Nat.lt_of_succ_lt hrange),
      Option.toList_some, List.reverse_append]
    rfl

/-- A token that is taken is no end of the file, so the cursor advances to the one behind it. -/
theorem advance (h : s.Views c) {t : Token} {others : List Token} (hahead : s.ahead = t :: others) :
    Views { s with consumed := t :: s.consumed, ahead := others } c.advance := by
  obtain ⟨behind, hdrop⟩ := h.ahead
  rw [hahead, List.cons_append] at hdrop
  have hplain := h.plain
  rw [hahead] at hplain
  obtain ⟨ht, hothers⟩ := List.forall_mem_cons.1 hplain
  have hget : all[c.index]? = some t := by
    rw [← Nat.add_zero c.index, ← List.getElem?_drop, hdrop]
    rfl
  have hnext : all.drop (c.index + 1) = others ++ s.final :: behind := by
    rw [← List.tail_drop, hdrop, List.tail_cons]
  have hlt : c.index < all.length - 1 := by
    have hlength := congrArg List.length hdrop
    simp only [List.length_drop, List.length_cons, List.length_append] at hlength
    omega
  have hindex : c.advance.index = c.index + 1 := by rw [Cursor.advance, dif_pos hlt]
  have htake : all.take (c.index + 1) = all.take c.index ++ [t] := by
    rw [List.take_add_one, hget]
    rfl
  refine ⟨?_, ?_, ⟨behind, hindex ▸ hnext⟩, hothers, h.final⟩
  · rw [hindex, htake, List.reverse_append, ← h.consumed]
    rfl
  · rw [hindex, htake]
    exact List.forall_mem_append.2 ⟨h.notPast, List.forall_mem_singleton.2 ht⟩

/-- A stream that is seen from a cursor stands at its index. -/
theorem stands (h : s.Views c) : s.Stands all c.index where
  current := by
    rw [h.current_eq]
    exact List.getElem?_eq_getElem c.inRange
  consumed := h.consumed
  notPast := h.notPast
  ahead := by
    obtain ⟨behind, hdrop⟩ := h.ahead
    rw [hdrop, List.takeWhile_append_of_pos (by simpa using h.plain)]
    simp [h.final]
  kinds := h.kinds
  field := (Grammar.atField_eq s).trans h.kinds.fieldAt
  enumItem := (Grammar.atEnumItem_eq s).trans h.kinds.enumItemAt

end Views

/-- Going past tokens from the start comes to where a cursor sees the same. -/
theorem exists_views {tokens read : List Token} {s : Stream} (h : (ofTokens tokens).Reads read s) :
    ∃ c : Cursor (completed tokens), c.index = read.length ∧ s.Views c := by
  obtain ⟨hfront, hfinal, behind, hall⟩ := completed_eq tokens
  rw [h.ahead] at hfront hall
  rw [← h.final] at hfinal hall
  rw [List.append_assoc] at hall
  have hlength := congrArg List.length hall
  simp only [List.length_append, List.length_cons] at hlength
  refine ⟨⟨read.length, by omega⟩, rfl, ?_⟩
  have htake : (completed tokens).take read.length = read := by rw [hall, List.take_left]
  refine ⟨?_, ?_, ⟨behind, ?_⟩, (List.forall_mem_append.1 hfront).2, hfinal⟩
  · rw [htake, h.consumed]
    exact List.append_nil _
  · rw [htake]
    exact (List.forall_mem_append.1 hfront).1
  · exact (congrArg (List.drop read.length) hall).trans List.drop_left

/-- Going past tokens from the start comes to an index of the list. -/
theorem stands_of_reads {tokens read : List Token} {s : Stream}
    (h : (ofTokens tokens).Reads read s) : s.Stands (completed tokens) read.length := by
  obtain ⟨c, hindex, hviews⟩ := exists_views h
  exact hindex ▸ hviews.stands

end Stream

/-! ## Scripts on cursors -/

namespace Script

/-- The steps of a script lead to where its parser comes to, with what the parser yields. -/
theorem leads (script : Script α) (h : script.StopsAtEnd) (rule : Rule) {s : Stream}
    {c : Cursor all} (hs : s.Views c) :
    ∃ c', script.Leads c (script.parser rule s).result c' ∧
      (script.parser rule s).place.Views c' := by
  induction script generalizing rule s c with
  | yield value => exact ⟨c, ⟨rfl, rfl⟩, hs⟩
  | refuse literal => exact ⟨c, ⟨rfl, rfl⟩, hs⟩
  | start =>
    have hspan : s.current.span = c.current.span := congrArg Token.span hs.current_eq
    exact ⟨c, ⟨congrArg Except.ok hspan, rfl⟩, hs⟩
  | spanFrom first => exact ⟨c, ⟨congrArg Except.ok (hs.spanFrom_eq first), rfl⟩, hs⟩
  | within inner body ih => exact ih h inner hs
  | branch look yes no ihyes ihno =>
    have hlook := hs.look_eq h.1
    simp only [parser_branch, Parser.branch, Leads, ← hlook]
    split
    · exact ihyes h.2.1 rule hs
    · exact ihno h.2.2 rule hs
  | take expected choose =>
    simp only [parser_take, Parser.take, Leads]
    cases hahead : s.ahead with
    | nil =>
      have hfinal : s.final = c.current := by rw [← hs.current_eq, Stream.current, hahead]; rfl
      rw [← hfinal]
      simp only [h _ hs.final]
      exact ⟨c, ⟨rfl, rfl⟩, hs⟩
    | cons t others =>
      have ht : t = c.current := by rw [← hs.current_eq, Stream.current, hahead]; rfl
      rw [← ht]
      dsimp only
      cases hchoose : choose t with
      | some value => exact ⟨c.advance, ⟨rfl, rfl⟩, hs.advance hahead⟩
      | none => exact ⟨c, ⟨rfl, rfl⟩, hs⟩
  | andThen first next ihfirst ihnext =>
    obtain ⟨middle, hfirst, hmiddle⟩ := ihfirst h.1 rule hs
    show ∃ c', Leads _ c ((first.parser >>= fun value => (next value).parser) rule s).result c' ∧
      ((first.parser >>= fun value => (next value).parser) rule s).place.Views c'
    rw [Parser.bind_apply]
    cases hp : first.parser rule s with
    | fail failure rest =>
      rw [hp] at hfirst hmiddle
      exact ⟨middle, .inl ⟨failure.error, hfirst, rfl⟩, hmiddle⟩
    | ok value rest =>
      rw [hp] at hfirst hmiddle
      obtain ⟨c', hnext, hc'⟩ := ihnext value (h.2 value) rule hmiddle
      exact ⟨c', .inr ⟨value, middle, hfirst, hnext⟩, hc'⟩
  | repeatWhile look item ih =>
    -- The items that are left are fewer behind each item, since an item goes past a token.
    show ∃ c', Cursor.Repeats look item.Leads c
      (Parser.repeatWhile look.holds item.parser rule s).result c' ∧
        (Parser.repeatWhile look.holds item.parser rule s).place.Views c'
    induction hlength : s.ahead.length using Nat.strongRecOn generalizing s c with
    | ind length ihlength =>
      have hlook := hs.look_eq h.1
      rw [Parser.repeatWhile_eq]
      by_cases hmore : look.holds s = true
      · rw [if_pos hmore]
        rw [hlook] at hmore
        obtain ⟨middle, hitem, hmiddle⟩ := ih h.2.1 rule hs
        cases hp : item.parser rule s with
        | fail failure rest =>
          rw [hp] at hitem hmiddle
          exact ⟨middle, .fail hmore hitem, hmiddle⟩
        | ok value rest =>
          rw [hp] at hitem hmiddle
          have hrest : rest.Views middle := hmiddle
          have hlt := h.2.2.parser hp
          obtain ⟨c', hothers, hc'⟩ := ihlength rest.ahead.length (hlength ▸ hlt) hrest rfl
          simp only [if_pos hlt]
          cases hp' : Parser.repeatWhile look.holds item.parser rule rest with
          | ok values last =>
            rw [hp'] at hothers hc'
            exact ⟨c', .again hmore hitem hothers, hc'⟩
          | fail failure last =>
            rw [hp'] at hothers hc'
            exact ⟨c', .again hmore hitem hothers, hc'⟩
      · rw [if_neg hmore]
        rw [hlook, Bool.not_eq_true] at hmore
        exact ⟨c, .stop hmore, hs⟩

/-- The steps of a script lead to where its parser comes to, and nowhere else. -/
theorem leads_iff (script : Script α) (h : script.StopsAtEnd) (rule : Rule) {s : Stream}
    {c : Cursor all} (hs : s.Views c) :
    ∃ c', (script.parser rule s).place.Views c' ∧ ∀ result place,
      script.Leads c result place ↔ result = (script.parser rule s).result ∧ place = c' := by
  obtain ⟨c', hleads, hc'⟩ := script.leads h rule hs
  refine ⟨c', hc', fun result place => ⟨fun hother => hother.unique hleads, ?_⟩⟩
  rintro ⟨rfl, rfl⟩
  exact hleads

/-! ## The grammar stops at the end -/

theorem isAt_stops (kind : TokenKind) : (isAt kind).StopsAtEnd :=
  fun _ _ h => congrArg (· == kind) h.zero

theorem expect_stops {kind : TokenKind} (hkind : kind ≠ .endOfFile) : (expect kind).StopsAtEnd :=
  fun _ ht => if_neg fun heq => hkind (heq.symm.trans ht)

theorem accept_stops {kind : TokenKind} (hkind : kind ≠ .endOfFile) : (accept kind).StopsAtEnd :=
  ⟨isAt_stops kind, ⟨expect_stops hkind, fun _ => trivial⟩, trivial⟩

theorem bracketed_stops {item : Script (String × Attribute)} (h : item.StopsAtEnd) :
    (bracketed item).StopsAtEnd := by
  have hothers : (Script.repeatWhile (isAt (.punctuation .comma)) do
      let _ ← expect (.punctuation .comma)
      item).StopsAtEnd :=
    ⟨isAt_stops _, ⟨expect_stops (by decide), fun _ => h⟩, listItem_consumes item⟩
  exact ⟨expect_stops (by decide), fun _ =>
    ⟨⟨isAt_stops _, trivial, h, fun _ => ⟨hothers, fun _ => trivial⟩⟩, fun _ =>
      ⟨expect_stops (by decide), fun _ => trivial⟩⟩⟩

theorem readAttribute_stops : readAttribute.StopsAtEnd := by
  refine ⟨expect_stops (by decide), fun _ => ⟨expect_stops (by decide), fun _ => ⟨?_, ?_⟩⟩⟩
  · exact fun t ht => by rw [Grammar.attributeText?, ht]
  · exact fun _ => trivial

theorem readAttributes_stops : readAttributes.StopsAtEnd := bracketed_stops readAttribute_stops

theorem optionalAttributes_stops : optionalAttributes.StopsAtEnd :=
  ⟨isAt_stops _, readAttributes_stops, trivial⟩

theorem readFieldAttr_stops : readFieldAttr.StopsAtEnd :=
  ⟨accept_stops (by decide), fun _ => ⟨expect_stops (by decide), fun _ => trivial⟩⟩

theorem readFieldAttrs_stops : readFieldAttrs.StopsAtEnd := bracketed_stops readFieldAttr_stops

theorem readTypeRef_stops : readTypeRef.StopsAtEnd := by
  refine ⟨trivial, fun _ => ⟨?_, fun _ => trivial⟩⟩
  exact fun t ht => by rw [Grammar.typeName?, ht]

theorem readField_stops : readField.StopsAtEnd := by
  refine ⟨trivial, fun _ => ⟨?name, fun _ => ⟨expect_stops (by decide), fun _ =>
    ⟨readTypeRef_stops, fun _ => ⟨accept_stops (by decide), fun _ => ⟨?attrs, ?last⟩⟩⟩⟩⟩⟩
  case name => exact fun t ht => by rw [Grammar.fieldName?, ht]
  case attrs => exact ⟨isAt_stops _, readFieldAttrs_stops, trivial⟩
  case last => exact fun _ => ⟨trivial, fun _ => trivial⟩

theorem readFields_stops : readFields.StopsAtEnd :=
  ⟨⟨fun _ _ h => h.fieldAt, readField_stops, readField_consumes⟩, fun _ => trivial⟩

theorem readInteger_stops (literal : Token) : (readInteger literal).StopsAtEnd := by
  unfold readInteger
  cases Decimal.signed64? literal.text.toList <;> trivial

theorem readEnumItem_stops : readEnumItem.StopsAtEnd := by
  refine ⟨?_, fun _ => ⟨expect_stops (by decide), fun _ => ⟨expect_stops (by decide), fun literal =>
    ⟨readInteger_stops literal, fun _ => trivial⟩⟩⟩⟩
  exact fun t ht => by rw [Grammar.itemName?, ht]

theorem readEnumItems_stops : readEnumItems.StopsAtEnd :=
  ⟨⟨fun _ _ h => h.enumItemAt, readEnumItem_stops, readEnumItem_consumes⟩, fun _ => trivial⟩

theorem readBody_stops (marker : Marker) : (readBody marker).StopsAtEnd := by
  cases marker with
  | table | type => exact ⟨readFields_stops, fun _ => trivial⟩
  | enumeration => exact ⟨readEnumItems_stops, fun _ => trivial⟩

theorem readDeclaration_stops : readDeclaration.StopsAtEnd := by
  refine ⟨trivial, fun _ => ⟨?_, fun marker => ⟨expect_stops (by decide), fun _ =>
    ⟨optionalAttributes_stops, fun _ => ⟨expect_stops (by decide), fun _ =>
      ⟨readBody_stops marker, fun _ => ⟨trivial, fun _ => trivial⟩⟩⟩⟩⟩⟩⟩
  exact fun t ht => by rw [Grammar.marker?, ht]

theorem readEndpoint_stops : readEndpoint.StopsAtEnd := by
  refine ⟨trivial, fun _ => ⟨expect_stops (by decide), fun _ => ⟨?_, fun _ =>
    ⟨optionalAttributes_stops, fun _ => ⟨expect_stops (by decide), fun _ =>
      ⟨trivial, fun _ => trivial⟩⟩⟩⟩⟩⟩
  exact fun t ht => by rw [Grammar.method?, ht]

theorem readMember_stops : readMember.StopsAtEnd :=
  ⟨fun _ _ h => congrArg TokenKind.isMarker h.zero, ⟨readDeclaration_stops, fun _ => trivial⟩,
    isAt_stops _, ⟨readEndpoint_stops, fun _ => trivial⟩, fun _ _ => rfl⟩

theorem readApplication_stops : readApplication.StopsAtEnd := by
  have hmembers : (Script.repeatWhile (.kinds Grammar.memberAt) readMember).StopsAtEnd := by
    refine ⟨fun kinds others h => ?_, readMember_stops, readMember_consumes⟩
    rw [Grammar.memberAt, Grammar.memberAt, h.zero]
  exact ⟨trivial, fun _ => ⟨expect_stops (by decide), fun _ => ⟨optionalAttributes_stops, fun _ =>
    ⟨expect_stops (by decide), fun _ => ⟨hmembers, fun _ => ⟨trivial, fun _ => trivial⟩⟩⟩⟩⟩⟩

/-- No rule takes an end of the file or looks past one, and each repeats only what goes past
tokens. -/
theorem ofRule_stops (rule : Rule) : (ofRule rule).StopsAtEnd := by
  have hread {α : Type} {script : Script α} (h : script.StopsAtEnd) (f : α → Fragment) :
      (f <$> script >>= fun _ => pure () : Script Unit).StopsAtEnd :=
    ⟨⟨h, fun _ => trivial⟩, fun _ => trivial⟩
  cases rule with
  | model => exact ⟨⟨trivial, readApplication_stops, readApplication_consumes⟩, fun _ => trivial⟩
  | application => exact hread readApplication_stops _
  | attributes => exact hread readAttributes_stops _
  | «attribute» => exact hread readAttribute_stops _
  | declaration => exact hread readDeclaration_stops _
  | enumItem => exact hread readEnumItem_stops _
  | field => exact hread readField_stops _
  | typeRef => exact hread readTypeRef_stops _
  | fieldAttrs => exact hread readFieldAttrs_stops _
  | fieldAttr => exact hread readFieldAttr_stops _
  | endpoint => exact hread readEndpoint_stops _

end Script
end SyslModel
