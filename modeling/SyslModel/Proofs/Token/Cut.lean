import SyslModel.Proofs.Grammar.Relocation
import SyslModel.Proofs.RoundTrip.Reparse
import SyslModel.Proofs.Token.Lexeme
/-!
# Cutting and joining sources

No token and no comment reaches past a line feed, so the pieces of two texts with a line feed
between them are the pieces of the one, the line feed and the pieces of the other
(`pieces_append_newline`).  And where nothing is bad, a run of pieces is cut into the same pieces
when it stands alone (`pieces_of_cut`).

Either way the tokens are the same but for their places.  `Relocation.behind` puts the tokens of a
text behind another text.  So a source without lexical errors can be cut in two between any of its
tokens (`tokens_of_split`).
-/

namespace SyslModel

/-! ## Places behind a text -/

namespace Position

/-- The position of a text, seen from where another text ends that the text stands behind. -/
def behind (start p : Position) : Position :=
  if p.line = 1 then ⟨start.line, start.column + p.column - 1⟩
  else ⟨start.line + p.line - 1, p.column⟩

theorem behind_next (start : Position) {p : Position} (hline : 1 ≤ p.line) (hcolumn : 1 ≤ p.column)
    (c : Char) : (start.behind p).next c = start.behind (p.next c) := by
  obtain ⟨line, column⟩ := p
  dsimp only at hline hcolumn
  unfold behind next
  by_cases hc : c = '\n'
  · have hne : line + 1 ≠ 1 := by omega
    simp only [if_pos hc, if_neg hne]
    split
    · next h => exact congrArg₂ mk (by dsimp only; omega) rfl
    · exact congrArg₂ mk (by dsimp only; omega) rfl
  · simp only [if_neg hc]
    split
    · exact congrArg₂ mk rfl (by dsimp only; omega)
    · rfl

/-- The position behind two texts is that behind the second one, seen from the first. -/
theorem after_behind (start : Position) (text : List Char) {p : Position} (hline : 1 ≤ p.line)
    (hcolumn : 1 ≤ p.column) : (start.behind p).after text = start.behind (p.after text) := by
  induction text generalizing p with
  | nil => rfl
  | cons c text ih =>
    have hnext : 1 ≤ (p.next c).line ∧ 1 ≤ (p.next c).column := by
      unfold next
      split <;> dsimp only <;> omega
    rw [after_cons, behind_next start hline hcolumn, ih hnext.1 hnext.2, after_cons]

theorem after_eq_behind (start : Position) (text : List Char) :
    start.after text = start.behind (first.after text) :=
  after_behind start text (show 1 ≤ first.line from le_rfl) le_rfl

end Position

/-- The tokens of a text, put behind another text. -/
def Relocation.behind (text : List Char) : Relocation :=
  .shift (utf8Length text) (Position.first.after text).behind

/-- The location behind two texts, seen from the first. -/
theorem Location.first_after_append (before text : List Char) :
    Location.first.after (before ++ text) =
      ⟨(Location.first.after text).offset + utf8Length before,
        (Relocation.behind before).position (Location.first.after text).position⟩ := by
  rw [Location.after_append]
  refine congrArg₂ Location.mk ?_ (Position.after_eq_behind _ text)
  simp only [Location.after_offset, Location.first]
  omega

theorem token?_behind (before text : List Char) (piece : Piece) :
    PlacedPiece.token? ⟨Location.first.after (before ++ text), piece⟩ =
      (PlacedPiece.token? ⟨Location.first.after text, piece⟩).map
        (Token.relocate (.behind before)) := by
  rw [Location.first_after_append]
  unfold PlacedPiece.token?
  cases piece.kind with
  | token kind =>
    refine congrArg (fun span => some (Token.mk kind _ span _)) ?_
    exact congrArg (Span.mk _) (Nat.add_right_comm _ _ _)
  | blank => rfl
  | bad => rfl

/-- What is read off placed pieces moves along with them, if it does for each piece. -/
theorem filterMap_placed_behind {α : Type} {f : PlacedPiece → Option α} {g : α → α}
    {before : List Char}
    (hf : ∀ text piece, f ⟨Location.first.after (before ++ text), piece⟩ =
      (f ⟨Location.first.after text, piece⟩).map g)
    (text : List Char) (pieces : List Piece) :
    (placed (Location.first.after (before ++ text)) pieces).filterMap f =
      ((placed (Location.first.after text) pieces).filterMap f).map g := by
  induction pieces generalizing text with
  | nil => rfl
  | cons piece others ih =>
    have hothers := ih (text ++ piece.text)
    rw [← List.append_assoc, Location.after_append _ (before ++ text),
      Location.after_append _ text] at hothers
    rw [placed, placed, List.filterMap_cons, List.filterMap_cons, hothers, hf]
    cases f ⟨Location.first.after text, piece⟩ <;> rfl

/-- Pieces that stand behind a text have the tokens that they have without it, put behind it. -/
theorem tokens_placed_behind (before text : List Char) (pieces : List Piece) :
    (placed (Location.first.after (before ++ text)) pieces).filterMap PlacedPiece.token? =
      ((placed (Location.first.after text) pieces).filterMap PlacedPiece.token?).map
        (Token.relocate (.behind before)) :=
  filterMap_placed_behind (token?_behind before) text pieces

theorem placed_append (place : Location) (first second : List Piece) :
    placed place (first ++ second) =
      placed place first ++ placed (place.after (first.flatMap Piece.text)) second := by
  induction first generalizing place with
  | nil => rfl
  | cons piece others ih =>
    rw [List.cons_append, placed, placed, ih, List.flatMap_cons, Location.after_append,
      List.cons_append]

/-- The tokens of a source are its pieces that are tokens, and the end of the file. -/
theorem tokens_eq_pieces (source : String) :
    (tokenize source).tokens =
      (placed Location.first (pieces source.toList)).filterMap PlacedPiece.token?
        ++ [Token.endOfFile (Location.first.after source.toList)] := by
  have hbad (p : PlacedPiece) (hp : p.piece.kind = .bad) : p.token? = none := by
    simp [PlacedPiece.token?, hp]
  rw [tokens_eq, stretches, filterMap_placed_joinRuns hbad]

theorem endOfFile_behind (before text : List Char) :
    Token.endOfFile (Location.first.after (before ++ text)) =
      (Token.endOfFile (Location.first.after text)).relocate (.behind before) := by
  rw [Location.first_after_append]
  rfl

/-! ## A line feed between two texts -/

/-- No token reaches past a line feed. -/
theorem TokenKind.Matches.newline_notMem_text {kind : TokenKind} {text : List Char}
    (h : kind.Matches text) : '\n' ∉ text := by
  cases kind with
  | quoted => exact Quoted.newline_notMem_of_matches h
  | punctuation p =>
    rw [mem_literal.1 h]
    cases p <;> decide
  | endOfFile =>
    rw [mem_literal.1 h]
    exact List.not_mem_nil
  | _ => exact h.newline_notMem rfl

/-- A text on one line in front of a source ends before the first line feed. -/
theorem prefix_append_newline_iff {text a : List Char} (h : '\n' ∉ text) (b : List Char) :
    text <+: a ++ '\n' :: b ↔ text <+: a := by
  constructor
  · intro hp
    obtain ⟨tail, htail⟩ := hp
    rcases List.append_eq_append_iff.1 htail with ⟨more, rfl, -⟩ | ⟨more, rfl, hmore⟩
    · exact List.prefix_append _ _
    · cases more with
      | nil => simp
      | cons c more =>
        obtain ⟨rfl, -⟩ := List.cons.inj hmore
        simp at h
  · exact fun hp => hp.trans (List.prefix_append _ _)

theorem longestAt_append_newline_iff {kind : TokenKind} {text a : List Char}
    (h : kind.Matches text) (b : List Char) :
    LongestAt (a ++ '\n' :: b) text ↔ LongestAt a text := by
  constructor
  · intro hl
    refine ⟨(prefix_append_newline_iff h.newline_notMem_text b).1 hl.isPrefix, ?_⟩
    intro other text' hother hp
    exact hl.length_le other text' hother (hp.trans (List.prefix_append _ _))
  · intro hl
    refine ⟨hl.isPrefix.trans (List.prefix_append _ _), ?_⟩
    intro other text' hother hp
    exact hl.length_le other text' hother
      ((prefix_append_newline_iff hother.newline_notMem_text b).1 hp)

theorem before_append_newline (kind : TokenKind) {text a : List Char} (h : text <+: a)
    (b : List Char) :
    kind.before ((a ++ '\n' :: b).drop text.length) = kind.before (a.drop text.length) := by
  rw [TokenKind.before_eq, TokenKind.before_eq, List.drop_append_of_le_length h.length_le]
  cases a.drop text.length <;> simp

theorem frontToken_append_newline (a b : List Char) :
    frontToken (a ++ '\n' :: b) = frontToken a := by
  refine Option.ext fun token => ?_
  obtain ⟨kind, text⟩ := token
  rw [frontToken_eq_some_iff, frontToken_eq_some_iff]
  refine exists_congr fun best => and_congr_right fun hbest => ?_
  rw [longestAt_append_newline_iff hbest.fits]
  refine and_congr_right fun hlongest => and_congr_right fun _ => ?_
  rw [before_append_newline best hlongest.isPrefix]

theorem takeWhile_append_newline (a b : List Char) :
    (a ++ '\n' :: b).takeWhile (· ≠ '\n') = a.takeWhile (· ≠ '\n') := by
  induction a with
  | nil => rfl
  | cons c a ih => simp only [List.cons_append, List.takeWhile_cons, ih]

theorem frontBlank_cons {c : Char} (hc : c ≠ '#') (rest : List Char) :
    frontBlank (c :: rest) = if isBlank c then [c] else [] := by
  unfold frontBlank
  split
  · next heq => exact absurd (List.cons.inj heq).1 hc
  · next heq =>
    obtain ⟨rfl, -⟩ := List.cons.inj heq
    rfl
  · next heq => cases heq

theorem frontBad_cons {c : Char} (hc : c ≠ '"') (rest : List Char) :
    frontBad (c :: rest) = [c] := by
  unfold frontBad
  split
  · next heq => exact absurd (List.cons.inj heq).1 hc
  · rfl

/-- The piece at the front of a line does not depend on what is behind the line. -/
theorem frontPiece_append_newline {a : List Char} (hne : a ≠ []) (b : List Char) :
    frontPiece (a ++ '\n' :: b) = frontPiece a := by
  obtain ⟨c, a, rfl⟩ := List.exists_cons_of_ne_nil hne
  have hblank : frontBlank (c :: a ++ '\n' :: b) = frontBlank (c :: a) := by
    rw [List.cons_append]
    by_cases hc : c = '#'
    · subst hc
      rw [frontBlank, frontBlank, takeWhile_append_newline]
    · rw [frontBlank_cons hc, frontBlank_cons hc]
  have hbad : frontBad (c :: a ++ '\n' :: b) = frontBad (c :: a) := by
    rw [List.cons_append]
    by_cases hc : c = '"'
    · subst hc
      rw [frontBad, frontBad, takeWhile_append_newline]
    · rw [frontBad_cons hc, frontBad_cons hc]
  rw [frontPiece, frontPiece, hblank, hbad, frontToken_append_newline]

/-- The pieces of two texts with a line feed between them. -/
theorem pieces_append_newline (a b : List Char) :
    pieces (a ++ '\n' :: b) = pieces a ++ ⟨.blank, ['\n']⟩ :: pieces b := by
  fun_induction pieces a with
  | case1 =>
    rw [List.nil_append, pieces_of_ne_nil (List.cons_ne_nil _ _),
      Scans.frontPiece_blank (by decide)]
    rfl
  | case2 a hne _ _ ih =>
    have hle := (frontPiece_isPrefix a).length_le
    rw [pieces_of_ne_nil (by simp), frontPiece_append_newline hne,
      List.drop_append_of_le_length hle, ih]
    rfl

/-- The tokens of two sources with a line feed between them: those of the first one, and behind them
those of the second one. -/
theorem tokens_append_newline {first second : String} {tokens tokens' : List Token}
    {final final' : Token} (h : (tokenize first).tokens = tokens ++ [final])
    (h' : (tokenize second).tokens = tokens' ++ [final']) :
    (tokenize (first ++ "\n" ++ second)).tokens =
      tokens ++ (tokens' ++ [final']).map (Token.relocate (.behind (first ++ "\n").toList)) := by
  have hfirst : (first ++ "\n").toList = first.toList ++ ['\n'] := String.toList_append
  have hboth : (first ++ "\n" ++ second).toList = (first ++ "\n").toList ++ second.toList :=
    String.toList_append
  rw [tokens_eq_pieces] at h h' ⊢
  obtain ⟨htokens, -⟩ := List.append_inj' h rfl
  obtain ⟨htokens', hfinal'⟩ := List.append_inj' h' rfl
  have hpieces : pieces ((first ++ "\n").toList ++ second.toList)
      = pieces first.toList ++ ⟨.blank, ['\n']⟩ :: pieces second.toList := by
    rw [hfirst, List.append_assoc]
    exact pieces_append_newline first.toList second.toList
  have hsecond := tokens_placed_behind (first ++ "\n").toList [] (pieces second.toList)
  rw [List.append_nil, Location.after_nil, htokens', hfirst, Location.after_append] at hsecond
  rw [hboth, endOfFile_behind, hpieces, placed_append, pieces_flatten, List.filterMap_append,
    htokens, List.map_append, ← hfinal', List.append_assoc, hfirst, ← hsecond]
  rfl

/-- If neither has lexical errors, both together have none. -/
theorem errors_append_newline {first second : String} (h : (tokenize first).errors = [])
    (h' : (tokenize second).errors = []) :
    (tokenize (first ++ "\n" ++ second)).errors = [] := by
  have htext : (first ++ "\n" ++ second).toList = first.toList ++ '\n' :: second.toList := by
    simp
  rw [errors_eq_nil_iff] at h h' ⊢
  rw [htext, pieces_append_newline, List.forall_mem_append, List.forall_mem_cons]
  exact ⟨h, by simp, h'⟩

/-! ## A run of pieces by itself -/

/-- A piece that is not bad, and has no dot behind it, stays the same if the source ends earlier. -/
theorem frontPiece_of_longer {piece : Piece} {rest after : List Char} (hne : piece.text ≠ [])
    (hbad : piece.kind ≠ .bad) (hdot : (rest ++ after).head? ≠ some '.')
    (h : frontPiece (piece.text ++ (rest ++ after)) = piece) :
    frontPiece (piece.text ++ rest) = piece := by
  have hrest : rest.head? ≠ some '.' := by
    intro heq
    obtain ⟨tail, rfl⟩ := List.head?_eq_some_iff.1 heq
    exact hdot rfl
  exact frontPiece_of_rest hne hbad h EndsLine.of_append
    (fun _ _ hp => hp.trans (List.prefix_append _ _)) hrest fun heq => absurd heq hdot

/-- In a source without lexical errors, a run of pieces is cut into the same pieces when it stands
alone. -/
theorem pieces_of_cut {source : String} (hlexed : (tokenize source).errors = [])
    {middle back : List Piece} (h : middle ++ back <:+ pieces source.toList) :
    pieces (middle.flatMap Piece.text) = middle := by
  induction middle with
  | nil => exact pieces_nil
  | cons piece middle ih =>
    rw [List.cons_append] at h
    have hmem : piece ∈ pieces source.toList := h.subset List.mem_cons_self
    have hne := text_ne_nil_of_mem_pieces hmem
    have hfront := (frontPiece_of_suffix h).1
    rw [List.flatMap_append] at hfront
    have hdot : (middle.flatMap Piece.text ++ back.flatMap Piece.text).head? ≠ some '.' := by
      rw [← List.flatMap_append]
      exact fun hdot => errors_ne_nil_of_dot h hdot hlexed
    have hpiece := frontPiece_of_longer hne (errors_eq_nil_iff.1 hlexed _ hmem) hdot hfront
    rw [List.flatMap_cons, pieces_of_ne_nil (by simp [hne]), hpiece, List.drop_left,
      ih ((List.suffix_cons _ _).trans h)]

/-- What maps to one value between others stands between what maps to the others. -/
theorem filterMap_eq_append_cons {α β : Type} {f : α → Option β} {list : List α}
    {first second : List β} {x : β} (h : list.filterMap f = first ++ x :: second) :
    ∃ front a back, list = front ++ a :: back ∧ front.filterMap f = first ∧ f a = some x ∧
      back.filterMap f = second := by
  obtain ⟨front, others, rfl, hfirst, hothers⟩ := List.filterMap_eq_append_iff.1 h
  obtain ⟨skipped, a, back, rfl, hskipped, ha, hback⟩ := List.filterMap_eq_cons_iff.1 hothers
  refine ⟨front ++ skipped, a, back, by simp, ?_, ha, hback⟩
  rw [List.filterMap_append, hfirst, List.filterMap_eq_nil_iff.2 hskipped, List.append_nil]

theorem placed_eq_append {place : Location} {pieces : List Piece} {first second : List PlacedPiece}
    (h : placed place pieces = first ++ second) :
    ∃ front back, pieces = front ++ back ∧ placed place front = first ∧
      placed (place.after (front.flatMap Piece.text)) back = second := by
  induction first generalizing place pieces with
  | nil => exact ⟨[], pieces, rfl, rfl, h⟩
  | cons p first ih =>
    cases pieces with
    | nil => cases h
    | cons piece others =>
      obtain ⟨rfl, hothers⟩ := List.cons.inj h
      obtain ⟨front, back, rfl, rfl, rfl⟩ := ih hothers
      refine ⟨piece :: front, back, rfl, rfl, ?_⟩
      rw [List.flatMap_cons, Location.after_append]

/-- The first of placed pieces starts at their place, the last one stops behind their text. -/
theorem placed_ends {place : Location} {pieces : List Piece} {first last : PlacedPiece}
    (hfirst : (placed place pieces).head? = some first)
    (hlast : (placed place pieces).getLast? = some last) :
    first.span.start = place.offset ∧
      last.span.stop = place.offset + utf8Length (pieces.flatMap Piece.text) := by
  constructor
  · cases pieces with
    | nil => cases hfirst
    | cons piece others =>
      obtain rfl := Option.some.inj hfirst
      rfl
  · rcases List.eq_nil_or_concat pieces with rfl | ⟨front, piece, rfl⟩
    · cases hlast
    · rw [List.concat_eq_append, placed_append, placed, placed, List.getLast?_concat] at hlast
      obtain rfl := Option.some.inj hlast
      rw [PlacedPiece.stop_eq, Location.after_offset, List.concat_eq_append, List.flatMap_append,
        utf8Length_append, List.flatMap_singleton, Nat.add_assoc]

/-- Neighbouring tokens of a source are the tokens of a run of pieces, which begins with the first
of them and ends with the last. -/
theorem exists_cut {source : String} {tokens before part after : List Token} {final : Token}
    (h : (tokenize source).tokens = tokens ++ [final]) (htokens : tokens = before ++ part ++ after)
    (hne : part ≠ []) :
    ∃ front middle back, pieces source.toList = front ++ middle ++ back ∧
      (placed (Location.first.after (front.flatMap Piece.text)) middle).filterMap
        PlacedPiece.token? = part ∧
      spanOf .origin part = ⟨utf8Length (front.flatMap Piece.text),
        utf8Length (front.flatMap Piece.text ++ middle.flatMap Piece.text)⟩ := by
  obtain ⟨t, others, rfl⟩ := List.exists_cons_of_ne_nil hne
  obtain ⟨init, l, hl⟩ := (List.eq_nil_or_concat (t :: others)).resolve_left hne
  rw [List.concat_eq_append] at hl
  rw [tokens_eq_pieces] at h
  obtain ⟨hplaced, -⟩ := List.append_inj' h rfl
  -- The stretches up to the last of the tokens, and among them those from the first one on.
  have hlast : (placed Location.first (pieces source.toList)).filterMap PlacedPiece.token?
      = (before ++ init) ++ l :: after := by
    rw [hplaced, htokens, hl]
    simp
  obtain ⟨upTo, q, behind, hsplit, hupTo, hq, -⟩ := filterMap_eq_append_cons hlast
  have hfirst : (upTo ++ [q]).filterMap PlacedPiece.token? = before ++ t :: others := by
    rw [List.filterMap_append, hupTo, hl, List.append_assoc, List.filterMap_cons_some hq]
    rfl
  obtain ⟨front, p, run, hrun, -, hp, hothers⟩ := filterMap_eq_append_cons hfirst
  have hall : placed Location.first (pieces source.toList) = front ++ (p :: run ++ behind) := by
    rw [hsplit, ← List.append_assoc, ← hrun, List.append_assoc]
    rfl
  obtain ⟨frontPieces, rest, hpieces, rfl, hrest⟩ := placed_eq_append hall
  obtain ⟨middle, back, rfl, hmiddle, -⟩ := placed_eq_append hrest
  refine ⟨frontPieces, middle, back, by rw [hpieces, List.append_assoc], ?_, ?_⟩
  · rw [hmiddle, List.filterMap_cons_some hp, hothers]
  · have hends : (p :: run).getLast? = some q := by
      have hget := congrArg List.getLast? hrun
      rw [List.getLast?_concat, List.getLast?_append_cons] at hget
      exact hget.symm
    have hget : (t :: others).getLast? = some l := by rw [hl, List.getLast?_concat]
    obtain ⟨hstart, hstop⟩ := placed_ends (by rw [hmiddle, List.head?_cons]) (hmiddle ▸ hends)
    obtain ⟨-, -, htspan, -⟩ := token?_eq_some_iff.1 hp
    obtain ⟨-, -, hlspan, -⟩ := token?_eq_some_iff.1 hq
    rw [spanOf, hget, List.head?_cons]
    dsimp only
    rw [htspan, hlspan, hstart, hstop]
    simp only [Location.after_offset, Location.first, utf8Length_append, Span.mk.injEq]
    omega

/-- Neighbouring tokens of a source without lexical errors are the tokens of their own slice, put
behind what stands in front of it. -/
theorem tokens_of_cut {source : String} (hlexed : (tokenize source).errors = [])
    {tokens part : List Token} {final : Token} (h : (tokenize source).tokens = tokens ++ [final])
    (hpart : part <:+: tokens) (hne : part ≠ []) :
    ∃ before text after own last, SliceAt source.toList (spanOf .origin part) before text after ∧
      (tokenize (String.ofList text)).errors = [] ∧
      (tokenize (String.ofList text)).tokens = own ++ [last] ∧
      own.map (Token.relocate (.behind before)) = part := by
  obtain ⟨before, after, htokens⟩ := hpart
  obtain ⟨front, middle, back, hpieces, hmiddle, hspan⟩ := exists_cut h htokens.symm hne
  have hsuffix : middle ++ back <:+ pieces source.toList :=
    ⟨front, by rw [hpieces, List.append_assoc]⟩
  have hcut : pieces (String.ofList (middle.flatMap Piece.text)).toList = middle := by
    rw [String.toList_ofList]
    exact pieces_of_cut hlexed hsuffix
  refine ⟨front.flatMap Piece.text, middle.flatMap Piece.text, back.flatMap Piece.text, _, _,
    ⟨?_, ?_, ?_⟩, ?_, tokens_eq_pieces _, ?_⟩
  · rw [← pieces_flatten source.toList, hpieces, List.flatMap_append, List.flatMap_append,
      List.append_assoc]
  · rw [hspan]
  · rw [hspan]
  · rw [errors_eq_nil_iff, hcut]
    intro p hp
    exact errors_eq_nil_iff.1 hlexed p (hsuffix.subset (List.mem_append_left _ hp))
  · have hplaced := tokens_placed_behind (front.flatMap Piece.text) [] middle
    rw [List.append_nil, hmiddle] at hplaced
    rw [hcut]
    exact hplaced.symm

/-! ## A source in two parts -/

/-- The pieces of a source fall apart where its tokens do.  The first ones end with the last of the
first tokens, and there are none if there is no such token. -/
theorem exists_split {source : String} {first second : List Token} {final : Token}
    (h : (tokenize source).tokens = first ++ second ++ [final]) :
    ∃ front back, pieces source.toList = front ++ back ∧
      (placed Location.first front).filterMap PlacedPiece.token? = first ∧
      (placed (Location.first.after (front.flatMap Piece.text)) back).filterMap
        PlacedPiece.token? = second ∧
      utf8Length (front.flatMap Piece.text) = (first.getLast?.map (·.span.stop)).getD 0 := by
  rw [tokens_eq_pieces] at h
  obtain ⟨hplaced, -⟩ := List.append_inj' h rfl
  rcases List.eq_nil_or_concat first with rfl | ⟨init, l, rfl⟩
  · exact ⟨[], pieces source.toList, rfl, rfl, hplaced, rfl⟩
  · rw [List.concat_eq_append, List.append_assoc, List.singleton_append] at hplaced
    rw [List.concat_eq_append]
    obtain ⟨upTo, q, behind, hsplit, hupTo, hq, hbehind⟩ := filterMap_eq_append_cons hplaced
    have hall : placed Location.first (pieces source.toList) = (upTo ++ [q]) ++ behind := by
      rw [hsplit, List.append_assoc]
      rfl
    obtain ⟨front, back, hpieces, hfront, hback⟩ := placed_eq_append hall
    refine ⟨front, back, hpieces, ?_, by rw [hback, hbehind], ?_⟩
    · rw [hfront, List.filterMap_append, hupTo, List.filterMap_cons_some hq]
      rfl
    · obtain ⟨p, hp⟩ := Option.ne_none_iff_exists'.1
        (mt List.head?_eq_none_iff.1 (List.append_ne_nil_of_right_ne_nil upTo
          (List.cons_ne_nil q [])))
      obtain ⟨-, hstop⟩ := placed_ends (hfront ▸ hp) (hfront ▸ List.getLast?_concat)
      obtain ⟨-, -, hspan, -⟩ := token?_eq_some_iff.1 hq
      rw [List.getLast?_concat]
      simp [hspan, hstop, Location.first]

/-- Where the tokens of a source without lexical errors fall apart, the source does.  Each part has
its tokens by itself, those of the second one put behind the first. -/
theorem tokens_of_split {source : String} (hlexed : (tokenize source).errors = [])
    {first second : List Token} {final : Token}
    (h : (tokenize source).tokens = first ++ second ++ [final]) :
    ∃ front back : String, source = front ++ back ∧
      front.utf8ByteSize = (first.getLast?.map (·.span.stop)).getD 0 ∧
      (tokenize front).errors = [] ∧ (∃ last, (tokenize front).tokens = first ++ [last]) ∧
      (tokenize back).errors = [] ∧ ∃ own last, (tokenize back).tokens = own ++ [last] ∧
        own.map (Token.relocate (.behind front.toList)) = second ∧
        last.relocate (.behind front.toList) = final := by
  obtain ⟨front, back, hpieces, hfirst, hsecond, hsize⟩ := exists_split h
  have htext : source.toList = front.flatMap Piece.text ++ back.flatMap Piece.text := by
    rw [← pieces_flatten source.toList, hpieces, List.flatMap_append]
  have hall : ∀ p ∈ front ++ back, p.kind ≠ .bad := hpieces ▸ errors_eq_nil_iff.1 hlexed
  have hsuffix : front ++ back <:+ pieces source.toList := by rw [hpieces]
  have hsuffix' : back ++ [] <:+ pieces source.toList := by
    rw [List.append_nil, hpieces]
    exact List.suffix_append _ _
  have hfront : pieces (front.flatMap Piece.text) = front := pieces_of_cut hlexed hsuffix
  have hback : pieces (back.flatMap Piece.text) = back := pieces_of_cut hlexed hsuffix'
  refine ⟨String.ofList (front.flatMap Piece.text), String.ofList (back.flatMap Piece.text),
    ?_, ?_, ?_, ⟨.endOfFile (Location.first.after (front.flatMap Piece.text)), ?_⟩, ?_, _, _,
    tokens_eq_pieces _, ?_, ?_⟩
  · rw [← String.ofList_append, ← htext, String.ofList_toList]
  · rw [utf8Length_ofList, hsize]
  · rw [errors_eq_nil_iff, String.toList_ofList, hfront]
    exact fun p hp => hall p (List.mem_append_left _ hp)
  · rw [tokens_eq_pieces, String.toList_ofList, hfront, hfirst]
  · rw [errors_eq_nil_iff, String.toList_ofList, hback]
    exact fun p hp => hall p (List.mem_append_right _ hp)
  · have hplaced := tokens_placed_behind (front.flatMap Piece.text) [] back
    rw [List.append_nil, hsecond] at hplaced
    rw [String.toList_ofList, String.toList_ofList, hback]
    exact hplaced.symm
  · rw [String.toList_ofList, String.toList_ofList, ← endOfFile_behind, ← htext]
    rw [tokens_eq_pieces] at h
    exact List.singleton_inj.1 (List.append_inj' h rfl).2

end SyslModel
