import Mathlib.Computability.Language
import Mathlib.Data.List.TakeWhile
import SyslModel.Token.Kind
/-!
# The languages of the patterns

A pattern is also a regular expression.  `Pattern.language` gives the texts it describes, with
union, concatenation and repetition and without reading anything from left to right, and the two
main statements tie the reader to it:

* `Pattern.longest_mem` — what `Pattern.longest` cuts off is a text of the language;
* `Pattern.exists_longest` — if any text of the language stands at the front of a source, the reader
  cuts one off, and one that is at least as long.
-/

namespace SyslModel

open scoped Computability

/-! ## Building blocks -/

/-- The texts of a single character of a class. -/
def oneOf (p : Char → Bool) : Language Char := {text | ∃ c, p c = true ∧ text = [c]}

/-- One text of a language or several after one another. -/
def oneOrMore (l : Language Char) : Language Char := l * l∗

theorem mem_literal {text other : List Char} : other ∈ ({text} : Language Char) ↔ other = text :=
  Iff.rfl

/-- A repetition is empty, or it is one text followed by a repetition. -/
theorem mem_star_iff {l : Language Char} {text : List Char} :
    text ∈ l∗ ↔ text = [] ∨ text ∈ l * l∗ := by
  conv_lhs => rw [← Language.one_add_self_mul_kstar_eq_kstar, Language.mem_add, Language.mem_one]

theorem append_mem_star {l : Language Char} {first rest : List Char} (hf : first ∈ l)
    (hr : rest ∈ l∗) : first ++ rest ∈ l∗ :=
  mem_star_iff.2 (.inr (Language.append_mem_mul hf hr))

/-- What holds of the empty text and is kept by one more text in front holds of a repetition. -/
theorem star_induction {l : Language Char} {motive : List Char → Prop} (nil : motive [])
    (append : ∀ first ∈ l, ∀ rest ∈ l∗, motive rest → motive (first ++ rest)) :
    ∀ text ∈ l∗, motive text := by
  intro text h
  obtain ⟨texts, rfl, ht⟩ := Language.mem_kstar.1 h
  clear h
  induction texts with
  | nil => exact nil
  | cons first texts ih =>
    have hrest : ∀ y ∈ texts, y ∈ l := fun y hy => ht y (List.mem_cons_of_mem _ hy)
    rw [List.flatten_cons]
    exact append first (ht first List.mem_cons_self) _ (Language.join_mem_kstar hrest) (ih hrest)

/-- A repetition of single characters is any text of such characters. -/
theorem mem_oneOf_star {p : Char → Bool} {text : List Char} :
    text ∈ (oneOf p)∗ ↔ ∀ c ∈ text, p c = true := by
  constructor
  · refine star_induction (motive := fun text => ∀ c ∈ text, p c = true) (by simp) ?_ text
    rintro _ ⟨c, hc, rfl⟩ rest _ ih x hx
    rcases List.mem_cons.1 hx with rfl | hx
    · exact hc
    · exact ih x hx
  · intro h
    induction text with
    | nil => exact Language.nil_mem_kstar _
    | cons c rest ih =>
      have hrest : rest ∈ (oneOf p)∗ := ih fun x hx => h x (List.mem_cons_of_mem _ hx)
      have hone : [c] ∈ oneOf p := ⟨c, h c List.mem_cons_self, rfl⟩
      exact append_mem_star hone hrest

/-- A character of a class followed by a text of a language. -/
theorem mem_oneOf_mul {p : Char → Bool} {l : Language Char} {text : List Char} :
    text ∈ oneOf p * l ↔ ∃ c rest, text = c :: rest ∧ p c = true ∧ rest ∈ l := by
  rw [Language.mem_mul]
  constructor
  · rintro ⟨_, ⟨c, hc, rfl⟩, rest, hr, rfl⟩
    exact ⟨c, rest, rfl, hc, hr⟩
  · rintro ⟨c, rest, rfl, hc, hr⟩
    exact ⟨[c], ⟨c, hc, rfl⟩, rest, hr, rfl⟩

theorem cons_mem_oneOf_mul {p : Char → Bool} {l : Language Char} {c : Char} {rest : List Char} :
    c :: rest ∈ oneOf p * l ↔ p c = true ∧ rest ∈ l := by
  rw [mem_oneOf_mul]
  constructor
  · rintro ⟨_, _, heq, hc, hr⟩
    obtain ⟨rfl, rfl⟩ := List.cons.inj heq
    exact ⟨hc, hr⟩
  · rintro ⟨hc, hr⟩
    exact ⟨c, rest, rfl, hc, hr⟩

/-- A fixed text followed by a text of a language. -/
theorem mem_literal_mul {front : List Char} {l : Language Char} {text : List Char} :
    text ∈ ({front} : Language Char) * l ↔ ∃ rest ∈ l, text = front ++ rest := by
  rw [Language.mem_mul]
  constructor
  · rintro ⟨_, rfl, rest, hr, rfl⟩
    exact ⟨rest, hr, rfl⟩
  · rintro ⟨rest, hr, rfl⟩
    exact ⟨front, rfl, rest, hr, rfl⟩

theorem mem_oneOrMore_oneOf {p : Char → Bool} {text : List Char} :
    text ∈ oneOrMore (oneOf p) ↔ text ≠ [] ∧ ∀ c ∈ text, p c = true := by
  rw [oneOrMore, mem_oneOf_mul]
  constructor
  · rintro ⟨c, rest, rfl, hc, hr⟩
    rw [mem_oneOf_star] at hr
    exact ⟨by simp, by simpa [hc] using hr⟩
  · rintro ⟨hne, h⟩
    obtain ⟨c, rest, rfl⟩ := List.exists_cons_of_ne_nil hne
    exact ⟨c, rest, rfl, h c (by simp), mem_oneOf_star.2 fun x hx => h x (by simp [hx])⟩

/-! ## The language of each pattern -/

/-- The characters that stand for themselves in a quoted text. -/
def isPlain (c : Char) : Bool := c ≠ '"' && c ≠ '\\' && c ≠ '\n'

/-- The characters that do not end a line. -/
def isInLine (c : Char) : Bool := c ≠ '\n'

namespace Pattern

/-- A dot, the start of a word and the rest of the word. -/
def dotGroup (start next : Char → Bool) : Language Char :=
  {['.']} * (oneOf start * (oneOf next)∗)

/-- A character of a quoted text: a plain one, or any one of the line behind a backslash. -/
def quotedItem : Language Char := oneOf isPlain + {['\\']} * oneOf isInLine

/-- The texts that a pattern describes. -/
def language : Pattern → Language Char
  | .fixed text => {text}
  | .word first next => oneOf first * (oneOf next)∗
  | .dotted first start next => oneOf first * ((oneOf next)∗ * oneOrMore (dotGroup start next))
  | .quoted => {['"']} * (quotedItem∗ * {['"']})
  | .integer => (1 + {['-']}) * oneOrMore (oneOf Char.isDigit)

end Pattern

/-- Runs of white space. -/
def whiteSpace : Language Char := oneOrMore (oneOf isBlank)

/-- Comments, from their number sign up to the end of the line. -/
def comment : Language Char := {['#']} * (oneOf isInLine)∗

namespace Pattern

/-- A dot is no character of a word between dots. -/
def Proper : Pattern → Prop
  | .dotted _ _ next => next '.' = false
  | _ => True

/-! ## Dotted names -/

section Dotted

variable {start next : Char → Bool}

theorem nextRun_append {text rest : List Char} (ht : text ∈ (oneOf next)∗)
    (hr : rest ∈ (oneOf next)∗) : text ++ rest ∈ (oneOf next)∗ := by
  rw [mem_oneOf_star] at *
  intro c hc
  rcases List.mem_append.1 hc with hc | hc
  · exact ht c hc
  · exact hr c hc

/-- The tail that is read is a run of word characters with groups behind it. -/
theorem dottedTail_mem (source : List Char) :
    dottedTail start next source ∈ (oneOf next)∗ * (dotGroup start next)∗ := by
  have hnil : ([] : List Char) ∈ (oneOf next)∗ * (dotGroup start next)∗ :=
    Language.append_mem_mul (Language.nil_mem_kstar _) (Language.nil_mem_kstar _)
  fun_induction dottedTail start next source with
  | case1 c text h ih =>
    obtain ⟨run, hrun, groups, hgroups, heq⟩ := Language.mem_mul.1 ih
    have hgroup : '.' :: c :: run ∈ dotGroup start next :=
      mem_literal_mul.2 ⟨c :: run, mem_oneOf_mul.2 ⟨c, run, rfl, h, hrun⟩, rfl⟩
    rw [← heq]
    exact Language.append_mem_mul (Language.nil_mem_kstar _) (append_mem_star hgroup hgroups)
  | case2 => exact hnil
  | case3 c text _ h ih =>
    obtain ⟨run, hrun, groups, hgroups, heq⟩ := Language.mem_mul.1 ih
    have hone : [c] ∈ (oneOf next)∗ := by simpa [mem_oneOf_star] using h
    rw [← heq]
    exact Language.append_mem_mul (nextRun_append hone hrun) hgroups
  | case4 => exact hnil
  | case5 => exact hnil

/-- A tail with a dot in it has at least one group. -/
theorem dottedTail_mem_of_dot (hdot : next '.' = false) {tail : List Char} (h : '.' ∈ tail)
    (ht : tail ∈ (oneOf next)∗ * (dotGroup start next)∗) :
    tail ∈ (oneOf next)∗ * oneOrMore (dotGroup start next) := by
  obtain ⟨run, hrun, groups, hgroups, rfl⟩ := Language.mem_mul.1 ht
  refine Language.append_mem_mul hrun ?_
  rcases mem_star_iff.1 hgroups with rfl | hgroups
  · have : next '.' = true := mem_oneOf_star.1 hrun '.' (by simpa using h)
    simp [hdot] at this
  · exact hgroups

/-- A group holds a dot. -/
theorem dot_mem_of_oneOrMore {text : List Char} (h : text ∈ oneOrMore (dotGroup start next)) :
    '.' ∈ text := by
  obtain ⟨first, hfirst, rest, _, rfl⟩ := Language.mem_mul.1 h
  obtain ⟨word, _, rfl⟩ := mem_literal_mul.1 hfirst
  simp

/-- Reading passes over a run of word characters. -/
theorem dottedTail_run_append (hdot : next '.' = false) {run : List Char}
    (hrun : ∀ c ∈ run, next c = true) (source : List Char) :
    dottedTail start next (run ++ source) = run ++ dottedTail start next source := by
  induction run with
  | nil => rfl
  | cons c run ih =>
    have hc : next c = true := hrun c (by simp)
    have hne : c ≠ '.' := by rintro rfl; simp [hdot] at hc
    rw [List.cons_append, dottedTail, if_pos hc, ih fun x hx => hrun x (by simp [hx])]
    · rfl
    · intro c' text h _
      exact hne h

/-- Reading passes over the groups in front of a source. -/
theorem dottedTail_groups_append (hdot : next '.' = false) (source : List Char) :
    ∀ groups ∈ (dotGroup start next)∗,
      dottedTail start next (groups ++ source) = groups ++ dottedTail start next source := by
  refine star_induction rfl ?_
  intro group hgroup rest _ ih
  obtain ⟨word, hword, rfl⟩ := mem_literal_mul.1 hgroup
  obtain ⟨c, run, rfl, hc, hrun⟩ := mem_oneOf_mul.1 hword
  have hstep : dottedTail start next ('.' :: c :: (run ++ (rest ++ source)))
      = '.' :: c :: dottedTail start next (run ++ (rest ++ source)) := by
    rw [dottedTail, if_pos hc]
  simpa [dottedTail_run_append hdot (mem_oneOf_star.1 hrun), ih] using hstep

/-- No tail of the language goes further than the one that is read. -/
theorem prefix_dottedTail (hdot : next '.' = false) {tail source : List Char}
    (ht : tail ∈ (oneOf next)∗ * (dotGroup start next)∗) (h : tail <+: source) :
    tail <+: dottedTail start next source := by
  obtain ⟨rest, rfl⟩ := h
  obtain ⟨run, hrun, groups, hgroups, rfl⟩ := Language.mem_mul.1 ht
  rw [List.append_assoc, dottedTail_run_append hdot (mem_oneOf_star.1 hrun),
    dottedTail_groups_append hdot _ _ hgroups, ← List.append_assoc]
  exact List.prefix_append _ _

end Dotted

/-! ## Quoted texts -/

theorem quotedTail_mem {source text : List Char} (h : quotedTail source = some text) :
    text ∈ quotedItem∗ * {['"']} := by
  fun_induction quotedTail source generalizing text with
  | case1 rest =>
    obtain rfl := Option.some.inj h
    exact Language.append_mem_mul (Language.nil_mem_kstar _) rfl
  | case2 => simp at h
  | case3 c rest hc ih =>
    obtain ⟨u, hu, rfl⟩ := Option.map_eq_some_iff.1 h
    obtain ⟨items, hitems, _, rfl, rfl⟩ := Language.mem_mul.1 (ih hu)
    have hitem : ['\\', c] ∈ quotedItem :=
      .inr (mem_literal_mul.2 ⟨[c], ⟨c, by simpa [isInLine] using hc, rfl⟩, rfl⟩)
    exact Language.append_mem_mul (append_mem_star hitem hitems) rfl
  | case4 => simp at h
  | case5 c rest hquote hback hc ih =>
    obtain ⟨u, hu, rfl⟩ := Option.map_eq_some_iff.1 h
    have hne : c ≠ '\\' := by
      rintro rfl
      cases rest with
      | nil => simp [quotedTail] at hu
      | cons d rest => exact hback d rest rfl rfl
    obtain ⟨items, hitems, _, rfl, rfl⟩ := Language.mem_mul.1 (ih hu)
    have hitem : [c] ∈ quotedItem := .inl ⟨c, by simpa [isPlain, hne, hc] using hquote, rfl⟩
    exact Language.append_mem_mul (append_mem_star hitem hitems) rfl
  | case6 => simp at h

/-- A quoted text ends at its first free quote, so what stands behind it does not matter. -/
theorem quotedTail_append {text : List Char} (h : text ∈ quotedItem∗ * {['"']})
    (rest : List Char) : quotedTail (text ++ rest) = some text := by
  obtain ⟨items, hitems, _, rfl, rfl⟩ := Language.mem_mul.1 h
  clear h
  revert items
  refine star_induction (by simp [quotedTail]) ?_
  rintro item (⟨c, hc, rfl⟩ | hitem) others _ ih
  · simp only [isPlain, Bool.and_eq_true, decide_eq_true_eq] at hc
    simp only [List.cons_append, List.nil_append, List.append_assoc] at ih ⊢
    rw [quotedTail, if_neg hc.2, ih]
    · rfl
    · exact hc.1.1
    · exact fun d text h _ => hc.1.2 h
  · obtain ⟨_, ⟨c, hc, rfl⟩, rfl⟩ := mem_literal_mul.1 hitem
    have hc : c ≠ '\n' := by simpa [isInLine] using hc
    simp only [List.cons_append, List.nil_append, List.append_assoc] at ih ⊢
    rw [quotedTail, if_neg hc, ih]
    rfl

/-! ## Integers -/

theorem digits_mem {source text : List Char} (h : digits source = some text) :
    text ∈ oneOrMore (oneOf Char.isDigit) := by
  unfold digits at h
  split at h
  · simp at h
  · next hne =>
    obtain rfl := Option.some.inj h
    exact mem_oneOrMore_oneOf.2
      ⟨by simpa using hne, fun c hc => List.mem_takeWhile_imp hc⟩

/-- A run at the front of a source is part of the longest run there. -/
theorem prefix_takeWhile {p : Char → Bool} {run source : List Char} (hp : ∀ c ∈ run, p c = true)
    (h : run <+: source) : run <+: source.takeWhile p := by
  obtain ⟨rest, rfl⟩ := h
  rw [List.takeWhile_append_of_pos hp]
  exact List.prefix_append _ _

theorem exists_digits {source text : List Char} (ht : text ∈ oneOrMore (oneOf Char.isDigit))
    (h : text <+: source) : ∃ run, digits source = some run ∧ text.length ≤ run.length := by
  obtain ⟨hne, hdigits⟩ := mem_oneOrMore_oneOf.1 ht
  have hprefix := prefix_takeWhile hdigits h
  have hrun : source.takeWhile Char.isDigit ≠ [] := by
    intro hnil
    rw [hnil] at hprefix
    exact hne (List.prefix_nil.1 hprefix)
  exact ⟨_, if_neg (by simpa using hrun), hprefix.length_le⟩

/-! ## The reader and the language -/

/-- What is cut off is a text of the language. -/
theorem longest_mem {p : Pattern} {source text : List Char} (hp : p.Proper)
    (h : p.longest source = some text) : text ∈ p.language := by
  unfold longest at h
  split at h
  · split at h
    · exact (Option.some.inj h).symm
    · simp at h
  · next first next c rest =>
    split at h
    · next hc =>
      obtain rfl := Option.some.inj h
      exact mem_oneOf_mul.2
        ⟨c, _, rfl, hc, mem_oneOf_star.2 fun x hx => List.mem_takeWhile_imp hx⟩
    · simp at h
  · next first start next c rest =>
    simp only at h
    split at h
    · next hc =>
      obtain rfl := Option.some.inj h
      have hdot : '.' ∈ dottedTail start next rest := by simpa using hc.2
      exact mem_oneOf_mul.2
        ⟨c, _, rfl, hc.1, dottedTail_mem_of_dot hp hdot (dottedTail_mem rest)⟩
    · simp at h
  · obtain ⟨tail, htail, rfl⟩ := Option.map_eq_some_iff.1 h
    exact mem_literal_mul.2 ⟨tail, quotedTail_mem htail, rfl⟩
  · obtain ⟨run, hrun, rfl⟩ := Option.map_eq_some_iff.1 h
    exact Language.append_mem_mul (a := ['-']) (.inr rfl) (digits_mem hrun)
  · exact Language.append_mem_mul (a := []) (.inl rfl) (digits_mem h)
  · simp at h

/-- If a text of the language stands at the front of a source, one is cut off that is as long. -/
theorem exists_longest {p : Pattern} {source text : List Char} (hp : p.Proper)
    (ht : text ∈ p.language) (h : text <+: source) :
    ∃ longer, p.longest source = some longer ∧ text.length ≤ longer.length := by
  cases p with
  | fixed fixedText =>
    obtain rfl := mem_literal.1 ht
    exact ⟨text, if_pos (List.isPrefixOf_iff_prefix.2 h), le_rfl⟩
  | word first next =>
    obtain ⟨c, run, rfl, hc, hrun⟩ := mem_oneOf_mul.1 ht
    obtain ⟨rest, rfl⟩ := h
    have hprefix := prefix_takeWhile (mem_oneOf_star.1 hrun) (List.prefix_append run rest)
    exact ⟨_, if_pos hc, by simpa using hprefix.length_le⟩
  | dotted first start next =>
    obtain ⟨c, tail, rfl, hc, htail⟩ := mem_oneOf_mul.1 ht
    obtain ⟨rest, rfl⟩ := h
    obtain ⟨run, hrun, groups, hgroups, htail'⟩ := Language.mem_mul.1 htail
    have hprefix := prefix_dottedTail hp
      (htail' ▸ Language.append_mem_mul hrun (mem_star_iff.2 (.inr hgroups)))
      (List.prefix_append tail rest)
    have hdot : '.' ∈ tail := htail' ▸ List.mem_append_right _ (dot_mem_of_oneOrMore hgroups)
    have hread : (dottedTail start next (tail ++ rest)).contains '.' = true := by
      simpa using hprefix.subset hdot
    exact ⟨_, if_pos ⟨hc, hread⟩, by simpa using hprefix.length_le⟩
  | quoted =>
    obtain ⟨tail, htail, rfl⟩ := mem_literal_mul.1 ht
    obtain ⟨rest, rfl⟩ := h
    exact ⟨'"' :: tail, by simp [longest, quotedTail_append htail rest], by simp⟩
  | integer =>
    obtain ⟨sign, hsign, digits, hdigits, rfl⟩ := Language.mem_mul.1 ht
    obtain ⟨rest, rfl⟩ := h
    rcases hsign with rfl | rfl
    · obtain ⟨run, hrun, hle⟩ := exists_digits hdigits (List.prefix_append digits rest)
      refine ⟨run, ?_, hle⟩
      -- A digit is no minus sign, so the reader takes its last branch.
      obtain ⟨hne, hall⟩ := mem_oneOrMore_oneOf.1 hdigits
      obtain ⟨d, ds, rfl⟩ := List.exists_cons_of_ne_nil hne
      have hd : d ≠ '-' := by
        rintro rfl
        simpa using hall '-' (by simp)
      rw [List.nil_append, List.cons_append, longest]
      · exact hrun
      · intro tail heq
        exact hd (List.cons.inj heq).1
    · obtain ⟨run, hrun, hle⟩ := exists_digits hdigits (List.prefix_append digits rest)
      exact ⟨'-' :: run, by simp [longest, hrun], by simpa using hle⟩

end Pattern

theorem TokenKind.pattern_proper (kind : TokenKind) : kind.pattern.Proper := by
  cases kind <;> trivial

end SyslModel
