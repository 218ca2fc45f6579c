import Mathlib.Data.List.Basic
import SyslModel.Source
/-!
# Slices and bytes

The text of a span, told by what stands before and after it, and the bytes that a text is made of.
-/

namespace SyslModel

/-!
## Slices of a source

A span cuts a source into what stands before it, its text and what stands after it.  Both ends are
then between two characters.  `SliceAt` names the three parts; one span has one slice only
(`IsSlice.unique`).
-/

/-- The span of a source falls on a text, with `before` in front of it and `after` behind. -/
structure SliceAt (source : List Char) (span : Span) (before text after : List Char) : Prop where
  /-- The three parts are the source. -/
  split : source = before ++ (text ++ after)
  /-- The span starts behind the first part. -/
  start_eq : span.start = utf8Length before
  /-- The span ends behind the text. -/
  stop_eq : span.stop = utf8Length (before ++ text)

/-- The span of a source falls on a text. -/
def IsSlice (source : List Char) (span : Span) (text : List Char) : Prop :=
  ∃ before after, SliceAt source span before text after

namespace Span

/-- Does a span reach over all of another one? -/
def holds (outer inner : Span) : Bool := outer.start ≤ inner.start && inner.stop ≤ outer.stop

/-- The bytes of a character that has a text in front of it. -/
def ofChar (before : List Char) (c : Char) : Span :=
  ⟨utf8Length before, utf8Length before + c.utf8Size⟩

theorem holds_iff {outer inner : Span} :
    outer.holds inner = true ↔ outer.start ≤ inner.start ∧ inner.stop ≤ outer.stop := by
  simp [holds]

end Span

theorem utf8Length_ofList (text : List Char) :
    (String.ofList text).utf8ByteSize = utf8Length text := by
  induction text with
  | nil => rfl
  | cons c text ih =>
    rw [String.ofList_cons, String.utf8ByteSize_append, ih, utf8Length_cons]
    simp

/-- Counting the bytes of the characters gives the size of the string. -/
theorem utf8Length_toList (source : String) : utf8Length source.toList = source.utf8ByteSize := by
  rw [← utf8Length_ofList, String.ofList_toList]

theorem utf8Length_pos {text : List Char} (h : text ≠ []) : 0 < utf8Length text := by
  obtain ⟨c, rest, rfl⟩ := List.exists_cons_of_ne_nil h
  have := Char.utf8Size_pos c
  rw [utf8Length_cons]
  omega

/-- The front of a source is known by its number of bytes. -/
theorem append_inj_of_utf8Length {first second rest rest' : List Char}
    (h : first ++ rest = second ++ rest') (hl : utf8Length first = utf8Length second) :
    first = second ∧ rest = rest' := by
  induction first generalizing second with
  | nil =>
    cases second with
    | nil => exact ⟨rfl, h⟩
    | cons c second =>
      have := utf8Length_pos (List.cons_ne_nil c second)
      rw [utf8Length_nil] at hl
      omega
  | cons c first ih =>
    cases second with
    | nil =>
      have := utf8Length_pos (List.cons_ne_nil c first)
      rw [utf8Length_nil] at hl
      omega
    | cons d second =>
      obtain ⟨rfl, htail⟩ := List.cons.inj h
      rw [utf8Length_cons, utf8Length_cons] at hl
      obtain ⟨rfl, hrest⟩ := ih htail (by omega)
      exact ⟨rfl, hrest⟩

/-- A span has one slice only. -/
theorem IsSlice.unique {source : List Char} {span : Span} {text other : List Char}
    (h : IsSlice source span text) (ho : IsSlice source span other) : text = other := by
  obtain ⟨before, after, hs⟩ := h
  obtain ⟨before', after', hs'⟩ := ho
  obtain ⟨rfl, hrest⟩ := append_inj_of_utf8Length (hs.split.symm.trans hs'.split)
    (hs.start_eq.symm.trans hs'.start_eq)
  have hlen := hs.stop_eq.symm.trans hs'.stop_eq
  rw [utf8Length_append, utf8Length_append] at hlen
  exact (append_inj_of_utf8Length hrest (by omega)).1

/-!
## The bytes of a text

`utf8Bytes` puts the bytes of the characters of a text behind one another, which gives the bytes of
the string.  A line feed is one byte, and no other character has a byte that looks like it, so the
line feeds of a text may be counted byte by byte (`count_utf8Bytes`).
-/

/-- The bytes of a text. -/
def utf8Bytes (text : List Char) : List UInt8 := text.flatMap String.utf8EncodeChar

theorem utf8Bytes_append (first second : List Char) :
    utf8Bytes (first ++ second) = utf8Bytes first ++ utf8Bytes second := List.flatMap_append

theorem toByteArray_eq (source : String) :
    source.toByteArray.data.toList = utf8Bytes source.toList := by
  have hbytes : (String.ofList source.toList).toByteArray.data.toList =
      utf8Bytes source.toList := by
    rw [String.toByteArray_ofList]
    exact List.toList_data_toByteArray
  rwa [String.ofList_toList] at hbytes

theorem length_utf8Bytes (text : List Char) : (utf8Bytes text).length = utf8Length text := by
  induction text with
  | nil => rfl
  | cons c text ih =>
    rw [utf8Length_cons, ← ih, ← String.length_utf8EncodeChar]
    exact List.length_append

/-! ### Line feeds -/

/-- The byte of a line feed. -/
def newlineByte : UInt8 := 10

/-- No other character has the byte of a line feed. -/
theorem newlineByte_notMem {c : Char} (hc : c ≠ '\n') :
    newlineByte ∉ String.utf8EncodeChar c := by
  intro hmem
  have hval : c.val.toNat ≠ 10 := fun h => hc (Char.ext (UInt32.toNat_inj.1 h))
  have hbyte {n : Nat} (hlt : n < 256) (h : newlineByte = UInt8.ofNat n) : n = 10 := by
    have hnat : 10 = n % 256 := congrArg UInt8.toNat h
    omega
  unfold String.utf8EncodeChar at hmem
  dsimp only at hmem
  split at hmem
  · exact hval (hbyte (by omega) (List.mem_singleton.1 hmem))
  -- All bytes of a longer character are large.
  · split at hmem
    · simp only [List.mem_cons, List.not_mem_nil, or_false] at hmem
      rcases hmem with h | h <;> have := hbyte (by omega) h <;> omega
    · split at hmem
      · simp only [List.mem_cons, List.not_mem_nil, or_false] at hmem
        rcases hmem with h | h | h <;> have := hbyte (by omega) h <;> omega
      · simp only [List.mem_cons, List.not_mem_nil, or_false] at hmem
        rcases hmem with h | h | h | h <;> have := hbyte (by omega) h <;> omega

/-- A text has as many bytes of line feeds as line feeds. -/
theorem count_utf8Bytes (text : List Char) :
    (utf8Bytes text).count newlineByte = text.count '\n' := by
  induction text with
  | nil => rfl
  | cons c text ih =>
    have hbytes : utf8Bytes (c :: text) = String.utf8EncodeChar c ++ utf8Bytes text := rfl
    rw [hbytes, List.count_append, ih]
    by_cases hc : c = '\n'
    · subst hc
      rw [List.count_cons_self, Nat.add_comm]
      rfl
    · rw [List.count_eq_zero.2 (newlineByte_notMem hc), List.count_cons_of_ne hc, Nat.zero_add]

theorem take_utf8Bytes (before rest : List Char) :
    (utf8Bytes (before ++ rest)).take (utf8Length before) = utf8Bytes before := by
  rw [utf8Bytes_append, List.take_left' (length_utf8Bytes before)]

/-- The first bytes of a character add no line feed. -/
theorem count_take_utf8Bytes {before rest : List Char} {c : Char} (hc : c ≠ '\n') {bytes : Nat}
    (h : bytes ≤ c.utf8Size) :
    ((utf8Bytes (before ++ c :: rest)).take (utf8Length before + bytes)).count newlineByte =
      before.count '\n' := by
  have hbytes : utf8Bytes (before ++ c :: rest) =
      utf8Bytes before ++ (String.utf8EncodeChar c ++ utf8Bytes rest) := utf8Bytes_append _ _
  have hpart : newlineByte ∉ (String.utf8EncodeChar c ++ utf8Bytes rest).take bytes := by
    rw [List.take_append_of_le_length (by rwa [String.length_utf8EncodeChar])]
    exact fun hmem => newlineByte_notMem hc (List.mem_of_mem_take hmem)
  rw [hbytes, ← length_utf8Bytes, List.take_length_add_append, List.count_append, count_utf8Bytes,
    List.count_eq_zero.2 hpart, Nat.add_zero]

end SyslModel
