import SyslModel.Proofs.Json.Record
import SyslModel.Tree.OfJson
/-!
# The small parts of trees are given back

Numbers, texts, spans, references, attributes and enumerations.  All their decoders are lawful, and
each value is given back within a small budget if its numbers fit and no name stands twice in it.
-/

namespace SyslModel

open Json

variable {depth : Nat}

/-! ## Numbers and texts -/

theorem unsigned64?_eq_some_iff {value : Value} {n : Nat} :
    value.unsigned64? = some n ↔ value = .integer n ∧ Decimal.isUnsigned64 n = true := by
  cases value with
  | integer k =>
    rw [Value.unsigned64?, Value.integer.injEq]
    constructor
    · intro h
      split at h
      · next hk =>
        obtain rfl := Option.some.inj h
        have hpos : 0 ≤ k := by
          simp only [Decimal.isUnsigned64, Bool.and_eq_true, decide_eq_true_eq] at hk
          exact hk.1
        rw [Int.toNat_of_nonneg hpos]
        exact ⟨rfl, hk⟩
      · cases h
    · rintro ⟨rfl, hk⟩
      rw [if_pos hk, Int.toNat_natCast]
  | _ => simp [Value.unsigned64?]

theorem signed64?_eq_some_iff {value : Value} {n : Int} :
    value.signed64? = some n ↔ value = .integer n ∧ Decimal.isSigned64 n = true := by
  cases value with
  | integer k =>
    rw [Value.signed64?, Value.integer.injEq, Option.ite_none_right_eq_some, Option.some.injEq]
    constructor
    · rintro ⟨hk, rfl⟩
      exact ⟨rfl, hk⟩
    · rintro ⟨rfl, hk⟩
      exact ⟨hk, rfl⟩
  | _ => simp [Value.signed64?]

theorem string?_eq_some_iff {value : Value} {text : String} :
    value.string? = some text ↔ value = .string text := by
  cases value <;> simp [Value.string?, Value.string]

theorem bool?_eq_some_iff {value : Value} {b : Bool} :
    value.bool? = some b ↔ value = .bool b := by
  cases value <;> simp [Value.bool?]

/-- What a scalar is decoded from is what it is encoded as. -/
theorem lawful_scalar {α : Type} {decode : Value → Option α} {encode : α → Value}
    (h : ∀ {value x}, decode value = some x → value = encode x) (depth : Nat) :
    Lawful (fun _ => decode) encode depth where
  stable := by
    intro value x hx
    obtain rfl := h hx
    exact hx
  widens := id

theorem unsigned64_lawful : ∀ depth,
    Lawful (fun _ => Value.unsigned64?) (fun n : Nat => .integer n) depth :=
  lawful_scalar fun h => (unsigned64?_eq_some_iff.1 h).1

theorem signed64_lawful : ∀ depth, Lawful (fun _ => Value.signed64?) Value.integer depth :=
  lawful_scalar fun h => (signed64?_eq_some_iff.1 h).1

theorem string_lawful : ∀ depth, Lawful (fun _ => Value.string?) Value.string depth :=
  lawful_scalar string?_eq_some_iff.1

theorem bool_lawful : ∀ depth, Lawful (fun _ => Value.bool?) Value.bool depth :=
  lawful_scalar bool?_eq_some_iff.1

/-- A decoder that gives back everything, whatever the budget. -/
theorem lawful_of_restores {α : Type} {decode : Decoder α} {encode : α → Value}
    (h : ∀ depth x, Restores decode encode depth x) (depth : Nat) : Lawful decode encode depth :=
  ⟨fun _ => h _ _, fun _ => h _ _⟩

theorem Primitive.restores (depth : Nat) (p : Primitive) :
    Restores Primitive.ofJson? Primitive.toJson depth p := by
  cases depth <;> cases p <;> rfl

theorem Method.restores (depth : Nat) (m : Method) :
    Restores Method.ofJson? Method.toJson depth m := by
  cases depth <;> cases m <;> rfl

/-- Texts in a list. -/
def textsToJson (texts : List String) : Value := .array (texts.map .string)

theorem texts_restores (texts : List String) :
    Restores (arrayOf fun _ => Value.string?) textsToJson (depth + 1) texts := by
  rw [Restores, textsToJson, arrayOf, List.mapM_map]
  induction texts with
  | nil => rfl
  | cons text texts ih => simp_all [Value.string, Value.string?]

theorem texts_lawful (depth : Nat) :
    Lawful (arrayOf fun _ => Value.string?) textsToJson depth := by
  cases depth with
  | zero => exact lawful_zero fun _ => rfl
  | succ depth => exact ⟨fun _ => texts_restores _, fun _ => texts_restores _⟩

/-! ## Spans, positions and references -/

theorem Span.isRecord : Record₂ ["start", "end"] (fun _ => Value.unsigned64?)
    (fun n : Nat => .integer n) (fun _ => Value.unsigned64?) (fun n : Nat => .integer n)
    Span.mk Span.start Span.stop Span.ofJson? Span.toJson where
  zero _ := rfl
  decodes _ _ := rfl
  encodes _ := rfl
  make_parts _ := rfl
  parts_make _ _ := ⟨rfl, rfl⟩

theorem Span.lawful (depth : Nat) : Lawful Span.ofJson? Span.toJson depth := by
  cases depth with
  | zero => exact lawful_zero Span.isRecord.zero
  | succ depth => exact Span.isRecord.lawful (unsigned64_lawful depth) (unsigned64_lawful depth)

/-- A span is given back if its ends fit. -/
theorem Span.restores {s : Span} (hstart : Decimal.isUnsigned64 s.start = true)
    (hstop : Decimal.isUnsigned64 s.stop = true) :
    Restores Span.ofJson? Span.toJson (depth + 1) s :=
  Span.isRecord.restores_iff.2 ⟨unsigned64?_eq_some_iff.2 ⟨rfl, hstart⟩,
    unsigned64?_eq_some_iff.2 ⟨rfl, hstop⟩⟩

theorem Position.isRecord : Record₂ ["line", "column"] (fun _ => Value.unsigned64?)
    (fun n : Nat => .integer n) (fun _ => Value.unsigned64?) (fun n : Nat => .integer n)
    Position.mk Position.line Position.column Position.ofJson? Position.toJson where
  zero _ := rfl
  decodes _ _ := rfl
  encodes _ := rfl
  make_parts _ := rfl
  parts_make _ _ := ⟨rfl, rfl⟩

theorem Position.lawful (depth : Nat) : Lawful Position.ofJson? Position.toJson depth := by
  cases depth with
  | zero => exact lawful_zero Position.isRecord.zero
  | succ depth => exact Position.isRecord.lawful (unsigned64_lawful depth) (unsigned64_lawful depth)

/-- A position is given back if its line and its column fit. -/
theorem Position.restores {p : Position} (hline : Decimal.isUnsigned64 p.line = true)
    (hcolumn : Decimal.isUnsigned64 p.column = true) :
    Restores Position.ofJson? Position.toJson (depth + 1) p :=
  Position.isRecord.restores_iff.2 ⟨unsigned64?_eq_some_iff.2 ⟨rfl, hline⟩,
    unsigned64?_eq_some_iff.2 ⟨rfl, hcolumn⟩⟩

theorem Reference.isRecord : Record₂ ["path", "span"] (arrayOf fun _ => Value.string?) textsToJson
    Span.ofJson? Span.toJson Reference.mk Reference.path Reference.span Reference.ofJson?
    Reference.toJson where
  zero _ := rfl
  decodes _ _ := rfl
  encodes _ := rfl
  make_parts _ := rfl
  parts_make _ _ := ⟨rfl, rfl⟩

theorem Reference.lawful (depth : Nat) : Lawful Reference.ofJson? Reference.toJson depth := by
  cases depth with
  | zero => exact lawful_zero Reference.isRecord.zero
  | succ depth => exact Reference.isRecord.lawful (texts_lawful depth) (Span.lawful depth)

/-- A reference is given back exactly if its span is. -/
theorem Reference.restores_iff {r : Reference} :
    Restores Reference.ofJson? Reference.toJson (depth + 2) r ↔
      Restores Span.ofJson? Span.toJson (depth + 1) r.span := by
  rw [Reference.isRecord.restores_iff, and_iff_right (texts_restores r.path)]

/-! ## Attributes -/

theorem Attribute.restores (a : Attribute) :
    Restores Attribute.ofJson? Attribute.toJson (depth + 2) a := by
  cases a with
  | text value => rfl
  | flag negated => cases negated <;> rfl

theorem Attribute.lawful (depth : Nat) : Lawful Attribute.ofJson? Attribute.toJson depth := by
  match depth with
  | 0 => exact lawful_zero fun _ => rfl
  | depth + 2 => exact ⟨fun _ => Attribute.restores _, fun _ => Attribute.restores _⟩
  | 1 =>
    refine ⟨?_, fun _ => Attribute.restores _⟩
    intro value a h
    simp only [Attribute.ofJson?, Option.bind_eq_bind, Option.bind_eq_some_iff] at h
    obtain ⟨variant, -, h⟩ := h
    split at h
    · obtain ⟨text, -, rfl⟩ := Option.map_eq_some_iff.1 h
      rfl
    · cases h
    · cases h

/-- Attributes are given back if no name stands twice among them. -/
theorem Attributes.restores {P : String → Attribute → Prop} {attrs : Attributes}
    (h : attrs.Each P) : Restores Attributes.ofJson? Attributes.toJson (depth + 3) attrs :=
  restores_mapOf_iff.2 ⟨h.nodup, fun e _ => Attribute.restores e.2⟩

theorem Attributes.lawful : ∀ depth, Lawful Attributes.ofJson? Attributes.toJson depth :=
  lawful_mapOf Attribute.lawful

/-! ## Enumerations -/

theorem integers_lawful : ∀ depth,
    Lawful integersOfJson? (NameMap.toJson Value.integer) depth :=
  lawful_mapOf signed64_lawful

/-- Integers are given back if they fit and no name stands twice. -/
theorem integers_restores {items : NameMap Int}
    (h : items.Each fun _ n => Decimal.isSigned64 n = true) :
    Restores integersOfJson? (NameMap.toJson Value.integer) (depth + 1) items :=
  restores_mapOf_iff.2 ⟨h.nodup, fun e he => signed64?_eq_some_iff.2 ⟨rfl, h.entry e he⟩⟩

theorem enumeration_isRecord : Record₁ ["items"] integersOfJson? (NameMap.toJson Value.integer)
    enumerationOfJson? enumerationToJson where
  zero _ := rfl
  decodes _ _ := rfl
  encodes _ := rfl

theorem enumeration_lawful (depth : Nat) : Lawful enumerationOfJson? enumerationToJson depth := by
  cases depth with
  | zero => exact lawful_zero enumeration_isRecord.zero
  | succ depth => exact enumeration_isRecord.lawful (integers_lawful depth)

end SyslModel
