import SyslModel.Json
import SyslModel.Proofs.NameMap
import SyslModel.Tree.ToJson
/-!
# Records, lists and maps that are taken apart again

A decoder gives back what was encoded if it gives back the parts: `Restores` says this of one value.
A map is restored exactly if no name stands twice in it and all its values are restored
(`restores_mapOf_iff`), and a map that was decoded from any object has both properties
(`each_of_mapOf`).

`Lawful` is what is shown of every decoder, budget by budget: it gives back whatever it has once
given, and a larger budget changes nothing.
-/

namespace SyslModel.Json

variable {α : Type} {decode : Decoder α} {encode : α → Value} {depth : Nat}

/-- Decoding what a value is encoded as gives it back. -/
def Restores (decode : Decoder α) (encode : α → Value) (depth : Nat) (x : α) : Prop :=
  decode depth (encode x) = some x

/-- What a decoder does within a budget of nested arrays and objects. -/
structure Lawful (decode : Decoder α) (encode : α → Value) (depth : Nat) : Prop where
  /-- Whatever was decoded is restored. -/
  stable : ∀ {value : Value} {x : α}, decode depth value = some x → Restores decode encode depth x
  /-- What is restored is restored within a larger budget. -/
  widens : ∀ {x : α}, Restores decode encode depth x → Restores decode encode (depth + 1) x

/-- Nothing is decoded without a budget. -/
theorem lawful_zero (h : ∀ value, decode 0 value = none) : Lawful decode encode 0 where
  stable := by simp [h]
  widens := by simp [Restores, h]

theorem members?_record (members : List (String × Value)) :
    (Value.record members).members? = some members := by
  rw [Value.record, Value.members?, List.mapM_map]
  induction members with
  | nil => rfl
  | cons m members ih => simp_all

/-! ## Records

A decoder of records decodes the fields and puts the parts together.  So a record is given back
exactly if its parts are, and the decoder is lawful if those of the parts are.
-/

section Records

variable {β γ δ ε : Type} {names : List String} {value : Value}
  {A : Decoder α} {a : α → Value} {B : Decoder β} {b : β → Value}
  {C : Decoder γ} {c : γ → Value} {D : Decoder δ} {d : δ → Value} {encode : ε → Value}

/-- A record with one field, which is all there is to it. -/
structure Record₁ (names : List String) (A : Decoder α) (a : α → Value) (decode : Decoder α)
    (encode : α → Value) : Prop where
  /-- Nothing is decoded without a budget. -/
  zero : ∀ value, decode 0 value = none
  /-- The field is decoded. -/
  decodes : ∀ depth value, decode (depth + 1) value = do
    match ← value.fields? names with
    | [first] => A depth first
    | _ => none
  /-- The field is found. -/
  encodes : ∀ x, (encode x).fields? names = some [a x]

theorem Record₁.restores_iff {decode : Decoder α} {encode : α → Value}
    (h : Record₁ names A a decode encode) {x : α} :
    Restores decode encode (depth + 1) x ↔ Restores A a depth x := by
  rw [Restores, h.decodes, h.encodes]
  rfl

theorem Record₁.lawful {decode : Decoder α} {encode : α → Value}
    (h : Record₁ names A a decode encode) (hA : Lawful A a depth) :
    Lawful decode encode (depth + 1) where
  stable := by
    intro value x hx
    rw [h.decodes, Option.bind_eq_bind, Option.bind_eq_some_iff] at hx
    obtain ⟨fields, -, hx⟩ := hx
    split at hx
    · exact h.restores_iff.2 (hA.stable hx)
    · cases hx
  widens := by
    intro x hx
    rw [h.restores_iff] at hx ⊢
    exact hA.widens hx

/-- A record that is made of two fields. -/
structure Record₂ (names : List String) (A : Decoder α) (a : α → Value) (B : Decoder β)
    (b : β → Value) (make : α → β → ε) (first : ε → α) (second : ε → β) (decode : Decoder ε)
    (encode : ε → Value) : Prop where
  /-- Nothing is decoded without a budget. -/
  zero : ∀ value, decode 0 value = none
  /-- The fields are decoded and put together. -/
  decodes : ∀ depth value, decode (depth + 1) value = do
    match ← value.fields? names with
    | [first, second] => pure (make (← A depth first) (← B depth second))
    | _ => none
  /-- The fields are found. -/
  encodes : ∀ x, (encode x).fields? names = some [a (first x), b (second x)]
  /-- The record is made of its parts. -/
  make_parts : ∀ x, make (first x) (second x) = x
  /-- The parts are those that it was made of. -/
  parts_make : ∀ p q, first (make p q) = p ∧ second (make p q) = q

section Two

variable {make : α → β → ε} {first : ε → α} {second : ε → β} {decode : Decoder ε}

theorem Record₂.parts (h : Record₂ names A a B b make first second decode encode) {x : ε}
    (hx : decode (depth + 1) value = some x) : ∃ v w, value.fields? names = some [v, w] ∧
      A depth v = some (first x) ∧ B depth w = some (second x) := by
  rw [h.decodes, Option.bind_eq_bind, Option.bind_eq_some_iff] at hx
  obtain ⟨fields, hfields, hx⟩ := hx
  split at hx
  · simp only [Option.bind_eq_bind, Option.bind_eq_some_iff] at hx
    obtain ⟨p, hp, q, hq, hx⟩ := hx
    obtain rfl := Option.some.inj hx
    obtain ⟨hfirst, hsecond⟩ := h.parts_make p q
    exact ⟨_, _, hfields, by rw [hp, hfirst], by rw [hq, hsecond]⟩
  · cases hx

theorem Record₂.restores_iff (h : Record₂ names A a B b make first second decode encode) {x : ε} :
    Restores decode encode (depth + 1) x ↔
      Restores A a depth (first x) ∧ Restores B b depth (second x) := by
  constructor
  · intro hx
    obtain ⟨v, w, hfields, hp, hq⟩ := h.parts hx
    rw [h.encodes, Option.some.injEq, List.cons.injEq, List.cons.injEq] at hfields
    obtain ⟨rfl, rfl, -⟩ := hfields
    exact ⟨hp, hq⟩
  · rintro ⟨hp, hq⟩
    rw [Restores] at hp hq ⊢
    rw [h.decodes, h.encodes, Option.bind_eq_bind, Option.bind_some]
    simp only [hp, hq, Option.bind_eq_bind, Option.bind_some]
    exact congrArg some (h.make_parts x)

theorem Record₂.lawful (h : Record₂ names A a B b make first second decode encode)
    (hA : Lawful A a depth) (hB : Lawful B b depth) : Lawful decode encode (depth + 1) where
  stable := by
    intro value x hx
    obtain ⟨v, w, -, hp, hq⟩ := h.parts hx
    exact h.restores_iff.2 ⟨hA.stable hp, hB.stable hq⟩
  widens := by
    intro x hx
    rw [h.restores_iff] at hx ⊢
    exact ⟨hA.widens hx.1, hB.widens hx.2⟩

end Two

/-- A record that is made of four fields. -/
structure Record₄ (names : List String) (A : Decoder α) (a : α → Value) (B : Decoder β)
    (b : β → Value) (C : Decoder γ) (c : γ → Value) (D : Decoder δ) (d : δ → Value)
    (make : α → β → γ → δ → ε) (first : ε → α) (second : ε → β) (third : ε → γ) (fourth : ε → δ)
    (decode : Decoder ε) (encode : ε → Value) : Prop where
  /-- Nothing is decoded without a budget. -/
  zero : ∀ value, decode 0 value = none
  /-- The fields are decoded and put together. -/
  decodes : ∀ depth value, decode (depth + 1) value = do
    match ← value.fields? names with
    | [first, second, third, fourth] =>
      pure (make (← A depth first) (← B depth second) (← C depth third) (← D depth fourth))
    | _ => none
  /-- The fields are found. -/
  encodes : ∀ x, (encode x).fields? names =
    some [a (first x), b (second x), c (third x), d (fourth x)]
  /-- The record is made of its parts. -/
  make_parts : ∀ x, make (first x) (second x) (third x) (fourth x) = x
  /-- The parts are those that it was made of. -/
  parts_make : ∀ p q r s, first (make p q r s) = p ∧ second (make p q r s) = q ∧
    third (make p q r s) = r ∧ fourth (make p q r s) = s

section Four

variable {make : α → β → γ → δ → ε} {first : ε → α} {second : ε → β} {third : ε → γ}
  {fourth : ε → δ} {decode : Decoder ε}

theorem Record₄.parts
    (h : Record₄ names A a B b C c D d make first second third fourth decode encode) {x : ε}
    (hx : decode (depth + 1) value = some x) :
    ∃ v₁ v₂ v₃ v₄, value.fields? names = some [v₁, v₂, v₃, v₄] ∧
      A depth v₁ = some (first x) ∧ B depth v₂ = some (second x) ∧
      C depth v₃ = some (third x) ∧ D depth v₄ = some (fourth x) := by
  rw [h.decodes, Option.bind_eq_bind, Option.bind_eq_some_iff] at hx
  obtain ⟨fields, hfields, hx⟩ := hx
  split at hx
  · simp only [Option.bind_eq_bind, Option.bind_eq_some_iff] at hx
    obtain ⟨p, hp, q, hq, r, hr, s, hs, hx⟩ := hx
    obtain rfl := Option.some.inj hx
    obtain ⟨hfirst, hsecond, hthird, hfourth⟩ := h.parts_make p q r s
    exact ⟨_, _, _, _, hfields, by rw [hp, hfirst], by rw [hq, hsecond], by rw [hr, hthird],
      by rw [hs, hfourth]⟩
  · cases hx

theorem Record₄.restores_iff
    (h : Record₄ names A a B b C c D d make first second third fourth decode encode) {x : ε} :
    Restores decode encode (depth + 1) x ↔
      Restores A a depth (first x) ∧ Restores B b depth (second x) ∧
        Restores C c depth (third x) ∧ Restores D d depth (fourth x) := by
  constructor
  · intro hx
    obtain ⟨v₁, v₂, v₃, v₄, hfields, hp, hq, hr, hs⟩ := h.parts hx
    rw [h.encodes, Option.some.injEq] at hfields
    simp only [List.cons.injEq] at hfields
    obtain ⟨rfl, rfl, rfl, rfl, -⟩ := hfields
    exact ⟨hp, hq, hr, hs⟩
  · rintro ⟨hp, hq, hr, hs⟩
    rw [Restores] at hp hq hr hs ⊢
    rw [h.decodes, h.encodes, Option.bind_eq_bind, Option.bind_some]
    simp only [hp, hq, hr, hs, Option.bind_eq_bind, Option.bind_some]
    exact congrArg some (h.make_parts x)

theorem Record₄.lawful
    (h : Record₄ names A a B b C c D d make first second third fourth decode encode)
    (hA : Lawful A a depth) (hB : Lawful B b depth) (hC : Lawful C c depth)
    (hD : Lawful D d depth) : Lawful decode encode (depth + 1) where
  stable := by
    intro value x hx
    obtain ⟨_, _, _, _, -, hp, hq, hr, hs⟩ := h.parts hx
    exact h.restores_iff.2 ⟨hA.stable hp, hB.stable hq, hC.stable hr, hD.stable hs⟩
  widens := by
    intro x hx
    rw [h.restores_iff] at hx ⊢
    exact ⟨hA.widens hx.1, hB.widens hx.2.1, hC.widens hx.2.2.1, hD.widens hx.2.2.2⟩

end Four
end Records

/-! ## Maps -/

/-- The values under the names of a list, decoded one by one. -/
def entries? (decode : Value → Option α) (members : List (String × Value)) :
    Option (List (String × α)) :=
  members.mapM fun m => (decode m.2).map (m.1, ·)

theorem mapOf_eq (value : Value) : mapOf decode (depth + 1) value =
    value.members?.bind fun members => (entries? (decode depth) members).map NameMap.ofList := by
  show (value.members?.bind fun members =>
    (entries? (decode depth) members).bind fun entries => some (NameMap.ofList entries)) = _
  simp only [Option.map_eq_bind]
  rfl

theorem entries?_cons (f : Value → Option α) (name : String) (value : Value)
    (members : List (String × Value)) :
    entries? f ((name, value) :: members) =
      (f value).bind fun x => (entries? f members).map ((name, x) :: ·) := by
  unfold entries?
  rw [List.mapM_cons]
  cases f value with
  | none => rfl
  | some x => cases h : entries? f members <;> simp_all [entries?]

/-- What is decoded under the names of a list stands under the same names. -/
theorem of_entries? {f : Value → Option α} {members : List (String × Value)}
    {list : List (String × α)} (h : entries? f members = some list) :
    list.map Prod.fst = members.map Prod.fst ∧ ∀ e ∈ list, ∃ value, f value = some e.2 := by
  induction members generalizing list with
  | nil =>
    obtain rfl := Option.some.inj h
    exact ⟨rfl, by simp⟩
  | cons m members ih =>
    rw [entries?_cons, Option.bind_eq_some_iff] at h
    obtain ⟨x, hx, h⟩ := h
    obtain ⟨others, hothers, rfl⟩ := Option.map_eq_some_iff.1 h
    obtain ⟨hnames, hvalues⟩ := ih hothers
    refine ⟨by rw [List.map_cons, hnames, List.map_cons], ?_⟩
    rintro e (_ | ⟨_, he⟩)
    · exact ⟨m.2, hx⟩
    · exact hvalues e he

theorem entries?_map_iff {f : Value → Option α} {entries : List (String × α)} :
    entries? f (entries.map fun e => (e.1, encode e.2)) = some entries ↔
      ∀ e ∈ entries, f (encode e.2) = some e.2 := by
  induction entries with
  | nil => simp [entries?]
  | cons e entries ih =>
    rw [List.map_cons, entries?_cons, List.forall_mem_cons, ← ih, Option.bind_eq_some_iff]
    constructor
    · rintro ⟨x, hx, h⟩
      obtain ⟨others, hothers, heq⟩ := Option.map_eq_some_iff.1 h
      obtain ⟨he, rfl⟩ := List.cons.inj heq
      exact ⟨hx.trans (congrArg (fun e : String × α => some e.2) he), hothers⟩
    · rintro ⟨hx, hothers⟩
      exact ⟨e.2, hx, by rw [hothers]; rfl⟩

/-- A map is given back exactly if no name stands twice in it and its values are given back. -/
theorem restores_mapOf_iff {m : NameMap α} :
    Restores (mapOf decode) (NameMap.toJson encode) (depth + 1) m ↔
      m.Each fun _ x => Restores decode encode depth x := by
  rw [Restores, mapOf_eq, NameMap.toJson, members?_record, Option.bind_some, Option.map_eq_some_iff]
  constructor
  · rintro ⟨list, hlist, rfl⟩
    -- The names decoded are those of the map, so nothing was replaced.
    have hnodup : (NameMap.ofList list).names.Nodup :=
      (NameMap.each_ofList (P := fun _ _ => True) fun _ _ => trivial).nodup
    have hnames : list.map Prod.fst = (NameMap.ofList list).names := by
      rw [(of_entries? hlist).1, List.map_map]
      rfl
    have hmap : NameMap.ofList list = ⟨list⟩ :=
      NameMap.insertAll_of_disjoint (m := .empty) (by rwa [← hnames] at hnodup)
    rw [hmap] at hlist hnodup
    rw [hmap]
    exact ⟨hnodup, entries?_map_iff.1 hlist⟩
  · intro h
    exact ⟨m.entries, entries?_map_iff.2 h.entry, h.ofList_entries⟩

/-- In a map that was decoded no name stands twice, and its values were decoded. -/
theorem each_of_mapOf {value : Value} {m : NameMap α}
    (h : mapOf decode (depth + 1) value = some m) :
    m.Each fun _ x => ∃ value, decode depth value = some x := by
  rw [mapOf_eq, Option.bind_eq_some_iff] at h
  obtain ⟨members, -, h⟩ := h
  obtain ⟨list, hlist, rfl⟩ := Option.map_eq_some_iff.1 h
  exact NameMap.each_ofList (of_entries? hlist).2

theorem Lawful.mapOf (h : Lawful decode encode depth) :
    Lawful (mapOf decode) (NameMap.toJson encode) (depth + 1) where
  stable := by
    intro value m hm
    have heach := each_of_mapOf hm
    refine restores_mapOf_iff.2 ⟨heach.nodup, fun e he => ?_⟩
    obtain ⟨value, hvalue⟩ := heach.entry e he
    exact h.stable hvalue
  widens := by
    intro m hm
    rw [restores_mapOf_iff] at hm ⊢
    exact ⟨hm.nodup, fun e he => h.widens (hm.entry e he)⟩

theorem lawful_mapOf (h : ∀ depth, Lawful decode encode depth) (depth : Nat) :
    Lawful (mapOf decode) (NameMap.toJson encode) depth := by
  cases depth with
  | zero => exact lawful_zero fun _ => rfl
  | succ depth => exact (h depth).mapOf

end SyslModel.Json
