import SyslModel.Proofs.Grammar.Stems
import SyslModel.Proofs.Tree.Distinct
/-!
# Primary keys are exact

A table stores its primary key beside its fields, so the two could part.  `Table.KeyExact` says that
the stored key is what it should be: the fields that carry `pk` as a flag that is not negated, each
once and in the order of the fields.  `Table.Made` lists the ways in which tables come about and are
changed.  Each of them leaves the key in step with the fields, and no name twice among these
(`Table.Sound`).  Both are needed: were a name to stand twice among the fields, a key in step could
have it twice, or have it for a field that no lookup finds.

For a table that was parsed, `KeyWritten` tells the key from the tokens alone: a field is in it
exactly if its last declaration has `pk` and the last `pk` there has no tilde.
-/

namespace SyslModel

open Json

/-! ## Statements -/

/-- A table that is made of any fields, parsed or decoded, at any depth of a tree, and then changed
field by field. -/
inductive Table.Made : Table DataType → Prop
  /-- A table is made of a map of fields. -/
  | ofFields (list : List (String × DataType)) : Made (.ofFields (.ofList list))
  /-- A table is parsed or decoded; in JSON the key may be given as anything, or be left out. -/
  | obtained {table : Table DataType} : (Part.relation table).Obtained → Made table
  /-- A field is given to a table, or replaced in it. -/
  | insertField {table : Table DataType} (name : String) (t : DataType) : Made table →
      Made (table.insertField name t).2

/-- The key that is stored has the fields with the flag `pk`, each once and in their order. -/
structure Table.KeyExact (table : Table DataType) : Prop where
  /-- No name stands twice in the key. -/
  nodup : table.primaryKey.Nodup
  /-- The names in the key are in the order of the fields. -/
  ordered : table.primaryKey.Sublist table.names
  /-- A name is in the key exactly if its field carries `pk`, not negated. -/
  mem : ∀ name, name ∈ table.primaryKey ↔
    ∃ t, table.get? name = some t ∧ t.attrs.get? "pk" = some (.flag false)

/-- What giving a field to a table does. -/
structure Table.Changes (table : Table DataType) (name : String) (t : DataType) : Prop where
  /-- The type that was stored under the name is told. -/
  told : (table.insertField name t).1 = table.get? name
  /-- The name keeps its position if it has one, and else stands last. -/
  names : (table.insertField name t).2.names =
    if name ∈ table.names then table.names else table.names ++ [name]
  /-- The type is stored under the name. -/
  stored : (table.insertField name t).2.get? name = some t
  /-- The other fields stay as they are. -/
  kept : ∀ other, other ≠ name → (table.insertField name t).2.get? other = table.get? other
  /-- The others are in the stored key as before. -/
  keyKept : ∀ other, other ≠ name →
    (other ∈ (table.insertField name t).2.primaryKey ↔ other ∈ table.primaryKey)

/-- The flags that are written behind the type of a field. -/
def Derivation.flags (d : Derivation Production.field) : List (Derivation Production.fieldAttr) :=
  match d.2.2.2.2 with
  | none => []
  | some attrs => Meaning.items attrs

/-- The name that a field is declared under. -/
def Derivation.fieldName (d : Derivation Production.field) : String := Meaning.eitherText d.1

/-- The last flag `pk` of a field has no tilde. -/
def Derivation.PutsIntoKey (d : Derivation Production.field) : Prop :=
  ∃ flag : Derivation Production.fieldAttr,
    (d.flags.filter fun flag => flag.2.1.text = "pk").getLast? = some flag ∧ flag.1 = none

/-- The key as it is written in the declarations of a table. -/
structure KeyWritten (declarations : List (Derivation Production.field)) (key : List String) :
    Prop where
  /-- A name is in the key exactly if its last declaration puts it there. -/
  mem : ∀ name, name ∈ key ↔ ∃ d : Derivation Production.field,
    (declarations.filter fun d => d.fieldName = name).getLast? = some d ∧ d.PutsIntoKey
  /-- No name stands twice in the key. -/
  nodup : key.Nodup
  /-- The names are in the order in which they are declared first. -/
  ordered : key.Sublist (declarations.map Derivation.fieldName).eraseDups

/-- What holds of the primary keys of all tables. -/
structure PrimaryKeys : Prop where
  /-- The key of every table is exact. -/
  exact : ∀ table : Table DataType, table.Made → table.KeyExact
  /-- Giving a table a field changes what it should. -/
  changes : ∀ table : Table DataType, table.Made → ∀ name t, table.Changes name t
  /-- When a table is decoded, a key that is given is skipped, whatever it is. -/
  skipped : ∀ (depth : Nat) (before after : List (String × Value)) (key : Value),
    Table.ofJson? depth (.record (before ++ ("primary_key", key) :: after)) =
      Table.ofJson? depth (.record (before ++ after))
  /-- Every table that is read from tokens is what a declaration means, and its key is as written
  there. -/
  written : ∀ (tokens : List Token) (fragment : Fragment), fragment.ReadFrom tokens →
    ∀ whole ∈ fragment.parts, ∀ (t : DataType) (table : Table DataType),
      whole.Contains (.dataType t) → t.shape = .relation table →
      ∃ d : Derivation (Production.declarationOf .table), d.tokens <:+: tokens ∧
        t = (Meaning.declarationOf .table d).2 ∧ KeyWritten d.2.2.2.2 table.primaryKey

/-! ## Tables in step with their keys -/

/-- The stored key is the one that the fields call for, and no name stands twice among them. -/
structure Table.Sound (table : Table DataType) : Prop where
  /-- The key is in step. -/
  inStep : table.InStep
  /-- The names are distinct. -/
  distinct : table.names.Nodup

theorem Table.Sound.each {table : Table DataType} (h : table.Sound) :
    table.fields.Each fun _ _ => True :=
  ⟨h.distinct, fun _ _ => trivial⟩

/-- Giving a table a field tells what was looked up, and makes the table of the changed fields. -/
theorem Table.insertField_eq (table : Table DataType) (name : String) (t : DataType) :
    table.insertField name t = (table.get? name, .ofFields (table.fields.insert name t)) := by
  rw [insertField, NameMap.replace_eq]
  rfl

/-- Giving a table a field leaves it sound. -/
theorem Table.Sound.insertField {table : Table DataType} (h : table.Sound) (name : String)
    (t : DataType) : (table.insertField name t).2.Sound where
  inStep := Table.inStep_insertField table name t
  distinct := by
    rw [Table.insertField_eq]
    exact NameMap.Each.nodup (h.each.insert trivial)

/-- The key of a sound table is exact. -/
theorem Table.Sound.keyExact {table : Table DataType} (h : table.Sound) : table.KeyExact := by
  have hkey : table.primaryKey = Fields.primaryKey table.fields := h.inStep
  have hsublist : (Fields.primaryKey table.fields).Sublist table.names :=
    List.filter_sublist.map Prod.fst
  refine ⟨hkey ▸ h.distinct.sublist hsublist, hkey ▸ hsublist, fun name => ?_⟩
  rw [hkey, Fields.primaryKey, List.mem_map]
  constructor
  · rintro ⟨⟨key, t⟩, hmem, rfl⟩
    obtain ⟨hentry, hflag⟩ := List.mem_filter.1 hmem
    exact ⟨t, (NameMap.get?_eq_some_iff h.each).2 hentry, beq_iff_eq.1 hflag⟩
  · rintro ⟨t, hget, hflag⟩
    have hentry := (NameMap.get?_eq_some_iff h.each).1 hget
    exact ⟨(name, t), List.mem_filter.2 ⟨hentry, beq_iff_eq.2 hflag⟩, rfl⟩

/-- In a sound table a field can be given or replaced without touching the others. -/
theorem Table.Sound.changes {table : Table DataType} (h : table.Sound) (name : String)
    (t : DataType) : table.Changes name t := by
  have hget (other : String) : (table.insertField name t).2.get? other =
      if name = other then some t else table.get? other := by
    rw [insertField_eq]
    exact NameMap.get?_insert table.fields name t other
  have hkept (other : String) (hne : other ≠ name) :
      (table.insertField name t).2.get? other = table.get? other := by
    rw [hget, if_neg (Ne.symm hne)]
  refine ⟨?told, ?names, ?stored, hkept, ?keyKept⟩
  case told => rw [insertField_eq]
  case names =>
    rw [insertField_eq]
    exact NameMap.names_insert table.fields name t
  case stored => rw [hget, if_pos rfl]
  case keyKept =>
    intro other hne
    rw [(h.insertField name t).keyExact.mem, h.keyExact.mem, hkept other hne]

/-! ## Tables that are read -/

/-- Every table in a part, at any depth, is in step with its key. -/
def Part.KeysInStep (whole : Part) : Prop :=
  ∀ table, whole.Contains (.relation table) → table.InStep

/-- Every part of what is read stems from the tokens; a type that is named alone is no field. -/
theorem Fragment.Means.stems {tokens : List Token} {fragment : Fragment}
    (h : fragment.Means tokens) : ∀ p ∈ fragment.parts, p.StemsFrom tokens ∨
      ∃ d : Derivation Production.typeRef, d.tokens <:+: tokens ∧
        p = .dataType (Meaning.typeRef d) := by
  cases h with
  | model hds => exact List.forall_mem_singleton.2 (.inl (.model hds))
  | @ofRule rule d final hne hd =>
    cases rule with
    | model => exact absurd rfl hne
    | application => exact List.forall_mem_singleton.2 (.inl (.application hd))
    | attributes | fieldAttrs => exact fun p hp => .inl (Part.StemsFrom.attrs _ p hp)
    | «attribute» | fieldAttr => exact List.forall_mem_singleton.2 (.inl (.attr _))
    | declaration => exact List.forall_mem_singleton.2 (.inl (.declared hd))
    | enumItem => exact List.forall_mem_nil _
    | field => exact List.forall_mem_singleton.2 (.inl (.field hd))
    | typeRef => exact List.forall_mem_singleton.2 (.inr ⟨d, hd, rfl⟩)
    | endpoint => exact List.forall_mem_singleton.2 (.inl (.endpoint hd))

/-- What is inside of a type that is named alone. -/
theorem Part.stems_of_typeRef {tokens : List Token} {d : Derivation Production.typeRef} {p : Part}
    (hd : d.tokens <:+: tokens) (h : (Part.dataType (Meaning.typeRef d)).Contains p) :
    p.StemsFrom tokens ∨ p = .dataType (Meaning.typeRef d) := by
  cases Relation.ReflTransGen.cases_head h with
  | inl heq => exact .inr heq.symm
  | inr hinner =>
    obtain ⟨c, hc, hcontains⟩ := hinner
    have hchildren : ∀ c ∈ (Part.dataType (Meaning.typeRef d)).children, c.StemsFrom tokens :=
      List.forall_mem_cons.2 ⟨.span _, List.forall_mem_singleton.2 (.typeName hd)⟩
    exact .inl ((hchildren c hc).contains hcontains)

theorem Part.StemsFrom.inStep {tokens : List Token} {table : Table DataType}
    (h : (Part.relation table).StemsFrom tokens) : table.InStep := by
  cases h with
  | relation _ => exact Table.inStep_ofFields _

theorem Fragment.Means.keysInStep {tokens : List Token} {fragment : Fragment}
    (h : fragment.Means tokens) : ∀ p ∈ fragment.parts, p.KeysInStep := by
  intro p hp table htable
  rcases h.stems p hp with hstems | ⟨d, hd, rfl⟩
  · exact (hstems.contains htable).inStep
  · rcases Part.stems_of_typeRef hd htable with hstems | heq
    · exact hstems.inStep
    · cases heq

/-- A table that is given back by its decoder had the key that the decoder derives. -/
theorem Part.Restored.keysInStep {depth : Nat} {p : Part} (h : p.Restored depth) :
    p.KeysInStep := by
  intro table htable
  exact (Table.restores_iff.1 (restored_relation.1 (h.of_contains htable))).1

/-- Whatever is parsed or decoded has only tables in step with their keys. -/
theorem Part.Obtained.keysInStep {p : Part} (h : p.Obtained) : p.KeysInStep := by
  induction h with
  | read hread hp => exact hread.means.keysInStep _ hp
  | parsed hvalue hp => exact (readFrom_of_parseRule hvalue).means.keysInStep _ hp
  | decoded hdecoded => exact (restored_of_ofJson? hdecoded).2.keysInStep
  | inside _ hcontains ih => exact fun table htable => ih table (hcontains.trans htable)

/-- However a table comes about, and however often it is changed, it is sound. -/
theorem Table.Made.sound {table : Table DataType} (h : table.Made) : table.Sound := by
  induction h with
  | ofFields list => exact ⟨Table.inStep_ofFields _, NameMap.nodup_ofList list⟩
  | obtained hobtained =>
    refine ⟨hobtained.keysInStep _ Relation.ReflTransGen.refl, ?_⟩
    exact hobtained.distinct _ Relation.ReflTransGen.refl _ (List.mem_singleton_self _)
  | insertField name t _ ih => exact ih.insertField name t

/-- A member under another name does not matter. -/
theorem only?_skip {name other : String} (hne : other ≠ name) (before after : List (String × Value))
    (value : Value) : Value.only? name (before ++ (other, value) :: after) =
      Value.only? name (before ++ after) := by
  unfold Value.only?
  rw [List.filter_append, List.filter_cons_of_neg (by simpa using hne), ← List.filter_append]

/-- The fields of a table are read without a look at the key. -/
theorem Table.ofJson?_skip (depth : Nat) (before after : List (String × Value)) (key : Value) :
    Table.ofJson? depth (.record (before ++ ("primary_key", key) :: after)) =
      Table.ofJson? depth (.record (before ++ after)) := by
  cases depth with
  | zero => rfl
  | succ depth =>
    have hfields : (Value.record (before ++ ("primary_key", key) :: after)).fields? ["fields"] =
        (Value.record (before ++ after)).fields? ["fields"] := by
      show (Value.members? _).bind _ = (Value.members? _).bind _
      simp only [members?_record, Option.bind_some, List.mapM_cons, List.mapM_nil,
        only?_skip (by decide : "primary_key" ≠ "fields")]
    unfold Table.ofJson? Fields.recordOfJson?
    rw [hfields]

/-! ## The key of a declaration -/

theorem Meaning.field_attrs (d : Derivation Production.field) :
    (Meaning.field d).2.attrs = .ofList (d.flags.map Meaning.fieldAttr) := by
  obtain ⟨name, mark, type, question, _ | attrs⟩ := d
  · rfl
  · rfl

/-- The flags of a field put it into the key exactly if the last `pk` does. -/
theorem Meaning.field_pk_iff (d : Derivation Production.field) :
    (Meaning.field d).2.attrs.get? "pk" = some (.flag false) ↔ d.PutsIntoKey := by
  rw [field_attrs, NameMap.get?_ofList, NameMap.lastValue?_map, Option.map_eq_some_iff]
  apply exists_congr
  intro flag
  apply and_congr_right'
  obtain ⟨_ | tilde, name⟩ := flag
  · exact ⟨fun _ => rfl, fun _ => rfl⟩
  · exact ⟨nofun, nofun⟩

/-- The key of fields that are declared one by one is as written. -/
theorem keyWritten_ofFields (declarations : List (Derivation Production.field)) :
    KeyWritten declarations
      (Table.ofFields (.ofList (declarations.map Meaning.field))).primaryKey := by
  have hexact := (Table.Made.ofFields (declarations.map Meaning.field)).sound.keyExact
  refine ⟨fun name => ?_, hexact.nodup, ?_⟩
  · have hget : (Table.ofFields (.ofList (declarations.map Meaning.field))).get? name =
        NameMap.lastValue? (declarations.map Meaning.field) name := NameMap.get?_ofList _ name
    rw [hexact.mem, hget, NameMap.lastValue?_map]
    simp only [Option.map_eq_some_iff, exists_exists_and_eq_and, Meaning.field_pk_iff]
    rfl
  · have hnames : (Table.ofFields (.ofList (declarations.map Meaning.field))).names =
        (declarations.map Derivation.fieldName).eraseDups := by
      refine (NameMap.names_ofList _).trans ?_
      rw [NameMap.firstNames, List.map_map]
      rfl
    exact hnames ▸ hexact.ordered

/-! ## Tables that are declared -/

/-- The shape of a type that is named is not a table. -/
theorem Meaning.shape_ne_relation (d : Derivation Production.typeRef) (table : Table DataType) :
    Meaning.shape d ≠ .relation table := by
  rcases d with t | t | t <;> nofun

theorem Part.StemsFrom.declared_table {tokens : List Token} {t : DataType}
    {table : Table DataType} (h : (Part.dataType t).StemsFrom tokens)
    (ht : t.shape = .relation table) :
    ∃ d : Derivation (Production.declarationOf .table), d.tokens <:+: tokens ∧
      t = (Meaning.declarationOf .table d).2 := by
  cases h with
  | @declared d hd =>
    obtain ⟨m, d, rfl⟩ := Grammar.exists_declare d
    rw [Grammar.declare_tokens] at hd
    rw [Grammar.meaning_declare] at ht ⊢
    cases m with
    | table => exact ⟨d, hd, rfl⟩
    | type => cases ht
    | enumeration => cases ht
  | field _ => exact absurd ht (Meaning.shape_ne_relation _ table)

/-- Everything that is read from tokens has exact keys, and so have tables however they are made and
changed. -/
theorem primaryKeys : PrimaryKeys where
  exact _ htable := htable.sound.keyExact
  changes _ htable := htable.sound.changes
  skipped := Table.ofJson?_skip
  written := by
    intro tokens fragment hread whole hwhole t table hcontains ht
    have hstems : (Part.dataType t).StemsFrom tokens := by
      rcases hread.means.stems whole hwhole with h | ⟨d, hd, rfl⟩
      · exact h.contains hcontains
      · rcases Part.stems_of_typeRef hd hcontains with h | h
        · exact h
        · obtain rfl := Part.dataType.inj h
          exact absurd ht (Meaning.shape_ne_relation d table)
    obtain ⟨d, hd, rfl⟩ := hstems.declared_table ht
    obtain rfl : Table.ofFields (Meaning.fields d.2.2.2.2) = table := Shape.relation.inj ht
    exact ⟨d, hd, rfl, keyWritten_ofFields d.2.2.2.2⟩

/-- Only the last flag `pk` of the last declaration counts: `a` loses it, `b` negates it, `c` has it
again. -/
example : (parseRule
    "!table T:\n a <: int [pk]\n b <: int [pk, ~pk]\n c <: int [~pk, pk]\n a <: int"
    .declaration).value.map (fun fragment => fragment.parts.flatMap Part.children
      |>.flatMap Part.children |>.filterMap fun
        | .relation table => some table.primaryKey
        | _ => none) = some [["c"]] := by
  decide +kernel

end SyslModel
