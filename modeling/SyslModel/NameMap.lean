/-!
# Maps from names, in the order of declaration

A name map keeps its entries in the order in which their names were first given.  Giving a name
again replaces its value where it stands, so the last value wins and the first place stays.
-/

namespace SyslModel

/-- Values under names, in the order in which the names were first given. -/
structure NameMap (α : Type) where
  /-- The names with their values, in order. -/
  entries : List (String × α)
  deriving DecidableEq

namespace NameMap

variable {α : Type}

/-- The map without entries. -/
def empty : NameMap α := ⟨[]⟩

instance : Inhabited (NameMap α) := ⟨empty⟩

/-- The value under a name. -/
def get? (m : NameMap α) (name : String) : Option α := m.entries.lookup name

/-- Does the map have an entry of this name? -/
def contains (m : NameMap α) (name : String) : Bool := (m.get? name).isSome

/-- The number of entries. -/
def size (m : NameMap α) : Nat := m.entries.length

/-- Has the map no entry? -/
def isEmpty (m : NameMap α) : Bool := m.entries.isEmpty

/-- The names in order. -/
def names (m : NameMap α) : List String := m.entries.map Prod.fst

/-- The values in order. -/
def values (m : NameMap α) : List α := m.entries.map Prod.snd

/-- The entries with `value` under `name`: in place of an entry of that name, else at the end. -/
def put (name : String) (value : α) : List (String × α) → List (String × α)
  | [] => [(name, value)]
  | (other, old) :: rest =>
    if other = name then (other, value) :: rest else (other, old) :: put name value rest

/-- Gives `name` the value `value`. -/
def insert (m : NameMap α) (name : String) (value : α) : NameMap α := ⟨put name value m.entries⟩

/-- Puts `value` under `name`, and tells the value that stood there; one pass over the entries does
both. -/
def exchange (name : String) (value : α) : List (String × α) → Option α × List (String × α)
  | [] => (none, [(name, value)])
  | (other, old) :: rest =>
    if other = name then (some old, (other, value) :: rest)
    else
      let (replaced, rest) := exchange name value rest
      (replaced, (other, old) :: rest)

/-- Gives `name` the value `value`, and tells the value that it replaces. -/
def replace (m : NameMap α) (name : String) (value : α) : Option α × NameMap α :=
  let (replaced, entries) := exchange name value m.entries
  (replaced, ⟨entries⟩)

/-- Gives all the names of a list their values, in turn. -/
def insertAll (m : NameMap α) (entries : List (String × α)) : NameMap α :=
  entries.foldl (fun map entry => map.insert entry.1 entry.2) m

/-- The map made by giving the names of a list their values, in turn. -/
def ofList (entries : List (String × α)) : NameMap α := empty.insertAll entries

theorem exchange_eq (name : String) (value : α) (entries : List (String × α)) :
    exchange name value entries = (entries.lookup name, put name value entries) := by
  induction entries with
  | nil => rfl
  | cons entry rest ih =>
    obtain ⟨other, old⟩ := entry
    rw [exchange, ih, put, List.lookup_cons]
    by_cases h : other = name
    · simp [h]
    · simp [h, beq_eq_false_iff_ne.2 (Ne.symm h)]

/-- Replacing tells what looking the name up would have found, and leaves what inserting does. -/
theorem replace_eq (m : NameMap α) (name : String) (value : α) :
    m.replace name value = (m.get? name, m.insert name value) := by
  rw [replace, exchange_eq]
  rfl

@[simp] theorem get?_empty (name : String) : (empty : NameMap α).get? name = none := rfl

@[simp] theorem insertAll_nil (m : NameMap α) : m.insertAll [] = m := rfl

@[simp] theorem insertAll_cons (m : NameMap α) (name : String) (value : α)
    (entries : List (String × α)) :
    m.insertAll ((name, value) :: entries) = (m.insert name value).insertAll entries := rfl

theorem insertAll_append (m : NameMap α) (first second : List (String × α)) :
    m.insertAll (first ++ second) = (m.insertAll first).insertAll second := by
  simp [insertAll, List.foldl_append]

end NameMap
end SyslModel
