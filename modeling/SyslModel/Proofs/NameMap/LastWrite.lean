import Mathlib.Data.List.Basic
import Mathlib.Data.List.Induction
import SyslModel.Json
import SyslModel.Proofs.Json.Record
import SyslModel.Proofs.NameMap
/-!
# The last write wins, in the first place

A list of names with values says by itself what the map made of it should be: each name stands where
it occurs first, with the value that it is given last.  `LastWriteWins` states this of a map, in
terms of the list alone, and `Builds` lists the ways in which a map is made of a list.  They all
come to the same map, which has this property (`builds_ofList`, `lastWriteWins_ofList`).

Both are shown from the last pair of the list: giving one more name its value adds the name at the
end if it is new, and changes the value of no other name.
-/

namespace SyslModel.NameMap

open Json

variable {α : Type} {m : NameMap α} {name other : String} {value : α} {pairs : List (String × α)}

/-! ## What a list of pairs says -/

/-- The names of a list, each where it occurs first. -/
def firstNames (pairs : List (String × α)) : List String := (pairs.map Prod.fst).eraseDups

/-- The value of the last pair of a name. -/
def lastValue? (pairs : List (String × α)) (name : String) : Option α :=
  (pairs.filter fun pair => pair.1 = name).getLast?.map Prod.snd

/-- The map has each name of the list in its first place, with its last value. -/
structure LastWriteWins (pairs : List (String × α)) (m : NameMap α) : Prop where
  /-- The names are those of the list, in the order in which they occur first. -/
  names : m.names = firstNames pairs
  /-- What stands under a name is the value of the last pair of this name, if there is one. -/
  get? : ∀ name, m.get? name = lastValue? pairs name
  /-- A name is in the map exactly if it is in the list. -/
  contains : ∀ name, m.contains name = true ↔ name ∈ pairs.map Prod.fst
  /-- The size is the number of different names. -/
  size : m.size = (firstNames pairs).length
  /-- The entries are the names with their last values. -/
  entries : m.entries = (firstNames pairs).filterMap fun name =>
    (lastValue? pairs name).map (name, ·)
  /-- The values are the last values of the names. -/
  values : m.values = (firstNames pairs).filterMap (lastValue? pairs)

/-- The map is what the pairs make, however they are given. -/
structure Builds (pairs : List (String × α)) (m : NameMap α) : Prop where
  /-- Each name in turn is given its value, and the replaced value is told. -/
  replaced : pairs.foldl (fun map pair => (map.replace pair.1 pair.2).2) empty = m
  /-- Each name in turn is given its value. -/
  inserted : pairs.foldl (fun map pair => map.insert pair.1 pair.2) empty = m
  /-- The pairs are collected. -/
  collected : ofList pairs = m
  /-- A JSON object with these members is decoded; a name may be that of many members. -/
  decoded : ∀ (decode : Decoder α) (depth : Nat) (value : Value) (members : List (String × Value)),
    value.members? = some members →
    List.Forall₂ (fun member pair => member.1 = pair.1 ∧ decode depth member.2 = some pair.2)
      members pairs →
    mapOf decode (depth + 1) value = some m

/-! ## One more pair -/

theorem ofList_concat (pairs : List (String × α)) (name : String) (value : α) :
    ofList (pairs ++ [(name, value)]) = (ofList pairs).insert name value := by
  rw [ofList, insertAll_append]
  rfl

theorem firstNames_concat (pairs : List (String × α)) (name : String) (value : α) :
    firstNames (pairs ++ [(name, value)]) =
      if name ∈ firstNames pairs then firstNames pairs else firstNames pairs ++ [name] := by
  simp only [firstNames, List.map_append, List.map_cons, List.map_nil, List.eraseDups_append,
    List.mem_eraseDups]
  by_cases h : name ∈ pairs.map Prod.fst
  · simp [List.removeAll, h]
  · simp [List.removeAll, h, List.eraseDups_cons]

theorem lastValue?_concat (pairs : List (String × α)) (name : String) (value : α) (other : String) :
    lastValue? (pairs ++ [(name, value)]) other =
      if name = other then some value else lastValue? pairs other := by
  by_cases h : name = other
  · simp [lastValue?, List.filter_append, h]
  · simp [lastValue?, List.filter_append, h]

/-- The last value among pairs that are made of other things is made of the last of those. -/
theorem lastValue?_map {β : Type} (make : β → String × α) (list : List β) (name : String) :
    lastValue? (list.map make) name =
      (list.filter fun item => (make item).1 = name).getLast?.map fun item => (make item).2 := by
  rw [lastValue?, List.filter_map, List.getLast?_map, Option.map_map]
  rfl

theorem lastValue?_eq_none_iff : lastValue? pairs name = none ↔ name ∉ pairs.map Prod.fst := by
  rw [lastValue?, Option.map_eq_none_iff, List.getLast?_eq_none_iff, List.filter_eq_nil_iff]
  constructor
  · intro h hmem
    obtain ⟨pair, hpair, hname⟩ := List.mem_map.1 hmem
    exact h pair hpair (by simpa using hname)
  · intro h pair hpair hname
    exact h (List.mem_map.2 ⟨pair, hpair, by simpa using hname⟩)

theorem names_insert (m : NameMap α) (name : String) (value : α) :
    (m.insert name value).names = if name ∈ m.names then m.names else m.names ++ [name] :=
  map_fst_put m.entries

theorem lookup_cons (key other : String) (value : α) (rest : List (String × α)) :
    ((key, value) :: rest).lookup other =
      if key = other then some value else rest.lookup other := by
  rw [List.lookup_cons]
  by_cases h : key = other
  · simp [h]
  · have hne : (other == key) = false := beq_eq_false_iff_ne.2 fun heq => h heq.symm
    simp [h, hne]

theorem lookup_put (entries : List (String × α)) :
    (put name value entries).lookup other =
      if name = other then some value else entries.lookup other := by
  induction entries with
  | nil =>
    rw [put, lookup_cons]
  | cons e rest ih =>
    obtain ⟨key, old⟩ := e
    by_cases hkey : key = name
    · subst hkey
      rw [put, if_pos rfl, lookup_cons, lookup_cons]
      by_cases h : key = other
      · simp [h]
      · simp [h]
    · rw [put, if_neg hkey, lookup_cons, lookup_cons, ih]
      by_cases h : name = other
      · have hne : key ≠ other := fun heq => hkey (heq.trans h.symm)
        simp [h, hne]
      · simp [h]

theorem get?_insert (m : NameMap α) (name : String) (value : α) (other : String) :
    (m.insert name value).get? other = if name = other then some value else m.get? other :=
  lookup_put m.entries

/-! ## Entries of a map without repeated names -/

theorem get?_eq_some_iff {P : String → α → Prop} (h : Each P m) :
    m.get? name = some value ↔ (name, value) ∈ m.entries := by
  obtain ⟨entries⟩ := m
  have hnodup : (entries.map Prod.fst).Nodup := h.nodup
  clear h
  show entries.lookup name = some value ↔ (name, value) ∈ entries
  induction entries with
  | nil => simp
  | cons e rest ih =>
    obtain ⟨key, first⟩ := e
    rw [List.map_cons, List.nodup_cons] at hnodup
    by_cases hkey : name = key
    · subst hkey
      have hrest : (name, value) ∉ rest := fun hmem =>
        hnodup.1 (List.mem_map.2 ⟨(name, value), hmem, rfl⟩)
      simp [hrest, eq_comm]
    · have hne : key ≠ name := fun heq => hkey heq.symm
      rw [lookup_cons, if_neg hne, ih hnodup.2]
      simp [hkey]

/-- What is looked up and then picked from the value is what is picked entry by entry. -/
theorem Each.bind_get?_eq_some_iff {β : Type} {P : String → α → Prop} (h : Each P m)
    {pick : α → Option β} {picked : β} : (m.get? name).bind pick = some picked ↔
      (name, picked) ∈ m.entries.filterMap fun entry => (pick entry.2).map (entry.1, ·) := by
  rw [Option.bind_eq_some_iff, List.mem_filterMap]
  constructor
  · rintro ⟨value, hvalue, hpick⟩
    exact ⟨(name, value), (get?_eq_some_iff h).1 hvalue, by rw [hpick]; rfl⟩
  · rintro ⟨⟨key, value⟩, hmem, hpick⟩
    obtain ⟨result, hresult, heq⟩ := Option.map_eq_some_iff.1 hpick
    obtain ⟨rfl, rfl⟩ := Prod.mk.inj heq
    exact ⟨value, (get?_eq_some_iff h).2 hmem, hresult⟩

/-- A map is given by its names and by what stands under them. -/
theorem Each.entries_eq {P : String → α → Prop} (h : Each P m) :
    m.entries = m.names.filterMap fun name => (m.get? name).map (name, ·) := by
  have hentry : ∀ e ∈ m.entries, (m.get? e.1).map (e.1, ·) = some e := by
    intro e he
    rw [(get?_eq_some_iff h).2 he]
    rfl
  rw [names, List.filterMap_map]
  calc m.entries = m.entries.filterMap some := List.filterMap_some.symm
    _ = _ := List.filterMap_congr fun e he => (hentry e he).symm

theorem Each.values_eq {P : String → α → Prop} (h : Each P m) :
    m.values = m.names.filterMap m.get? := by
  have hentry : ∀ e ∈ m.entries, m.get? e.1 = some e.2 := fun e he => (get?_eq_some_iff h).2 he
  rw [names, List.filterMap_map, values, ← List.filterMap_eq_map]
  exact List.filterMap_congr fun e he => (hentry e he).symm

/-! ## The map of a list -/

theorem each_true_ofList (pairs : List (String × α)) : Each (fun _ _ => True) (ofList pairs) :=
  each_ofList fun _ _ => trivial

theorem names_ofList (pairs : List (String × α)) : (ofList pairs).names = firstNames pairs := by
  induction pairs using List.reverseRecOn with
  | nil => rfl
  | append_singleton pairs pair ih => rw [ofList_concat, names_insert, firstNames_concat, ih]

theorem get?_ofList (pairs : List (String × α)) (name : String) :
    (ofList pairs).get? name = lastValue? pairs name := by
  induction pairs using List.reverseRecOn with
  | nil => rfl
  | append_singleton pairs pair ih => rw [ofList_concat, get?_insert, lastValue?_concat, ih]

/-- The map that is made of a list has each name in its first place, with its last value. -/
theorem lastWriteWins_ofList (pairs : List (String × α)) : LastWriteWins pairs (ofList pairs) where
  names := names_ofList pairs
  get? := get?_ofList pairs
  contains := by
    intro name
    rw [contains, get?_ofList, Option.isSome_iff_ne_none, Ne, lastValue?_eq_none_iff, not_not]
  size := by
    rw [← names_ofList, size, NameMap.names, List.length_map]
  entries := by
    rw [(each_true_ofList pairs).entries_eq, names_ofList]
    simp only [get?_ofList]
  values := by
    rw [(each_true_ofList pairs).values_eq, names_ofList, funext (get?_ofList pairs)]

/-- Members that are decoded one by one are the pairs. -/
theorem entries?_of_forall₂ {decode : Value → Option α} {members : List (String × Value)}
    (h : List.Forall₂ (fun member pair => member.1 = pair.1 ∧ decode member.2 = some pair.2)
      members pairs) : entries? decode members = some pairs := by
  induction h with
  | nil => rfl
  | @cons member pair members pairs hpair _ ih =>
    obtain ⟨name, value⟩ := member
    obtain ⟨hname, hvalue⟩ := hpair
    rw [entries?_cons, hvalue, ih]
    exact congrArg (fun key => some ((key, pair.2) :: pairs)) hname

/-- In whatever way a map is made of a list, it is the same one. -/
theorem builds_ofList (pairs : List (String × α)) : Builds pairs (ofList pairs) where
  replaced := by
    simp only [replace_eq]
    rfl
  inserted := rfl
  collected := rfl
  decoded := by
    intro decode depth value members hmembers hdecoded
    rw [mapOf_eq, hmembers, Option.bind_some, entries?_of_forall₂ hdecoded]
    rfl

/-- Three pairs, of which the last one replaces the first. -/
example : (ofList [("x", 1), ("y", 2), ("x", 3)]).entries = [("x", 3), ("y", 2)] := by decide

end SyslModel.NameMap
