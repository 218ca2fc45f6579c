import Mathlib.Data.List.Pairwise
import SyslModel.NameMap
/-!
# Laws of name maps

Each name of a map stands once in it, and each entry is the last one that was given for its name.
So whatever holds of all that is given holds of all entries (`each_ofList`), whatever holds of any
two of them holds of any two entries (`pairwise_ofList`), and a map is made again by giving its own
entries in order (`Each.ofList_entries`).
-/

namespace SyslModel.NameMap

variable {α β : Type} {m : NameMap α} {name : String} {value : α} {P : String → α → Prop}

/-- Each name stands once, and each entry has the property. -/
structure Each (P : String → α → Prop) (m : NameMap α) : Prop where
  /-- No name stands twice. -/
  nodup : m.names.Nodup
  /-- Each entry has the property. -/
  entry : ∀ e ∈ m.entries, P e.1 e.2

/-- The map with a function applied to its values. -/
def mapValues (f : α → β) (m : NameMap α) : NameMap β := ⟨m.entries.map fun e => (e.1, f e.2)⟩

/-! ## Giving a name a value -/

theorem map_fst_put (entries : List (String × α)) :
    (put name value entries).map Prod.fst =
      if name ∈ entries.map Prod.fst then entries.map Prod.fst
      else entries.map Prod.fst ++ [name] := by
  induction entries with
  | nil => rfl
  | cons e rest ih =>
    obtain ⟨other, old⟩ := e
    by_cases h : other = name
    · simp [put, h]
    · have hne : name ≠ other := fun heq => h heq.symm
      rw [put, if_neg h, List.map_cons, List.map_cons, ih]
      by_cases hmem : name ∈ rest.map Prod.fst
      · rw [if_pos hmem, if_pos (List.mem_cons_of_mem _ hmem)]
      · have hcons : name ∉ other :: rest.map Prod.fst := by
          rw [List.mem_cons, not_or]
          exact ⟨hne, hmem⟩
        rw [if_neg hmem, if_neg hcons]
        rfl

theorem mem_put {entries : List (String × α)} {e : String × α} (h : e ∈ put name value entries) :
    e = (name, value) ∨ e ∈ entries := by
  induction entries with
  | nil => exact .inl (List.mem_singleton.1 h)
  | cons first rest ih =>
    obtain ⟨other, old⟩ := first
    by_cases hname : other = name
    · rw [put, if_pos hname, hname] at h
      rcases List.mem_cons.1 h with rfl | h
      · exact .inl rfl
      · exact .inr (List.mem_cons_of_mem _ h)
    · rw [put, if_neg hname] at h
      rcases List.mem_cons.1 h with rfl | h
      · exact .inr List.mem_cons_self
      · exact (ih h).imp id (List.mem_cons_of_mem _)

theorem mem_put_self (entries : List (String × α)) : (name, value) ∈ put name value entries := by
  induction entries with
  | nil => exact List.mem_cons_self
  | cons e rest ih =>
    obtain ⟨other, old⟩ := e
    by_cases h : other = name
    · rw [put, if_pos h, h]
      exact List.mem_cons_self
    · rw [put, if_neg h]
      exact List.mem_cons_of_mem _ ih

theorem put_of_notMem {entries : List (String × α)} (h : name ∉ entries.map Prod.fst) :
    put name value entries = entries ++ [(name, value)] := by
  induction entries with
  | nil => rfl
  | cons e rest ih =>
    obtain ⟨other, old⟩ := e
    rw [List.map_cons, List.mem_cons, not_or] at h
    rw [put, if_neg (Ne.symm h.1), ih h.2]
    rfl

theorem put_map (f : α → β) (entries : List (String × α)) :
    (put name value entries).map (fun e => (e.1, f e.2)) =
      put name (f value) (entries.map fun e => (e.1, f e.2)) := by
  induction entries with
  | nil => rfl
  | cons e rest ih =>
    obtain ⟨other, old⟩ := e
    by_cases h : other = name
    · simp [put, h]
    · simp [put, h, ih]

/-! ## Giving the names of a list -/

theorem each_empty : Each P (empty : NameMap α) := ⟨List.nodup_nil, by simp [empty]⟩

theorem Each.insert (h : Each P m) (hvalue : P name value) : Each P (m.insert name value) where
  nodup := by
    rw [names, NameMap.insert, map_fst_put]
    split
    · exact h.nodup
    · next hmem =>
      rw [List.nodup_append]
      refine ⟨h.nodup, by simp, ?_⟩
      rintro other hother last hlast rfl
      exact hmem (List.mem_singleton.1 hlast ▸ hother)
  entry := by
    intro e he
    rcases mem_put he with rfl | he
    · exact hvalue
    · exact h.entry e he

theorem Each.insertAll (h : Each P m) {list : List (String × α)} (hlist : ∀ e ∈ list, P e.1 e.2) :
    Each P (m.insertAll list) := by
  induction list generalizing m with
  | nil => exact h
  | cons e rest ih =>
    rw [List.forall_mem_cons] at hlist
    exact ih (h.insert hlist.1) hlist.2

/-- What holds of all entries given holds of the map. -/
theorem each_ofList {list : List (String × α)} (hlist : ∀ e ∈ list, P e.1 e.2) :
    Each P (ofList list) := each_empty.insertAll hlist

/-- An entry of a map is one that was given. -/
theorem mem_of_mem_ofList {list : List (String × α)} {e : String × α}
    (h : e ∈ (ofList list).entries) : e ∈ list :=
  (each_ofList (P := fun name value => (name, value) ∈ list) fun _ he => he).entry e h

/-- What holds of any two of the entries given, and of them in either order, holds of any two
entries of the map.  They have different names, so they were given apart. -/
theorem pairwise_ofList {R : String × α → String × α → Prop} (hsymm : ∀ a b, R a b → R b a)
    {list : List (String × α)} (h : list.Pairwise R) : (ofList list).entries.Pairwise R := by
  have : Std.Symm R := ⟨hsymm⟩
  have heach : Each (fun _ _ => True) (ofList list) := each_ofList fun _ _ => trivial
  refine (List.pairwise_map.1 heach.nodup).imp_of_mem fun {a b} ha hb hne => ?_
  exact h.forall (mem_of_mem_ofList ha) (mem_of_mem_ofList hb) fun heq => hne (heq ▸ rfl)

theorem insertAll_of_disjoint {list : List (String × α)}
    (h : (m.names ++ list.map Prod.fst).Nodup) : m.insertAll list = ⟨m.entries ++ list⟩ := by
  induction list generalizing m with
  | nil => simp
  | cons e rest ih =>
    obtain ⟨name, value⟩ := e
    have hname : name ∉ m.entries.map Prod.fst := by
      intro hmem
      rw [List.nodup_append] at h
      exact h.2.2 name hmem name (by simp) rfl
    have hinsert : m.insert name value = ⟨m.entries ++ [(name, value)]⟩ :=
      congrArg NameMap.mk (put_of_notMem hname)
    rw [insertAll_cons, hinsert, ih]
    · simp
    · simpa [names] using h

/-- A map is made again by giving its own entries. -/
theorem Each.ofList_entries (h : Each P m) : ofList m.entries = m := by
  have hnodup : ((empty : NameMap α).names ++ m.entries.map Prod.fst).Nodup := h.nodup
  rw [ofList, insertAll_of_disjoint hnodup]
  rfl

/-! ## Giving the names of a map to another one -/

theorem put_put_self (old : α) (entries : List (String × α)) :
    put name value (put name old entries) = put name value entries := by
  induction entries with
  | nil => simp [put]
  | cons e rest ih =>
    obtain ⟨other, first⟩ := e
    by_cases h : other = name
    · simp [put, h]
    · simp [put, h, ih]

/-- Giving a name that is there another value can be done before or after giving a different name
its value. -/
theorem put_comm {other : String} {second : α} {entries : List (String × α)} (hne : other ≠ name)
    (h : name ∈ entries.map Prod.fst) :
    put name value (put other second entries) = put other second (put name value entries) := by
  induction entries with
  | nil => cases h
  | cons e rest ih =>
    obtain ⟨key, first⟩ := e
    by_cases hkey : key = name
    · subst hkey
      simp [put, Ne.symm hne]
    · have hrest : name ∈ rest.map Prod.fst := (List.mem_cons.1 h).resolve_left (Ne.symm hkey)
      by_cases hother : key = other
      · simp [put, hother, hne]
      · simp [put, hkey, hother, ih hrest]

theorem mem_names_insert (m : NameMap α) : name ∈ (m.insert name value).names := by
  rw [names, NameMap.insert, map_fst_put]
  split
  · assumption
  · simp

theorem names_subset_insert (m : NameMap α) (name : String) (value : α) :
    m.names ⊆ (m.insert name value).names := by
  intro other hother
  rw [names, NameMap.insert, map_fst_put]
  split
  · exact hother
  · exact List.mem_append_left _ hother

theorem insert_insertAll_comm {list : List (String × α)} (hname : name ∈ m.names)
    (hlist : name ∉ list.map Prod.fst) :
    (m.insertAll list).insert name value = (m.insert name value).insertAll list := by
  induction list generalizing m with
  | nil => rfl
  | cons e rest ih =>
    obtain ⟨other, second⟩ := e
    rw [List.map_cons, List.mem_cons, not_or] at hlist
    rw [insertAll_cons, insertAll_cons, ih (names_subset_insert m _ _ hname) hlist.2]
    exact congrArg (fun entries => (NameMap.mk entries).insertAll rest)
      (put_comm (Ne.symm hlist.1) hname)

theorem insertAll_put {entries : List (String × α)} (h : (entries.map Prod.fst).Nodup) :
    m.insertAll (put name value entries) = (m.insertAll entries).insert name value := by
  induction entries generalizing m with
  | nil => rfl
  | cons e rest ih =>
    obtain ⟨other, second⟩ := e
    rw [List.map_cons, List.nodup_cons] at h
    by_cases hother : other = name
    · subst hother
      rw [put, if_pos rfl, insertAll_cons, insertAll_cons,
        insert_insertAll_comm (mem_names_insert m) h.1]
      exact congrArg (fun entries => (NameMap.mk entries).insertAll rest)
        (put_put_self second m.entries).symm
    · rw [put, if_neg hother, insertAll_cons, insertAll_cons, ih h.2]

theorem Each.insertAll_entries {other : NameMap α} (h : Each P other) (m : NameMap α)
    {list : List (String × α)} (hlist : ∀ e ∈ list, P e.1 e.2) :
    m.insertAll (other.insertAll list).entries = (m.insertAll other.entries).insertAll list := by
  induction list generalizing other with
  | nil => rfl
  | cons e rest ih =>
    obtain ⟨name, value⟩ := e
    rw [List.forall_mem_cons] at hlist
    rw [insertAll_cons, insertAll_cons, ih (h.insert hlist.1) hlist.2]
    exact congrArg (fun map => NameMap.insertAll map rest) (insertAll_put h.nodup)

/-- Giving a map the entries of one that was made from a list is giving it the list. -/
theorem insertAll_ofList (m : NameMap α) (list : List (String × α)) :
    m.insertAll (ofList list).entries = m.insertAll list :=
  (each_empty (P := fun _ _ => True)).insertAll_entries m fun _ _ => trivial

/-! ## Values through a function -/

theorem values_mapValues (f : α → β) (m : NameMap α) : (m.mapValues f).values = m.values.map f := by
  rw [values, values, mapValues, List.map_map, List.map_map]
  rfl

theorem mapValues_eq_self {f : α → α} (h : ∀ value, f value = value) (m : NameMap α) :
    m.mapValues f = m := by
  rw [mapValues, funext h]
  exact congrArg mk (List.map_id' _)

theorem mapValues_insertAll (f : α → β) (m : NameMap α) (list : List (String × α)) :
    (m.insertAll list).mapValues f =
      (m.mapValues f).insertAll (list.map fun e => (e.1, f e.2)) := by
  induction list generalizing m with
  | nil => rfl
  | cons e rest ih =>
    obtain ⟨name, value⟩ := e
    rw [insertAll_cons, ih, List.map_cons, insertAll_cons]
    have hinsert : (m.insert name value).mapValues f = (m.mapValues f).insert name (f value) :=
      congrArg NameMap.mk (put_map f m.entries)
    rw [hinsert]

theorem mapValues_ofList (f : α → β) (list : List (String × α)) :
    (ofList list).mapValues f = ofList (list.map fun e => (e.1, f e.2)) :=
  mapValues_insertAll f empty list

/-- Entries that are those of a map, but for what a function forgets, make that map again, but for
what it forgets. -/
theorem Each.mapValues_ofList (h : Each P m) (f : α → β) {list : List (String × α)}
    (hlist : list.map (fun e => (e.1, f e.2)) = m.entries.map fun e => (e.1, f e.2)) :
    (ofList list).mapValues f = m.mapValues f := by
  rw [NameMap.mapValues_ofList, hlist, ← NameMap.mapValues_ofList, h.ofList_entries]

end SyslModel.NameMap
