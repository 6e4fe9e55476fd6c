import GraphQLSchema.Catalog
import Mathlib.Data.List.Induction
import Mathlib.Data.List.Nodup

/-!
# Catalogs as lists of named entries

A catalog in use is the one that arises by pushing its entries, in their order and with distinct
names, onto the empty catalog. The index then says no more than the list: look-up by name is a
search in the list, and two catalogs with the same list are the same.
-/

namespace GraphQLSchema

/-- Under distinct names, the search for a name finds the one element that has it. -/
theorem find?_eq_some_iff_of_nodup {α : Type} {f : α → String} {l : List α} (hl : (l.map f).Nodup) {n : String}
    {a : α} : l.find? (f · = n) = some a ↔ a ∈ l ∧ f a = n := by
  constructor
  · intro h
    exact ⟨List.mem_of_find?_eq_some h, by simpa using List.find?_some h⟩
  · rintro ⟨ha, rfl⟩
    cases h : l.find? (f · = f a) with
    | none => simpa using List.find?_eq_none.mp h a ha
    | some b =>
      have hn : f b = f a := by simpa using List.find?_some h
      rw [List.inj_on_of_nodup_map hl (List.mem_of_find?_eq_some h) ha hn]

/-- Look-up under a key among pairs made from a list is a search in the list. -/
theorem lookup_map_pair {α β : Type} (key : α → String) (value : α → β) (l : List α) (n : String) :
    (l.map fun a => (key a, value a)).lookup n = (l.find? (key · = n)).map value := by
  induction l with
  | nil => rfl
  | cons a l ih =>
    rw [List.map_cons, List.lookup_cons, List.find?_cons, ih]
    by_cases h : key a = n
    · simp [h]
    · simp [h, beq_false_of_ne (Ne.symm h)]

/-- Under distinct names, what is changed at the position of a name is the one element that has it. -/
theorem modify_eq_map_of_nodup {α : Type} {name : α → String} {l : List α} (hl : (l.map name).Nodup) {n : String}
    {i : Nat} (hi : l.findIdx? (name · = n) = some i) (f : α → α) :
    l.modify i f = l.map fun a => if name a = n then f a else a := by
  rw [List.findIdx?_eq_some_iff_getElem] at hi
  obtain ⟨hlt, hn, -⟩ := hi
  have hn : name l[i] = n := by simpa using hn
  apply List.ext_getElem
  · simp
  · intro j hj _
    simp only [List.getElem_modify, List.getElem_map]
    have hj : j < l.length := by simpa using hj
    by_cases hij : i = j
    · subst hij
      simp [hn]
    · have hne : name l[j] ≠ n := by
        intro he
        have hjm : j < (l.map name).length := by simpa using hj
        have him : i < (l.map name).length := by simpa using hlt
        have hji : (l.map name)[j] = (l.map name)[i] := by simp [he, hn]
        exact hij (hl.getElem_inj_iff.mp hji).symm
      simp [hij, hne]

namespace Catalog

variable {α : Type} [Named α]

omit [Named α] in
@[simp] theorem index_empty : (∅ : Catalog α).index = ∅ := rfl

omit [Named α] in
@[simp] theorem contains_empty (n : String) : (∅ : Catalog α).contains n = false := by
  simp [contains]

def ofList (l : List α) : Catalog α := l.foldl push ∅

theorem ofList_append (l : List α) (a : α) : ofList (l ++ [a]) = (ofList l).push a := by
  simp [ofList]

@[simp] theorem toList_ofList (l : List α) : (ofList l).toList = l := by
  induction l using List.reverseRecOn with
  | nil => rfl
  | append_singleton l a ih => rw [ofList_append, toList_push, ih]

@[simp] theorem size_entries_ofList (l : List α) : (ofList l).entries.size = l.length := by
  rw [← Array.length_toList]
  exact congrArg List.length (toList_ofList l)

theorem index_push (c : Catalog α) (a : α) (n : String) :
    (c.push a).index[n]? = if Named.name a = n then some c.entries.size else c.index[n]? := by
  simp [push, Std.HashMap.getElem?_insert]

theorem lt_of_index_ofList {l : List α} {n : String} {i : Nat} (h : (ofList l).index[n]? = some i) :
    i < l.length := by
  induction l using List.reverseRecOn with
  | nil => simp [ofList] at h
  | append_singleton l a ih =>
    rw [ofList_append, index_push] at h
    rw [List.length_append, List.length_singleton]
    split at h
    · simp only [size_entries_ofList, Option.some.injEq] at h
      omega
    · exact Nat.lt_succ_of_lt (ih h)

/-- The index depends on the names alone. -/
theorem index_ofList_congr {l l' : List α} (h : l.map Named.name = l'.map Named.name) :
    (ofList l).index = (ofList l').index := by
  induction l using List.reverseRecOn generalizing l' with
  | nil =>
    obtain rfl : l' = [] := by simpa using h.symm
    rfl
  | append_singleton l a ih =>
    rw [List.map_append, eq_comm, List.map_eq_append_iff] at h
    obtain ⟨k, m, rfl, hk, hm⟩ := h
    obtain ⟨b, rfl, hb⟩ : ∃ b, m = [b] ∧ Named.name b = Named.name a := by
      simpa [List.map_eq_singleton_iff] using hm
    have hl : l.length = k.length := by simpa using (congrArg List.length hk).symm
    rw [ofList_append, ofList_append]
    simp only [push, ih hk.symm, size_entries_ofList, hb, hl]

theorem contains_ofList (l : List α) (n : String) :
    (ofList l).contains n = true ↔ n ∈ l.map Named.name := by
  induction l using List.reverseRecOn with
  | nil => simp [ofList]
  | append_singleton l a ih =>
    rw [contains] at ih
    rw [ofList_append, contains, push, Std.HashMap.contains_insert, Bool.or_eq_true, ih, beq_iff_eq,
      List.map_append, List.mem_append, List.map_singleton, List.mem_singleton, or_comm,
      eq_comm (a := Named.name a)]

theorem find?_push (l : List α) (a : α) (n : String) :
    ((ofList l).push a).find? n = if Named.name a = n then some a else (ofList l).find? n := by
  unfold find?
  rw [index_push]
  split
  · simp [push, Array.getElem?_push]
  · cases h : (ofList l).index[n]? with
    | none => rfl
    | some i =>
      have hi : i < (ofList l).entries.size := by simpa using lt_of_index_ofList h
      simp only [push, Option.bind_some]
      rw [Array.getElem?_push_lt hi, Array.getElem?_eq_getElem hi]

theorem find?_ofList {l : List α} (hl : (l.map Named.name).Nodup) (n : String) :
    (ofList l).find? n = l.find? (Named.name · = n) := by
  induction l using List.reverseRecOn with
  | nil => simp [ofList, find?]
  | append_singleton l a ih =>
    rw [List.map_append, List.nodup_append] at hl
    rw [ofList_append, find?_push, ih hl.1, List.find?_append]
    by_cases ha : Named.name a = n
    · subst ha
      have hn : l.find? (Named.name · = Named.name a) = none := by
        rw [List.find?_eq_none]
        intro b hb he
        exact hl.2.2 _ (List.mem_map_of_mem hb) (Named.name a) (by simp) (by simpa using he)
      simp [hn]
    · simp [ha]

/-- The index answers like a search for the position. -/
theorem index_ofList {l : List α} (hl : (l.map Named.name).Nodup) (n : String) :
    (ofList l).index[n]? = l.findIdx? (Named.name · = n) := by
  induction l using List.reverseRecOn with
  | nil => simp [ofList]
  | append_singleton l a ih =>
    rw [List.map_append, List.nodup_append] at hl
    rw [ofList_append, index_push, ih hl.1, List.findIdx?_append]
    by_cases ha : Named.name a = n
    · have hn : l.findIdx? (Named.name · = n) = none := by
        rw [List.findIdx?_eq_none_iff]
        intro b hb
        simpa using hl.2.2 _ (List.mem_map_of_mem hb) n (by simp [ha])
      simp [ha, hn]
    · simp [ha]

/-- The catalog arises by pushing entries of distinct names. -/
structure Indexed (c : Catalog α) : Prop where
  ofList_toList : ofList c.toList = c
  nodup : (c.toList.map Named.name).Nodup

structure MapsNames (c : Catalog α) : Prop where
  distinct : (c.toList.map Named.name).Nodup
  positions : ∀ (n : String) (i : Nat), c.index[n]? = some i ↔ ∃ a, c.toList[i]? = some a ∧ Named.name a = n
  inRange : ∀ (n : String) (i : Nat), c.index[n]? = some i → i < c.size

omit [Named α] in
theorem mem_of_modify? {c c' : Catalog α} {n : String} {f : α → α} (h : c.modify? n f = some c') {a : α}
    (ha : a ∈ c'.toList) : a ∈ c.toList ∨ ∃ b ∈ c.toList, f b = a := by
  obtain ⟨i, -, rfl⟩ := Option.map_eq_some_iff.mp h
  obtain ⟨j, hj⟩ := List.mem_iff_getElem?.mp ha
  simp only [toList, Array.toList_modify, List.getElem?_modify] at hj
  obtain ⟨b, hb, rfl⟩ := Option.map_eq_some_iff.mp hj
  have hb : b ∈ c.toList := List.mem_of_getElem? hb
  split
  · exact Or.inr ⟨b, hb, rfl⟩
  · exact Or.inl hb

namespace Indexed

variable {c : Catalog α}

theorem ofList {l : List α} (hl : (l.map Named.name).Nodup) : (Catalog.ofList l).Indexed := by
  constructor
  · rw [toList_ofList]
  · rwa [toList_ofList]

theorem empty : (∅ : Catalog α).Indexed := ofList (l := []) List.nodup_nil

theorem find?_eq (hc : c.Indexed) (n : String) : c.find? n = c.toList.find? (Named.name · = n) := by
  rw [← find?_ofList hc.nodup, hc.ofList_toList]

theorem find?_eq_some_iff (hc : c.Indexed) {n : String} {a : α} :
    c.find? n = some a ↔ a ∈ c.toList ∧ Named.name a = n := by
  rw [hc.find?_eq, find?_eq_some_iff_of_nodup hc.nodup]

theorem find?_eq_none_iff (hc : c.Indexed) {n : String} :
    c.find? n = none ↔ ∀ a ∈ c.toList, Named.name a ≠ n := by
  rw [hc.find?_eq, List.find?_eq_none]
  simp

theorem contains_iff (hc : c.Indexed) {n : String} :
    c.contains n = true ↔ n ∈ c.toList.map Named.name := by
  rw [← contains_ofList, hc.ofList_toList]

theorem index_eq (hc : c.Indexed) (n : String) : c.index[n]? = c.toList.findIdx? (Named.name · = n) := by
  rw [← index_ofList hc.nodup, hc.ofList_toList]

theorem index_eq_some_iff (hc : c.Indexed) {n : String} {i : Nat} :
    c.index[n]? = some i ↔ ∃ a, c.toList[i]? = some a ∧ Named.name a = n := by
  rw [hc.index_eq, List.findIdx?_eq_some_iff_getElem]
  constructor
  · rintro ⟨hi, ha, -⟩
    exact ⟨c.toList[i], List.getElem?_eq_getElem hi, by simpa using ha⟩
  · rintro ⟨a, ha, rfl⟩
    obtain ⟨hi, rfl⟩ := List.getElem?_eq_some_iff.mp ha
    refine ⟨hi, by simp, ?_⟩
    -- Two positions of one name are the same.
    intro j hji he
    have him : i < (c.toList.map Named.name).length := by simpa using hi
    have hjm : j < (c.toList.map Named.name).length := Nat.lt_trans hji him
    have hij : (c.toList.map Named.name)[j] = (c.toList.map Named.name)[i] := by simpa using he
    exact absurd (hc.nodup.getElem_inj_iff.mp hij) (Nat.ne_of_lt hji)

theorem mapsNames (hc : c.Indexed) : c.MapsNames where
  distinct := hc.nodup
  positions _ _ := hc.index_eq_some_iff
  inRange _ i h := by
    obtain ⟨a, ha, -⟩ := hc.index_eq_some_iff.mp h
    obtain ⟨hi, -⟩ := List.getElem?_eq_some_iff.mp ha
    simpa [toList, size] using hi

theorem contains_eq (hc : c.Indexed) (n : String) :
    c.contains n = (c.toList.find? (Named.name · = n)).isSome := by
  rw [Bool.eq_iff_iff, hc.contains_iff, List.find?_isSome]
  simp

theorem push (hc : c.Indexed) {a : α} (ha : c.contains (Named.name a) = false) :
    (c.push a).Indexed := by
  have hn : Named.name a ∉ c.toList.map Named.name := fun h => by
    rw [hc.contains_iff.mpr h] at ha
    cases ha
  constructor
  · rw [toList_push, ofList_append, hc.ofList_toList]
  · rw [toList_push, List.map_append, List.nodup_append]
    exact ⟨hc.nodup, by simp, fun x hx y hy hxy => hn (by simp_all)⟩

/-- Entries may change in their place as long as the names stay. -/
theorem of_names_eq {c' : Catalog α} (hc : c.Indexed) (hi : c'.index = c.index)
    (hn : c'.toList.map Named.name = c.toList.map Named.name) : c'.Indexed := by
  refine ⟨?_, hn ▸ hc.nodup⟩
  have he : (Catalog.ofList c'.toList).entries = c'.entries := by
    rw [← Array.toList_inj]
    exact toList_ofList _
  have hx : (Catalog.ofList c'.toList).index = c'.index := by
    rw [hi, index_ofList_congr hn, hc.ofList_toList]
  calc Catalog.ofList c'.toList
      = ⟨(Catalog.ofList c'.toList).entries, (Catalog.ofList c'.toList).index⟩ := rfl
    _ = c' := by rw [he, hx]

theorem map (hc : c.Indexed) {f : α → α} (hf : ∀ a, Named.name (f a) = Named.name a) :
    (c.map f).Indexed := by
  refine hc.of_names_eq rfl ?_
  rw [toList_map, List.map_map]
  exact List.map_congr_left fun a _ => hf a

theorem modify? (hc : c.Indexed) {f : α → α} (hf : ∀ a, Named.name (f a) = Named.name a) {n : String}
    {c' : Catalog α} (h : c.modify? n f = some c') : c'.Indexed := by
  obtain ⟨i, -, rfl⟩ := Option.map_eq_some_iff.mp h
  refine hc.of_names_eq rfl ?_
  refine List.ext_getElem? fun j => ?_
  simp only [toList, Array.toList_modify, List.getElem?_map, List.getElem?_modify]
  split <;> simp_all [Option.map_map, Function.comp_def]

theorem modify?_cases (hc : c.Indexed) (n : String) (f : α → α) :
    (c.modify? n f = none ∧ c.toList.findIdx? (Named.name · = n) = none) ∨
      ∃ i c', c.modify? n f = some c' ∧ c.toList.findIdx? (Named.name · = n) = some i ∧
        c'.toList = c.toList.modify i f := by
  rw [Catalog.modify?, hc.index_eq]
  cases c.toList.findIdx? (Named.name · = n) with
  | none => exact Or.inl ⟨rfl, rfl⟩
  | some i => exact Or.inr ⟨i, _, rfl, rfl, by simp [toList]⟩

end Indexed

omit [Named α] in
/-- A change that leaves every entry as it is leaves the catalog as it is. -/
theorem map_eq_self {c : Catalog α} {f : α → α} (hf : ∀ a ∈ c.toList, f a = a) : c.map f = c := by
  have he : c.entries.map f = c.entries := by
    rw [← Array.toList_inj, Array.toList_map]
    exact List.map_congr_left hf |>.trans (List.map_id _)
  rw [map, he]

end Catalog

end GraphQLSchema
