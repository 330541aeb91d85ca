import BehaviorTrees.KeyMap
import Mathlib.Data.Finset.Card
import Mathlib.Data.List.Sort

/-!
# What a map holds

A map is determined by its look-ups.  When a list of bindings is put into it, those of the list come
before those it had, and it then has as many keys as the list has different ones.
-/

namespace BehaviorTrees

universe u
variable {α : Type u}

/-! ## Bindings -/

namespace Entries

variable {k : String} {v : α} {entries : List (String × α)}

theorem lookup_eq_some_iff_mem (h : (entries.map Prod.fst).Nodup) :
    entries.lookup k = some v ↔ (k, v) ∈ entries := by
  induction entries with
  | nil => simp
  | cons head rest ih =>
      obtain ⟨j, w⟩ := head
      obtain ⟨hj, hrest⟩ := List.nodup_cons.1 h
      rw [lookup_cons_eq, List.mem_cons]
      by_cases hkj : k = j
      · subst hkj
        have hnot : (k, v) ∉ rest := fun hmem => hj (List.mem_map.2 ⟨_, hmem, rfl⟩)
        simp [hnot, eq_comm]
      · simp [hkj, ih hrest]

theorem lookup_eq_none_iff_notMem : entries.lookup k = none ↔ k ∉ entries.map Prod.fst := by
  induction entries with
  | nil => simp
  | cons head rest ih =>
      obtain ⟨j, w⟩ := head
      by_cases hkj : k = j <;> simp_all [lookup_cons_eq]

theorem Ordered.nodup_keys (h : Ordered entries) : (entries.map Prod.fst).Nodup := by
  refine List.pairwise_map.2 (h.imp ?_)
  intro a b hab heq
  rw [heq] at hab
  exact String.lt_irrefl _ hab

theorem mem_keys_iff_isSome : k ∈ entries.map Prod.fst ↔ (entries.lookup k).isSome := by
  rw [← not_iff_not, ← lookup_eq_none_iff_notMem, Option.not_isSome_iff_eq_none]

/-- A key beyond all others comes last. -/
theorem insert_eq_append (h : ∀ e ∈ entries, e.1 < k) :
    insert k v entries = entries ++ [(k, v)] := by
  induction entries with
  | nil => rfl
  | cons e rest ih =>
      obtain ⟨he, hrest⟩ := List.forall_mem_cons.1 h
      have hlt : ¬k < e.1 := fun hlt => String.lt_irrefl k (String.lt_trans hlt he)
      have hne : k ≠ e.1 := fun heq => String.lt_irrefl k (by rwa [← heq] at he)
      simp [insert, hlt, hne, ih hrest]

theorem mem_keys_insert {k' : String} :
    k' ∈ (insert k v entries).map Prod.fst ↔ k' = k ∨ k' ∈ entries.map Prod.fst := by
  rw [mem_keys_iff_isSome, mem_keys_iff_isSome, lookup_insert]
  by_cases hk : k' = k <;> simp [hk]

theorem lookup_filter_ne (entries : List (String × α)) (k k' : String) :
    (entries.filter (·.1 ≠ k)).lookup k' = if k' = k then none else entries.lookup k' := by
  induction entries with
  | nil => simp
  | cons e rest ih =>
      obtain ⟨j, w⟩ := e
      rw [List.filter_cons, lookup_cons_eq]
      by_cases hj : j = k
      · rw [if_neg (by simp [hj]), ih, hj]
        split <;> rfl
      · rw [if_pos (by simpa using hj), lookup_cons_eq, ih]
        by_cases hk : k' = j
        · rw [if_pos hk, if_neg (fun h => hj (hk.symm.trans h)), if_pos hk]
        · rw [if_neg hk, if_neg hk]

end Entries

/-! ## Maps -/

namespace KeyMap

variable {k : String} {v : α} {m n : KeyMap α}

theorem nodup_keys (m : KeyMap α) : m.keys.Nodup := m.ordered.nodup_keys

theorem find?_eq_some_iff : m.find? k = some v ↔ (k, v) ∈ m.entries :=
  Entries.lookup_eq_some_iff_mem m.nodup_keys

theorem find?_eq_none_iff : m.find? k = none ↔ k ∉ m.keys :=
  Entries.lookup_eq_none_iff_notMem

theorem contains_iff_mem_keys : m.contains k = true ↔ k ∈ m.keys := by
  rw [contains, Option.isSome_iff_ne_none, Ne, find?_eq_none_iff, not_not]

theorem contains_iff : m.contains k = true ↔ ∃ v, m.find? k = some v := by
  rw [contains, Option.isSome_iff_exists]

theorem ext_find? (h : ∀ k, m.find? k = n.find? k) : m = n := by
  have hentries : m.entries = n.entries := by
    have : Std.Irrefl fun a b : String × α => a.1 < b.1 := ⟨fun a => String.lt_irrefl a.1⟩
    refine m.ordered.eq_of_mem_iff n.ordered fun ⟨k, v⟩ => ?_
    rw [← find?_eq_some_iff, ← find?_eq_some_iff, h]
  cases m
  cases n
  simpa using hentries

theorem eq_empty_of_isEmpty (h : m.isEmpty = true) : m = ∅ := by
  obtain ⟨entries, hordered⟩ := m
  obtain rfl : entries = [] := List.isEmpty_iff.1 h
  rfl

/-! ## Removing a binding -/

theorem find?_erase (m : KeyMap α) (k k' : String) :
    (m.erase k).find? k' = if k' = k then none else m.find? k' :=
  Entries.lookup_filter_ne m.entries k k'

theorem size_erase_lt (h : m.find? k = some v) : (m.erase k).size < m.size :=
  List.length_filter_lt_length_iff_exists.2 ⟨(k, v), find?_eq_some_iff.1 h, by simp⟩

/-! ## Adding bindings -/

theorem insertAll_cons (m : KeyMap α) (e : String × α) (es : List (String × α)) :
    m.insertAll (e :: es) = (m.insert e.1 e.2).insertAll es := rfl

theorem find?_insertAll {es : List (String × α)} (h : (es.map Prod.fst).Nodup) :
    (m.insertAll es).find? k = (es.lookup k).or (m.find? k) := by
  induction es generalizing m with
  | nil => simp [insertAll]
  | cons e es ih =>
      obtain ⟨j, w⟩ := e
      obtain ⟨hj, hes⟩ := List.nodup_cons.1 h
      rw [insertAll_cons, ih hes, find?_insert, Entries.lookup_cons_eq]
      by_cases hkj : k = j
      · subst hkj
        have hnone : es.lookup k = none := Entries.lookup_eq_none_iff_notMem.2 hj
        simp [hnone]
      · simp [hkj]

theorem mem_or_of_find?_insertAll {es : List (String × α)}
    (h : (m.insertAll es).find? k = some v) : (k, v) ∈ es ∨ m.find? k = some v := by
  induction es generalizing m with
  | nil => exact .inr h
  | cons e es ih =>
      rw [insertAll_cons] at h
      rcases ih h with hmem | hfind
      · exact .inl (List.mem_cons_of_mem _ hmem)
      · rw [find?_insert] at hfind
        split at hfind
        · rename_i heq
          obtain rfl := Option.some.inj hfind
          exact .inl (heq ▸ List.mem_cons_self)
        · exact .inr hfind

/-- Of two bindings of a key the second map's counts. -/
theorem find?_union : (m.union n).find? k = (n.find? k).or (m.find? k) :=
  find?_insertAll n.nodup_keys

theorem mem_keys_insertAll {es : List (String × α)} :
    k ∈ (m.insertAll es).keys ↔ k ∈ es.map Prod.fst ∨ k ∈ m.keys := by
  induction es generalizing m with
  | nil => simp [insertAll]
  | cons e es ih =>
      have hinsert : k ∈ (m.insert e.1 e.2).keys ↔ k = e.1 ∨ k ∈ m.keys := Entries.mem_keys_insert
      rw [insertAll_cons, ih, hinsert, List.map_cons, List.mem_cons]
      tauto

/-- A map made of a list has one binding for each that is listed only if no key is listed twice. -/
theorem size_ofList_eq_length_iff {es : List (String × α)} :
    (ofList es).size = es.length ↔ (es.map Prod.fst).Nodup := by
  have hkeys : (ofList es).keys.toFinset = (es.map Prod.fst).toFinset := by
    ext k
    rw [List.mem_toFinset, List.mem_toFinset, ofList, mem_keys_insertAll]
    simp [keys, EmptyCollection.emptyCollection, empty]
  have hsize : (ofList es).size = (es.map Prod.fst).toFinset.card := by
    rw [← hkeys, List.toFinset_card_of_nodup (nodup_keys _), keys, List.length_map, size]
  have hlength : es.length = (es.map Prod.fst).length := by simp
  rw [hsize, hlength]
  exact Multiset.toFinset_card_eq_card_iff_nodup (m := Multiset.ofList (es.map Prod.fst))

end KeyMap
end BehaviorTrees
