/-!
# Maps in key order

A `KeyMap` lists its bindings by strictly increasing key, keys being compared code point by code
point.  `find?_insert` says what an insertion does to every look-up.
-/

namespace BehaviorTrees

universe u v
variable {α : Type u} {β : Type v}

namespace Entries

/-- Puts a binding where it belongs, in place of an earlier one of the same key. -/
def insert (k : String) (v : α) : List (String × α) → List (String × α)
  | [] => [(k, v)]
  | (k', v') :: rest =>
      if k < k' then (k, v) :: (k', v') :: rest
      else if k = k' then (k, v) :: rest
      else (k', v') :: insert k v rest

/-- Key order with every key at most once. -/
def Ordered (entries : List (String × α)) : Prop :=
  entries.Pairwise (fun a b => a.1 < b.1)

instance (entries : List (String × α)) : Decidable (Ordered entries) :=
  inferInstanceAs (Decidable (entries.Pairwise _))

theorem lt_of_not_lt_of_ne {a b : String} (h : ¬a < b) (hne : a ≠ b) : b < a :=
  Decidable.byContradiction fun h' =>
    hne (String.le_antisymm (String.not_lt.1 h') (String.not_lt.1 h))

theorem mem_insert {k : String} {v : α} {entries : List (String × α)} {e : String × α}
    (h : e ∈ insert k v entries) : e = (k, v) ∨ e ∈ entries := by
  induction entries with
  | nil => simpa [insert] using h
  | cons head rest ih =>
      obtain ⟨k', v'⟩ := head
      rw [insert] at h
      split at h
      · simpa using h
      · split at h
        · rcases List.mem_cons.1 h with rfl | h
          · exact .inl rfl
          · exact .inr (List.mem_cons_of_mem _ h)
        · rcases List.mem_cons.1 h with rfl | h
          · exact .inr (List.mem_cons_self ..)
          · exact (ih h).imp id (List.mem_cons_of_mem _)

theorem Ordered.insert {entries : List (String × α)} (h : Ordered entries) (k : String) (v : α) :
    Ordered (insert k v entries) := by
  induction entries with
  | nil => simp [Entries.insert, Ordered]
  | cons head rest ih =>
      obtain ⟨k', v'⟩ := head
      obtain ⟨hhead, hrest⟩ := List.pairwise_cons.1 h
      rw [Entries.insert]
      split
      · rename_i hlt
        refine List.pairwise_cons.2 ⟨fun e he => ?_, h⟩
        rcases List.mem_cons.1 he with rfl | he
        · exact hlt
        · exact String.lt_trans hlt (hhead e he)
      · rename_i hlt
        split
        · rename_i heq
          subst heq
          exact List.pairwise_cons.2 ⟨hhead, hrest⟩
        · rename_i hne
          refine List.pairwise_cons.2 ⟨fun e he => ?_, ih hrest⟩
          rcases mem_insert he with rfl | he
          · exact lt_of_not_lt_of_ne hlt hne
          · exact hhead e he

theorem lookup_cons_eq (k k' : String) (v : α) (entries : List (String × α)) :
    ((k, v) :: entries).lookup k' = if k' = k then some v else entries.lookup k' := by
  by_cases h : k' = k
  · simp [h]
  · have hb : (k' == k) = false := by simpa using h
    simp [List.lookup_cons, hb, h]

theorem lookup_insert (k k' : String) (v : α) (entries : List (String × α)) :
    (insert k v entries).lookup k' = if k' = k then some v else entries.lookup k' := by
  induction entries with
  | nil => simp [insert, lookup_cons_eq]
  | cons head rest ih =>
      obtain ⟨j, w⟩ := head
      rw [insert]
      split
      · simp [lookup_cons_eq]
      · split
        · rename_i heq
          subst heq
          by_cases h : k' = k <;> simp [lookup_cons_eq, h]
        · rename_i hne
          by_cases h : k' = j
          · subst h
            simp [Ne.symm hne]
          · simp [lookup_cons_eq, h, ih]

end Entries

/-- Bindings in strictly increasing key order: each key once. -/
structure KeyMap (α : Type u) where
  entries : List (String × α)
  ordered : Entries.Ordered entries
deriving DecidableEq

namespace KeyMap

def empty : KeyMap α := ⟨[], List.Pairwise.nil⟩

instance : EmptyCollection (KeyMap α) := ⟨empty⟩
instance : Inhabited (KeyMap α) := ⟨empty⟩

def insert (m : KeyMap α) (k : String) (v : α) : KeyMap α :=
  ⟨Entries.insert k v m.entries, m.ordered.insert k v⟩

def find? (m : KeyMap α) (k : String) : Option α := m.entries.lookup k

def contains (m : KeyMap α) (k : String) : Bool := (m.find? k).isSome

def keys (m : KeyMap α) : List String := m.entries.map Prod.fst

def size (m : KeyMap α) : Nat := m.entries.length

def isEmpty (m : KeyMap α) : Bool := m.entries.isEmpty

def erase (m : KeyMap α) (k : String) : KeyMap α :=
  ⟨m.entries.filter (·.1 ≠ k), m.ordered.filter _⟩

/-- Adds the bindings of a list one after the other; a later one wins. -/
def insertAll (m : KeyMap α) (entries : List (String × α)) : KeyMap α :=
  entries.foldl (fun m e => m.insert e.1 e.2) m

def ofList (entries : List (String × α)) : KeyMap α := insertAll ∅ entries

/-- All bindings of both maps, the second's where both have one. -/
def union (m n : KeyMap α) : KeyMap α := m.insertAll n.entries

@[simp] theorem find?_empty (k : String) : (∅ : KeyMap α).find? k = none := rfl

theorem find?_insert (m : KeyMap α) (k k' : String) (v : α) :
    (m.insert k v).find? k' = if k' = k then some v else m.find? k' :=
  Entries.lookup_insert k k' v m.entries

@[simp] theorem find?_insert_self (m : KeyMap α) (k : String) (v : α) :
    (m.insert k v).find? k = some v := by
  simp [find?_insert]

theorem find?_insert_of_ne (m : KeyMap α) {k k' : String} (h : k' ≠ k) (v : α) :
    (m.insert k v).find? k' = m.find? k' := by
  simp [find?_insert, h]

end KeyMap
end BehaviorTrees
