import BehaviorTrees.Node
import Mathlib.Data.List.Lattice
import Mathlib.Data.List.Nodup
import Mathlib.Data.List.Pairwise

/-!
# The nodes of a tree

`Node.nodes` lists a node and all that lies below it.  `Node.find?` finds nodes of this list only,
and one for each of their ids.  Where ids are distinct, the trees of two children have nothing in
common, and a `Node.LeafPath`, which descends from child to child down to a leaf, meets no node
twice.
-/

namespace BehaviorTrees.Node

variable {σ : Type}

/-- The nodes a node holds, whatever its category. -/
def kids : Node σ → List (Node σ)
  | composite _ _ cs => cs
  | decorator _ _ c => c.toList
  | leaf _ _ => []

mutual

/-- A node and all that lies below it, each before what it holds. -/
def nodes : Node σ → List (Node σ)
  | composite l k cs => composite l k cs :: nodesOf cs
  | decorator l k none => [decorator l k none]
  | decorator l k (some c) => decorator l k (some c) :: nodes c
  | leaf l k => [leaf l k]

def nodesOf : List (Node σ) → List (Node σ)
  | [] => []
  | c :: rest => nodes c ++ nodesOf rest

end

/-- The ids of a node and of all that lies below it. -/
def ids (n : Node σ) : List NodeId := n.nodes.map id

theorem nodesOf_eq_flatMap (cs : List (Node σ)) : nodesOf cs = cs.flatMap nodes := by
  induction cs with
  | nil => rfl
  | cons c rest ih => simp [nodesOf, ih]

theorem nodes_eq (n : Node σ) : n.nodes = n :: n.kids.flatMap nodes := by
  rcases n with ⟨l, k, cs⟩ | ⟨l, k, _ | c⟩ | ⟨l, k⟩ <;> simp [nodes, kids, nodesOf_eq_flatMap]

theorem ids_eq (n : Node σ) : n.ids = n.id :: n.kids.flatMap ids := by
  simp only [ids, nodes_eq n, List.map_cons, List.map_flatMap]
  rfl

mutual

/-- What holds of a node as soon as it holds of all the nodes it holds, holds of every node. -/
@[elab_as_elim]
theorem induct {P : Node σ → Prop} (step : ∀ n, (∀ c ∈ n.kids, P c) → P n) : ∀ n, P n
  | composite l k cs => step (composite l k cs) (inductOf step cs)
  | decorator l k none => step (decorator l k none) (by simp [kids])
  | decorator l k (some c) => step (decorator l k (some c)) (by simpa [kids] using induct step c)
  | leaf l k => step (leaf l k) (by simp [kids])

theorem inductOf {P : Node σ → Prop} (step : ∀ n, (∀ c ∈ n.kids, P c) → P n) :
    ∀ cs : List (Node σ), ∀ c ∈ cs, P c
  | [] => by simp
  | c :: rest => by
      intro d hd
      rcases List.mem_cons.1 hd with heq | hd
      · exact heq ▸ induct step c
      · exact inductOf step rest d hd

end

/-! ## Membership -/

theorem mem_nodes {n m : Node σ} : m ∈ n.nodes ↔ m = n ∨ ∃ c ∈ n.kids, m ∈ c.nodes := by
  rw [nodes_eq, List.mem_cons, List.mem_flatMap]

theorem mem_nodes_self (n : Node σ) : n ∈ n.nodes := mem_nodes.2 (.inl rfl)

theorem mem_nodes_of_kid {n c m : Node σ} (hc : c ∈ n.kids) (hm : m ∈ c.nodes) : m ∈ n.nodes :=
  mem_nodes.2 (.inr ⟨c, hc, hm⟩)

theorem mem_nodes_trans {n m d : Node σ} (hm : m ∈ n.nodes) (hd : d ∈ m.nodes) : d ∈ n.nodes := by
  induction n using induct with
  | step n ih =>
      rcases mem_nodes.1 hm with rfl | ⟨c, hc, hm⟩
      · exact hd
      · exact mem_nodes_of_kid hc (ih c hc hm)

theorem mem_ids {n : Node σ} {i : NodeId} : i ∈ n.ids ↔ ∃ m ∈ n.nodes, m.id = i := by
  simp [ids]

theorem id_mem_ids {n m : Node σ} (hm : m ∈ n.nodes) : m.id ∈ n.ids := mem_ids.2 ⟨m, hm, rfl⟩

theorem ids_subset {n m : Node σ} (hm : m ∈ n.nodes) : m.ids ⊆ n.ids := by
  intro i hi
  obtain ⟨d, hd, rfl⟩ := mem_ids.1 hi
  exact id_mem_ids (mem_nodes_trans hm hd)

theorem ids_subset_of_kid {n c : Node σ} (hc : c ∈ n.kids) : c.ids ⊆ n.ids :=
  ids_subset (mem_nodes_of_kid hc c.mem_nodes_self)

/-! ## Distinct ids -/

theorem nodup_ids_of_kid {n c : Node σ} (h : n.ids.Nodup) (hc : c ∈ n.kids) : c.ids.Nodup := by
  rw [ids_eq, List.nodup_cons, List.nodup_flatMap] at h
  exact h.2.1 c hc

theorem nodup_ids_of_mem {n m : Node σ} (h : n.ids.Nodup) (hm : m ∈ n.nodes) : m.ids.Nodup := by
  induction n using induct with
  | step n ih =>
      rcases mem_nodes.1 hm with rfl | ⟨c, hc, hm⟩
      · exact h
      · exact ih c hc (nodup_ids_of_kid h hc) hm

theorem id_notMem_ids_of_kid {n c : Node σ} (h : n.ids.Nodup) (hc : c ∈ n.kids) :
    n.id ∉ c.ids := by
  rw [ids_eq, List.nodup_cons] at h
  exact fun hi => h.1 (List.mem_flatMap.2 ⟨c, hc, hi⟩)

theorem eq_of_id_eq {n m m' : Node σ} (h : n.ids.Nodup) (hm : m ∈ n.nodes) (hm' : m' ∈ n.nodes)
    (hid : m.id = m'.id) : m = m' :=
  List.inj_on_of_nodup_map h hm hm' hid

theorem eq_of_map_id_eq {n : Node σ} (hn : n.ids.Nodup) {ms ms' : List (Node σ)} (hms : ms ⊆ n.nodes)
    (hms' : ms' ⊆ n.nodes) (h : ms.map id = ms'.map id) : ms = ms' := by
  induction ms generalizing ms' with
  | nil => exact (List.map_eq_nil_iff.1 h.symm).symm
  | cons m ms ih =>
      cases ms' with
      | nil => cases h
      | cons m' ms' =>
          obtain ⟨hm, hms⟩ := List.cons_subset.1 hms
          obtain ⟨hm', hms'⟩ := List.cons_subset.1 hms'
          obtain ⟨hid, hids⟩ := List.cons.inj h
          rw [eq_of_id_eq hn hm hm' hid, ih hms hms' hids]

/-- Two nodes that lie below one another are one node. -/
theorem eq_of_mem_nodes {n m : Node σ} (h : n.ids.Nodup) (hm : m ∈ n.nodes) (hn : n ∈ m.nodes) :
    m = n := by
  rcases mem_nodes.1 hm with rfl | ⟨c, hc, hm⟩
  · rfl
  · exact absurd (id_mem_ids (mem_nodes_trans hm hn)) (id_notMem_ids_of_kid h hc)

/-- The trees of two children of a node have nothing in common. -/
theorem kid_eq_of_mem_ids {n c c' : Node σ} (h : n.ids.Nodup) (hc : c ∈ n.kids)
    (hc' : c' ∈ n.kids) {i : NodeId} (hi : i ∈ c.ids) (hi' : i ∈ c'.ids) : c = c' := by
  rw [ids_eq, List.nodup_cons, List.nodup_flatMap] at h
  by_contra hne
  have : Std.Symm (Function.onFun List.Disjoint fun m : Node σ => m.ids) :=
    ⟨fun _ _ => List.Disjoint.symm⟩
  exact h.2.2.forall hc hc' hne hi hi'

/-! ## Looking nodes up -/

theorem findLast?_mem {i : NodeId} {cs : List (Node σ)} {m : Node σ}
    (ih : ∀ c ∈ cs, ∀ m, c.find? i = some m → m ∈ c.nodes ∧ m.id = i)
    (h : findLast? i cs = some m) : (∃ c ∈ cs, m ∈ c.nodes) ∧ m.id = i := by
  induction cs with
  | nil => simp [findLast?] at h
  | cons c rest ihrest =>
      rw [findLast?] at h
      cases hrest : findLast? i rest with
      | some found =>
          obtain rfl : found = m := by simpa [hrest] using h
          obtain ⟨⟨d, hd, hm⟩, hid⟩ := ihrest (fun d hd => ih d (by simp [hd])) hrest
          exact ⟨⟨d, by simp [hd], hm⟩, hid⟩
      | none =>
          obtain ⟨hm, hid⟩ := ih c (by simp) m (by simpa [hrest] using h)
          exact ⟨⟨c, by simp, hm⟩, hid⟩

/-- What is found is a node of the tree and has the id that was looked for. -/
theorem mem_of_find?_eq_some {n m : Node σ} {i : NodeId} (h : n.find? i = some m) :
    m ∈ n.nodes ∧ m.id = i := by
  induction n using induct generalizing m with
  | step n ih =>
      rcases n with ⟨l, k, cs⟩ | ⟨l, k, _ | c⟩ | ⟨l, k⟩ <;> rw [find?] at h <;> split at h
      case composite.isFalse =>
          obtain ⟨⟨c, hc, hm⟩, hid⟩ := findLast?_mem (fun c hc m hm => ih c hc hm) h
          exact ⟨mem_nodes_of_kid hc hm, hid⟩
      case decorator.some.isFalse =>
          obtain ⟨hm, hid⟩ := ih c (by simp [kids]) h
          exact ⟨mem_nodes_of_kid (by simp [kids]) hm, hid⟩
      all_goals cases h
      all_goals exact ⟨mem_nodes_self _, by assumption⟩

theorem findLast?_isSome {i : NodeId} {cs : List (Node σ)} {c : Node σ} (hc : c ∈ cs)
    (h : (c.find? i).isSome) : (findLast? i cs).isSome := by
  induction cs with
  | nil => simp at hc
  | cons d rest ih =>
      rw [findLast?]
      cases hrest : findLast? i rest with
      | some found => rfl
      | none =>
          rcases List.mem_cons.1 hc with rfl | hc
          · exact h
          · simpa [hrest] using ih hc

/-- Every id of the tree is found. -/
theorem find?_isSome {n : Node σ} {i : NodeId} (h : i ∈ n.ids) : (n.find? i).isSome := by
  induction n using induct with
  | step n ih =>
      rw [ids_eq, List.mem_cons, List.mem_flatMap] at h
      rcases n with ⟨l, k, cs⟩ | ⟨l, k, _ | c⟩ | ⟨l, k⟩ <;> rw [find?] <;> split <;> try rfl
      all_goals
        rename_i hne
        obtain ⟨c, hc, hi⟩ := h.resolve_left (fun heq => hne heq.symm)
      · exact findLast?_isSome hc (ih c hc hi)
      · simp [kids] at hc
      · obtain rfl : c = _ := by simpa [kids] using hc
        exact ih c (by simp [kids]) hi
      · simp [kids] at hc

/-! ## Paths down to a leaf -/

/-- The ids met on a way from a node down to a leaf, each the id of a child of the one before. -/
inductive LeafPath : Node σ → List NodeId → Node σ → Prop
  | leaf (l : Label) (k : LeafKind σ) : LeafPath (.leaf l k) [l.id] (.leaf l k)
  | down {n c ℓ : Node σ} {p : List NodeId} (hc : c ∈ n.kids) (hp : LeafPath c p ℓ) :
      LeafPath n (n.id :: p) ℓ

namespace LeafPath

variable {n ℓ ℓ' : Node σ} {p q : List NodeId}

theorem leaf_mem (h : LeafPath n p ℓ) : ℓ ∈ n.nodes := by
  induction h with
  | leaf l k => exact mem_nodes_self _
  | down hc _ ih => exact mem_nodes_of_kid hc ih

theorem leaf_id_mem (h : LeafPath n p ℓ) : ℓ.id ∈ p := by
  induction h with
  | leaf l k => exact List.mem_singleton_self _
  | down _ _ ih => exact List.mem_cons_of_mem _ ih

theorem subset_ids (h : LeafPath n p ℓ) : p ⊆ n.ids := by
  induction h with
  | leaf l k => simp [ids, nodes, Node.id, label]
  | @down n c ℓ p hc hp ih =>
      rw [ids_eq]
      refine List.cons_subset_cons _ fun i hi => ?_
      exact List.mem_flatMap.2 ⟨c, hc, ih hi⟩

theorem nodup (h : LeafPath n p ℓ) (hn : n.ids.Nodup) : p.Nodup := by
  induction h with
  | leaf l k => simp
  | down hc hp ih =>
      refine List.nodup_cons.2 ⟨fun hi => ?_, ih (nodup_ids_of_kid hn hc)⟩
      exact id_notMem_ids_of_kid hn hc (hp.subset_ids hi)

theorem exists_cons (h : LeafPath n p ℓ) : ∃ q, p = n.id :: q := by
  cases h with
  | leaf l k => exact ⟨[], rfl⟩
  | down hc hp => exact ⟨_, rfl⟩

/-- What is met are nodes of the tree. -/
theorem exists_nodes (h : LeafPath n p ℓ) : ∃ ms ⊆ n.nodes, ms.map Node.id = p := by
  induction h with
  | leaf l k => exact ⟨[.leaf l k], by simp [nodes], rfl⟩
  | @down n c ℓ p hc _ ih =>
      obtain ⟨ms, hms, rfl⟩ := ih
      refine ⟨n :: ms, List.cons_subset.2 ⟨n.mem_nodes_self, ?_⟩, rfl⟩
      exact fun m hm => mem_nodes_of_kid hc (hms hm)

end LeafPath
end BehaviorTrees.Node
