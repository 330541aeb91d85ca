import BehaviorTrees.Proofs.KeyMap
import BehaviorTrees.Proofs.Node.Subtree
import BehaviorTrees.Tree.Dump

/-!
# What a dump writes down

A dump goes through the nodes of a tree one after the other.  Its nodes are the records of these
under their ids, so where ids are distinct, each node has a record of its own there.
-/

namespace BehaviorTrees.Tree

variable {σ : Type} {t : Tree σ} {root : Node σ} {callerNames : List String}

theorem Inventory.addTrees_eq_foldl (cs : List (Node σ)) (v : Inventory) :
    Inventory.addTrees callerNames cs v =
      cs.foldl (fun v c => Inventory.addTree callerNames c v) v := by
  induction cs generalizing v with
  | nil => rfl
  | cons c rest ih => rw [Inventory.addTrees, ih, List.foldl_cons]

theorem Inventory.addTree_eq_foldl (n : Node σ) (v : Inventory) :
    Inventory.addTree callerNames n v =
      n.nodes.foldl (fun v m => Inventory.add callerNames m v) v := by
  induction n using Node.induct generalizing v with
  | step n ih =>
      have hkids : ∀ cs ⊆ n.kids, ∀ v, cs.foldl (fun v c => Inventory.addTree callerNames c v) v =
          (cs.flatMap Node.nodes).foldl (fun v m => Inventory.add callerNames m v) v := by
        intro cs hcs
        induction cs with
        | nil => exact fun v => rfl
        | cons c rest ihrest =>
            intro v
            obtain ⟨hc, hrest⟩ := List.cons_subset.1 hcs
            rw [List.foldl_cons, ih c hc, ihrest hrest, List.flatMap_cons, List.foldl_append]
      rw [Node.nodes_eq, List.foldl_cons, ← hkids _ (List.Subset.refl _)]
      rcases n with ⟨l, k, cs⟩ | ⟨l, k, _ | c⟩ | ⟨l, k⟩
      · rw [Inventory.addTree, Inventory.addTrees_eq_foldl]
        rfl
      all_goals rfl

/-- The bindings that a dump makes, one for each node. -/
def bindings (root : Node σ) : List (NodeId × NodeRecord) := root.nodes.map fun m => (m.id, m.record)

theorem keys_bindings (root : Node σ) : (bindings root).map Prod.fst = root.ids := by
  simp [bindings, Node.ids]

theorem Inventory.nodes_foldl_add (ms : List (Node σ)) (v : Inventory) :
    (ms.foldl (fun v m => Inventory.add callerNames m v) v).nodes =
      v.nodes.insertAll (ms.map fun m => (m.id, m.record)) := by
  induction ms generalizing v with
  | nil => rfl
  | cons m rest ih =>
      rw [List.foldl_cons, ih, List.map_cons, KeyMap.insertAll_cons]
      rfl

theorem nodes_dump (ht : t.root = some root) : t.dump.nodes = .ofList (bindings root) := by
  simp only [dump, inventory, ht, Inventory.addTree_eq_foldl, Inventory.nodes_foldl_add]
  rfl

theorem find?_nodes_dump (hroot : root.ids.Nodup) (ht : t.root = some root) {n : Node σ}
    (hn : n ∈ root.nodes) : t.dump.nodes.find? n.id = some n.record := by
  have hnodup : ((bindings root).map Prod.fst).Nodup := (keys_bindings root).symm ▸ hroot
  rw [nodes_dump ht, KeyMap.ofList, KeyMap.find?_insertAll hnodup, KeyMap.find?_empty,
    Option.or_none, Entries.lookup_eq_some_iff_mem hnodup]
  exact List.mem_map_of_mem hn

/-- There is nothing in a dump that is not the record of a node. -/
theorem exists_node_of_find?_dump {k : NodeId} {r : NodeRecord}
    (hr : t.dump.nodes.find? k = some r) :
    ∃ root, t.root = some root ∧ ∃ m ∈ root.nodes, m.id = k ∧ m.record = r := by
  cases ht : t.root with
  | none => simp [dump, inventory, ht] at hr
  | some root =>
      rw [nodes_dump ht] at hr
      obtain hmem | hnone := KeyMap.mem_or_of_find?_insertAll hr
      · obtain ⟨m, hm, heq⟩ := List.mem_map.1 hmem
        obtain ⟨rfl, rfl⟩ := Prod.mk.inj heq
        exact ⟨root, rfl, m, hm, rfl, rfl⟩
      · simp at hnone

/-- A dump has as many entries as the tree has nodes only if no two nodes have the same id. -/
theorem size_nodes_dump_eq_iff (ht : t.root = some root) :
    t.dump.nodes.size = root.nodes.length ↔ root.ids.Nodup := by
  have hlength : root.nodes.length = (bindings root).length := by simp [bindings]
  rw [nodes_dump ht, hlength, KeyMap.size_ofList_eq_length_iff, keys_bindings]

end BehaviorTrees.Tree
