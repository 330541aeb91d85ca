import BehaviorTrees.Proofs.Tree.Inventory

/-!
# Looking nodes up

An id is looked for in a fixed order: a node comes before what it holds, its one child before its
children, and of these the last comes first.  `Node.find?` gives the first node in this order that
has the id, and so does a search with a stack.  Where ids are distinct there is no other one, and
the nodes a dump lists can all be looked up.
-/

namespace BehaviorTrees

variable {σ : Type}

namespace Node

/-! ## The order of a search -/

mutual

/-- A node and all that lies below it, in the order in which an id is looked for. -/
def searchOrder : Node σ → List (Node σ)
  | composite l k cs => composite l k cs :: searchOrderOf cs
  | decorator l k none => [decorator l k none]
  | decorator l k (some c) => decorator l k (some c) :: searchOrder c
  | leaf l k => [leaf l k]

/-- The last of the nodes with what lies below it, then the one before it, and so on. -/
def searchOrderOf : List (Node σ) → List (Node σ)
  | [] => []
  | c :: rest => searchOrderOf rest ++ searchOrder c

end

theorem searchOrderOf_eq_flatMap (cs : List (Node σ)) :
    searchOrderOf cs = cs.reverse.flatMap searchOrder := by
  induction cs with
  | nil => rfl
  | cons c rest ih => simp [searchOrderOf, ih]

theorem searchOrder_eq_kids (n : Node σ) : n.searchOrder = n :: searchOrderOf n.kids := by
  rcases n with ⟨l, k, cs⟩ | ⟨l, k, _ | c⟩ | ⟨l, k⟩ <;> simp [searchOrder, searchOrderOf, kids]

/-- After a node comes its one child with what lies below it, then come its children, from the last
to the first. -/
theorem searchOrder_eq (n : Node σ) :
    n.searchOrder = n :: (n.child.toList ++ n.children.reverse).flatMap searchOrder := by
  rw [searchOrder_eq_kids, searchOrderOf_eq_flatMap]
  rcases n with ⟨l, k, cs⟩ | ⟨l, k, _ | c⟩ | ⟨l, k⟩ <;> simp [kids, child, children]

/-- The search misses no node. -/
theorem mem_searchOrder {n m : Node σ} : m ∈ n.searchOrder ↔ m ∈ n.nodes := by
  induction n using induct with
  | step n ih =>
      rw [searchOrder_eq_kids, searchOrderOf_eq_flatMap, mem_nodes, List.mem_cons, List.mem_flatMap]
      simp only [List.mem_reverse]
      exact or_congr_right (exists_congr fun c => and_congr_right fun hc => ih c hc)

/-! ## The node that is found -/

theorem find?_eq (n : Node σ) (i : NodeId) :
    n.find? i = if n.id = i then some n else findLast? i n.kids := by
  rcases n with ⟨l, k, cs⟩ | ⟨l, k, _ | c⟩ | ⟨l, k⟩ <;> rw [find?] <;> rfl

theorem findLast?_eq_searchOrderOf {i : NodeId} {cs : List (Node σ)}
    (h : ∀ c ∈ cs, c.find? i = c.searchOrder.find? (·.id = i)) :
    findLast? i cs = (searchOrderOf cs).find? (·.id = i) := by
  induction cs with
  | nil => rfl
  | cons c rest ih =>
      obtain ⟨hc, hrest⟩ := List.forall_mem_cons.1 h
      rw [findLast?, searchOrderOf, List.find?_append, ih hrest, hc]
      cases (searchOrderOf rest).find? (·.id = i) <;> rfl

/-- What is found is the first node in the order of the search that has the id. -/
theorem find?_eq_searchOrder (n : Node σ) (i : NodeId) :
    n.find? i = n.searchOrder.find? (·.id = i) := by
  induction n using induct with
  | step n ih =>
      rw [find?_eq, searchOrder_eq_kids, findLast?_eq_searchOrderOf ih]
      by_cases h : n.id = i <;> simp [h]

theorem find?_isSome_iff {n : Node σ} {i : NodeId} :
    (n.find? i).isSome ↔ ∃ m ∈ n.nodes, m.id = i := by
  rw [find?_eq_searchOrder, List.find?_isSome]
  simp [mem_searchOrder]

/-- Where ids are distinct, every node is found under its id. -/
theorem find?_id {n m : Node σ} (hn : n.ids.Nodup) (hm : m ∈ n.nodes) : n.find? m.id = some m := by
  obtain ⟨d, hd⟩ := Option.isSome_iff_exists.1 (find?_isSome (id_mem_ids hm))
  obtain ⟨hmem, hid⟩ := mem_of_find?_eq_some hd
  rw [hd, eq_of_id_eq hn hmem hm hid]

/-! ## A search with a stack -/

/-- Puts nodes on a stack, one after the other. -/
def push (stack nodes : List (Node σ)) : List (Node σ) :=
  nodes.foldl (fun stack c => c :: stack) stack

theorem push_eq (stack nodes : List (Node σ)) : push stack nodes = nodes.reverse ++ stack := by
  simp [push]

/-- Takes nodes from a stack until one has the id, and puts what each of the others holds there
instead: first its children in their order, then its one child. -/
def search (i : NodeId) : List (Node σ) → Option (Node σ)
  | [] => none
  | n :: rest =>
      if n.id = i then some n else search i (push (push rest n.children) n.child.toList)
termination_by stack => (stack.flatMap nodes).length
decreasing_by
  rcases n with ⟨l, k, cs⟩ | ⟨l, k, _ | c⟩ | ⟨l, k⟩ <;>
    simp [push_eq, nodes, children, child, nodesOf_eq_flatMap, List.flatMap]

theorem search_eq (i : NodeId) (stack : List (Node σ)) :
    search i stack = (stack.flatMap searchOrder).find? (·.id = i) := by
  fun_induction search i stack with
  | case1 => rfl
  | case2 n rest h => simp [searchOrder_eq n, h]
  | case3 n rest h ih =>
      rw [ih, push_eq, push_eq, List.flatMap_cons, searchOrder_eq n, List.cons_append,
        List.find?_cons_of_neg (by simpa using h)]
      cases n.child <;> simp

end Node

/-! ## The nodes of a dump -/

/-- A record says of a node what its author said, and which nodes it holds. -/
structure NodeRecord.Describes (r : NodeRecord) (n : Node σ) : Prop where
  id : r.id = some n.id
  name : r.name = n.name
  title : r.title = n.label.title
  description : r.description = n.label.description
  properties : r.properties = n.label.properties
  parameters : r.parameters = n.label.parameters
  children : r.children.getD [] = n.children.map Node.id
  child : r.child = n.child.map Node.id

theorem Node.record_describes (n : Node σ) : n.record.Describes n := by
  rcases n with ⟨l, k, cs⟩ | ⟨l, k, c⟩ | ⟨l, k⟩ <;> constructor <;> rfl

namespace Tree

variable {t : Tree σ} {root : Node σ}

/-- Whatever ids the nodes of a tree have, an id is found if and only if one of them has it, and what
is found is the first such node in the order of the search; a search with a stack finds the same.  If
the ids are distinct, every node is found under its id and no other node has it, and what is found
under a key of the dump of a tree is the node its entry describes. -/
theorem finds_first_in_order (n : Node σ) (i : NodeId) :
    ((n.find? i).isSome ↔ ∃ m ∈ n.nodes, m.id = i) ∧
      (∀ m, n.find? i = some m ↔ ∃ before after, n.searchOrder = before ++ m :: after ∧
        m.id = i ∧ ∀ d ∈ before, d.id ≠ i) ∧
      Node.search i [n] = n.find? i ∧
      (n.ids.Nodup →
        (∀ m ∈ n.nodes, m.id = i → n.find? i = some m ∧ ∀ d ∈ n.nodes, d.id = i → d = m) ∧
          ∀ t : Tree σ, t.root = some n →
            (∀ m ∈ n.nodes, m.id = i → ∃ r, t.dump.nodes.find? i = some r ∧ r.Describes m) ∧
              ∀ r, t.dump.nodes.find? i = some r →
                ∃ m, t.find? i = some m ∧ m.id = i ∧ r.Describes m) := by
  refine ⟨Node.find?_isSome_iff, fun m => ?_, ?_, fun hn => ⟨?_, fun t ht => ⟨?_, fun r hr => ?_⟩⟩⟩
  · rw [Node.find?_eq_searchOrder, List.find?_eq_some_iff_append]
    simp only [decide_eq_true_eq, Bool.not_eq_true', decide_eq_false_iff_not]
    tauto
  · rw [Node.search_eq, Node.find?_eq_searchOrder, List.flatMap_singleton]
  · rintro m hm rfl
    exact ⟨Node.find?_id hn hm, fun d hd hid => Node.eq_of_id_eq hn hd hm hid⟩
  · rintro m hm rfl
    exact ⟨m.record, find?_nodes_dump hn ht hm, m.record_describes⟩
  · obtain ⟨root, hroot, m, hm, rfl, rfl⟩ := exists_node_of_find?_dump hr
    obtain rfl : n = root := Option.some.inj (ht.symm.trans hroot)
    refine ⟨m, ?_, rfl, m.record_describes⟩
    rw [find?, ht, Option.bind_some, Node.find?_id hn hm]

/-! ## Two nodes of one id -/

def invertedLeaf : Node Unit :=
  .decorator { id := "i", title := "Inverter" } .inverter
    (some (.leaf { id := "a", title := "Below" } .failer))

def invertedTree : Tree Unit :=
  { id := "t", clock := .showing fun _ => 0, root := some invertedLeaf }

/-- A leaf that has the id of one below its neighbour. -/
def sharedIds : Node Unit :=
  .composite { id := "s", title := "Sequence" } .sequence
    [.leaf { id := "a", title := "Aside" } .succeeder, invertedLeaf]

theorem finds_first_in_order_sharedIds :
    ¬sharedIds.ids.Nodup ∧ invertedLeaf.ids.Nodup ∧
      (∃ m, sharedIds.find? "a" = some m ∧ Node.search "a" [sharedIds] = some m ∧
        m.label.title = "Below" ∧ ∃ before after, sharedIds.searchOrder = before ++ m :: after ∧
          m.id = "a" ∧ ∀ d ∈ before, d.id ≠ "a") ∧
      ∃ m r, invertedTree.dump.nodes.find? "a" = some r ∧ invertedTree.find? "a" = some m ∧
        m.id = "a" ∧ r.Describes m := by
  have hnodup : invertedLeaf.ids.Nodup := by decide
  obtain ⟨-, hfirst, hsearch, -⟩ := finds_first_in_order sharedIds "a"
  obtain ⟨-, -, -, hdistinct⟩ := finds_first_in_order invertedLeaf "a"
  obtain ⟨-, hdump⟩ := hdistinct hnodup
  obtain ⟨hlisted, hfound⟩ := hdump invertedTree rfl
  have hbelow : sharedIds.find? "a" = some (.leaf { id := "a", title := "Below" } .failer) := rfl
  obtain ⟨r, hr, -⟩ := hlisted (.leaf { id := "a", title := "Below" } .failer)
    (by simp [invertedLeaf, Node.nodes]) rfl
  obtain ⟨m, hm, hid, hdescribes⟩ := hfound r hr
  exact ⟨by decide, hnodup, ⟨_, hbelow, hsearch.trans hbelow, rfl, (hfirst _).1 hbelow⟩,
    m, r, hr, hm, hid, hdescribes⟩

end Tree
end BehaviorTrees
