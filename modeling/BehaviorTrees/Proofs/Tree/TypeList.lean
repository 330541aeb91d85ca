import BehaviorTrees.Proofs.Tree.Editing
import BehaviorTrees.Proofs.Tree.Inventory

/-!
# The node types a dump lists

Going through the nodes of a tree in preorder, a dump lists the types that are not of the library
or that the last loading took from the caller's catalog: each once, at the place of the first node
that has it, and with the title and category of that node.  A walk with a stack, which puts the
children of a node there from the last to the first, comes to the same dump.
-/

namespace BehaviorTrees.Tree

variable {σ : Type} {callerNames : List String} {ms : List (Node σ)}

/-! ## The first node of a type -/

/-- The first node of the list whose type has a given name. -/
def firstOf (ms : List (Node σ)) (name : String) : Option (Node σ) := ms.find? (·.name = name)

/-- The place of that node in the list. -/
def firstPlace (ms : List (Node σ)) (name : String) : Nat := ms.findIdx (·.name = name)

theorem firstOf_isSome_iff {name : String} :
    (firstOf ms name).isSome ↔ ∃ m ∈ ms, m.name = name := by
  simp [firstOf]

theorem exists_mem_append_singleton {m : Node σ} {name : String} :
    (∃ d ∈ ms ++ [m], d.name = name) ↔ (∃ d ∈ ms, d.name = name) ∨ m.name = name := by
  simp [or_and_right, exists_or]

theorem firstOf_append_of_mem {name : String} (h : ∃ m ∈ ms, m.name = name) (m : Node σ) :
    firstOf (ms ++ [m]) name = firstOf ms name := by
  obtain ⟨d, hd⟩ := Option.isSome_iff_exists.1 (firstOf_isSome_iff.2 h)
  rw [firstOf] at hd
  rw [firstOf, firstOf, List.find?_append, hd, Option.some_or]

theorem firstPlace_lt_length {name : String} (h : ∃ m ∈ ms, m.name = name) :
    firstPlace ms name < ms.length := by
  obtain ⟨m, hm, hname⟩ := h
  exact List.findIdx_lt_length_of_exists ⟨m, hm, by simpa using hname⟩

theorem firstPlace_append_of_mem {name : String} (h : ∃ m ∈ ms, m.name = name) (m : Node σ) :
    firstPlace (ms ++ [m]) name = firstPlace ms name := by
  have hlt := firstPlace_lt_length h
  rw [firstPlace] at hlt
  rw [firstPlace, firstPlace, List.findIdx_append, if_pos hlt]

theorem firstOf_append_self {m : Node σ} (h : ¬∃ d ∈ ms, d.name = m.name) :
    firstOf (ms ++ [m]) m.name = some m := by
  have hnone : firstOf ms m.name = none := by
    rw [← Option.not_isSome_iff_eq_none, firstOf_isSome_iff]
    exact h
  rw [firstOf] at hnone
  rw [firstOf, List.find?_append, hnone]
  simp

theorem firstPlace_append_self {m : Node σ} (h : ¬∃ d ∈ ms, d.name = m.name) :
    firstPlace (ms ++ [m]) m.name = ms.length := by
  have hlength : ms.findIdx (fun d => decide (d.name = m.name)) = ms.length := by
    apply List.findIdx_eq_length_of_false
    intro d hd
    simpa using fun hname => h ⟨d, hd, hname⟩
  rw [firstPlace, List.findIdx_append, hlength, if_neg (by omega)]
  simp

/-! ## The list of types -/

/-- What is listed of a type, given the node it was met at. -/
def typeRecord (m : Node σ) : TypeRecord := ⟨m.name, m.label.title, m.category⟩

/-- A list of types, the last one first, as it has to be when some nodes were gone through. -/
structure Lists (callerNames : List String) (ms : List (Node σ)) (types : List TypeRecord) :
    Prop where
  mem_names_iff : ∀ name, name ∈ types.map (·.name) ↔
    (∃ m ∈ ms, m.name = name) ∧ isCustom callerNames name = true
  ordered : types.Pairwise fun y x => firstPlace ms x.name < firstPlace ms y.name
  first : ∀ x ∈ types, ∃ m, firstOf ms x.name = some m ∧ x = typeRecord m

theorem lists_nil : Lists callerNames ([] : List (Node σ)) [] where
  mem_names_iff := by simp
  ordered := .nil
  first := by simp

theorem Lists.exists_node {types : List TypeRecord} (h : Lists callerNames ms types)
    {x : TypeRecord} (hx : x ∈ types) : ∃ m ∈ ms, m.name = x.name :=
  ((h.mem_names_iff x.name).1 (List.mem_map_of_mem hx)).1

theorem Lists.ordered_append {types : List TypeRecord} (h : Lists callerNames ms types)
    (m : Node σ) : types.Pairwise fun y x =>
      firstPlace (ms ++ [m]) x.name < firstPlace (ms ++ [m]) y.name := by
  refine h.ordered.imp_of_mem fun hy hx hlt => ?_
  rwa [firstPlace_append_of_mem (h.exists_node hx), firstPlace_append_of_mem (h.exists_node hy)]

theorem Lists.first_append {types : List TypeRecord} (h : Lists callerNames ms types) (m : Node σ)
    {x : TypeRecord} (hx : x ∈ types) :
    ∃ d, firstOf (ms ++ [m]) x.name = some d ∧ x = typeRecord d := by
  rw [firstOf_append_of_mem (h.exists_node hx)]
  exact h.first x hx

/-- A type that need not be listed, or was listed before, changes nothing. -/
theorem Lists.skip {types : List TypeRecord} (h : Lists callerNames ms types) {m : Node σ}
    (hm : isCustom callerNames m.name = true → m.name ∈ types.map (·.name)) :
    Lists callerNames (ms ++ [m]) types where
  mem_names_iff := by
    intro name
    rw [h.mem_names_iff, exists_mem_append_singleton]
    constructor
    · rintro ⟨hd, hcustom⟩
      exact ⟨.inl hd, hcustom⟩
    · rintro ⟨hd | rfl, hcustom⟩
      · exact ⟨hd, hcustom⟩
      · exact (h.mem_names_iff m.name).1 (hm hcustom)
  ordered := h.ordered_append m
  first _ hx := h.first_append m hx

/-- A type met for the first time comes after all that were listed. -/
theorem Lists.enter {types : List TypeRecord} (h : Lists callerNames ms types) {m : Node σ}
    (hcustom : isCustom callerNames m.name = true) (hm : m.name ∉ types.map (·.name)) :
    Lists callerNames (ms ++ [m]) (typeRecord m :: types) := by
  have hnew : ¬∃ d ∈ ms, d.name = m.name :=
    fun hd => hm ((h.mem_names_iff m.name).2 ⟨hd, hcustom⟩)
  constructor
  case mem_names_iff =>
    intro name
    rw [List.map_cons, List.mem_cons, h.mem_names_iff, exists_mem_append_singleton]
    constructor
    · rintro (rfl | ⟨hd, hlisted⟩)
      · exact ⟨.inr rfl, hcustom⟩
      · exact ⟨.inl hd, hlisted⟩
    · rintro ⟨hd | rfl, hlisted⟩
      · exact .inr ⟨hd, hlisted⟩
      · exact .inl rfl
  case ordered =>
    refine List.pairwise_cons.2 ⟨fun x hx => ?_, h.ordered_append m⟩
    have hlt := firstPlace_lt_length (h.exists_node hx)
    have hself : firstPlace (ms ++ [m]) (typeRecord m).name = ms.length :=
      firstPlace_append_self hnew
    rwa [firstPlace_append_of_mem (h.exists_node hx), hself]
  case first =>
    intro x hx
    rcases List.mem_cons.1 hx with rfl | hx
    · exact ⟨m, firstOf_append_self hnew, rfl⟩
    · exact h.first_append m hx

theorem any_name_eq_true_iff {types : List TypeRecord} {name : String} :
    types.any (·.name = name) = true ↔ name ∈ types.map (·.name) := by
  simp

theorem Lists.add {v : Inventory} (h : Lists callerNames ms v.types) (m : Node σ) :
    Lists callerNames (ms ++ [m]) (v.add callerNames m).types := by
  simp only [Inventory.add]
  split
  · rename_i hnew
    rw [Bool.and_eq_true, Bool.not_eq_true', ← Bool.not_eq_true, any_name_eq_true_iff] at hnew
    exact h.enter hnew.1 hnew.2
  · rename_i hold
    rw [Bool.and_eq_true, Bool.not_eq_true', ← Bool.not_eq_true, any_name_eq_true_iff] at hold
    exact h.skip fun hcustom => by_contra fun hm => hold ⟨hcustom, hm⟩

/-- After any number of nodes the list is as it has to be. -/
theorem lists_foldl_add (ms : List (Node σ)) :
    Lists callerNames ms
      (ms.foldl (fun v m => Inventory.add callerNames m v) ({} : Inventory)).types := by
  -- nodes are added at the end, and a type is listed if none before it has the name
  induction ms using List.reverseRecOn with
  | nil => exact lists_nil
  | append_singleton ms m ih =>
      rw [List.foldl_append]
      exact ih.add m

/-! ## A walk with a stack -/

/-- How far a walk through a tree has come. -/
structure Walk (σ : Type) where
  /-- The nodes to be visited, the next one first. -/
  stack : List (Node σ)
  /-- The names of the types that were listed. -/
  seen : List String := []
  types : List TypeRecord := []
  nodes : KeyMap NodeRecord := ∅

/-- Puts what a node holds on a stack, the children of a composite one by one from the last on. -/
def pushKids : Node σ → List (Node σ) → List (Node σ)
  | .composite _ _ cs, stack => cs.reverse.foldl (fun stack c => c :: stack) stack
  | .decorator _ _ (some c), stack => c :: stack
  | .decorator _ _ none, stack => stack
  | .leaf _ _, stack => stack

theorem pushKids_eq (n : Node σ) (stack : List (Node σ)) : pushKids n stack = n.kids ++ stack := by
  rcases n with ⟨l, k, cs⟩ | ⟨l, k, _ | c⟩ | ⟨l, k⟩
  · simp [pushKids, Node.kids]
  all_goals rfl

namespace Walk

def visit (callerNames : List String) (n : Node σ) (rest : List (Node σ)) (w : Walk σ) : Walk σ :=
  let isNew := isCustom callerNames n.name && !w.seen.contains n.name
  { stack := pushKids n rest
    seen := if isNew then n.name :: w.seen else w.seen
    types := if isNew then w.types ++ [typeRecord n] else w.types
    nodes := w.nodes.insert n.id n.record }

theorem stack_visit (n : Node σ) (rest : List (Node σ)) (w : Walk σ) :
    (w.visit callerNames n rest).stack = n.kids ++ rest := pushKids_eq n rest

/-- How many nodes are still to be visited. -/
def left (w : Walk σ) : Nat := (w.stack.flatMap Node.nodes).length

theorem left_visit (n : Node σ) (rest : List (Node σ)) (w : Walk σ) (h : w.stack = n :: rest) :
    (w.visit callerNames n rest).left < w.left := by
  simp only [left, stack_visit, h, List.flatMap_append, List.flatMap_cons,
    List.length_append, Node.nodes_eq n, List.length_cons]
  omega

/-- Visits nodes until the stack is empty. -/
def run (callerNames : List String) (w : Walk σ) : Walk σ :=
  match _hstack : w.stack with
  | [] => w
  | n :: rest => run callerNames (w.visit callerNames n rest)
termination_by w.left
decreasing_by exact left_visit n rest w _hstack

/-- A walk and an inventory that have come to the same. -/
structure Tracks (w : Walk σ) (v : Inventory) : Prop where
  seen : w.seen = v.types.map (·.name)
  types : w.types = v.types.reverse
  nodes : w.nodes = v.nodes

theorem Tracks.visit {w : Walk σ} {v : Inventory} (h : w.Tracks v) (n : Node σ)
    (rest : List (Node σ)) : (w.visit callerNames n rest).Tracks (v.add callerNames n) := by
  have hseen : w.seen.contains n.name = v.types.any (·.name = n.name) := by
    rw [Bool.eq_iff_iff, any_name_eq_true_iff, h.seen, List.contains_iff_mem]
  constructor
  case nodes => exact congrArg (·.insert n.id n.record) h.nodes
  all_goals
    simp only [Walk.visit, Inventory.add, hseen]
    split
    · simp [h.seen, h.types, typeRecord]
    · simp [h.seen, h.types]

/-- The nodes left are visited in preorder. -/
theorem Tracks.run {w : Walk σ} {v : Inventory} (h : w.Tracks v) :
    (w.run callerNames).Tracks
      ((w.stack.flatMap Node.nodes).foldl (fun v m => Inventory.add callerNames m v) v) := by
  fun_induction Walk.run callerNames w generalizing v with
  | case1 w hstack =>
      rw [hstack]
      exact h
  | case2 w n rest hstack ih =>
      have hvisit := ih (h.visit n rest)
      rw [stack_visit] at hvisit
      rw [hstack, List.flatMap_cons, Node.nodes_eq, List.cons_append, List.foldl_cons,
        ← List.flatMap_append]
      exact hvisit

end Walk

/-! ## Dumps -/

variable {t : Tree σ}

/-- The nodes of a tree in preorder, the children of a node from left to right. -/
def preorder (t : Tree σ) : List (Node σ) := t.root.toList.flatMap Node.nodes

theorem inventory_eq_foldl : t.inventory =
    t.preorder.foldl (fun v m => Inventory.add t.callerNames m v) ({} : Inventory) := by
  rw [inventory, preorder]
  cases t.root with
  | none => rfl
  | some root => simp [Inventory.addTree_eq_foldl]

theorem mem_keys_dump {k : NodeId} : k ∈ t.dump.nodes.keys ↔ ∃ m ∈ t.preorder, m.id = k := by
  have hnodes : t.dump.nodes = .insertAll ∅ (t.preorder.map fun m => (m.id, m.record)) := by
    rw [dump, inventory_eq_foldl, Inventory.nodes_foldl_add]
  rw [hnodes, KeyMap.mem_keys_insertAll]
  simp [KeyMap.keys, EmptyCollection.emptyCollection, KeyMap.empty]

/-- However a tree was made and edited, a dump lists exactly the types of its nodes that are not of
the library or that the last successful loading took from the caller's catalog: each once, in the
order in which a walk from left to right first meets them, and as the first node met says.  It
writes the nodes down under exactly their ids, and a walk with a stack gives the same dump. -/
theorem dump_lists_types (id : TreeId) (clock : Clock σ) (root : Option (Node σ))
    (edits : List (Edit σ)) :
    let start : Tree σ := { id, clock, root }
    let t := start.editAll edits
    let walk : Walk σ := .run t.callerNames { stack := t.root.toList }
    (∀ name, name ∈ t.dump.customNodes.map (·.name) ↔
      (∃ m ∈ t.preorder, m.name = name) ∧
        (name ∉ Catalog.builtinNames ∨
          ∃ r names, start.lastLoaded? edits = some (r, names) ∧
            names.contains name = true ∧ ∃ e ∈ r.nodes.entries, e.2.name = name)) ∧
      (t.dump.customNodes.map (·.name)).Nodup ∧
      t.dump.customNodes.Pairwise (fun x y =>
        firstPlace t.preorder x.name < firstPlace t.preorder y.name) ∧
      (∀ x ∈ t.dump.customNodes, ∃ m, firstOf t.preorder x.name = some m ∧
        x.name = m.name ∧ x.title = m.label.title ∧ x.category = m.category) ∧
      (∀ k, k ∈ t.dump.nodes.keys ↔ ∃ m ∈ t.preorder, m.id = k) ∧
      walk.types = t.dump.customNodes ∧ walk.nodes = t.dump.nodes := by
  intro start t walk
  have hlists : Lists t.callerNames t.preorder t.inventory.types := by
    rw [inventory_eq_foldl]
    exact lists_foldl_add _
  have hordered : t.dump.customNodes.Pairwise fun x y =>
      firstPlace t.preorder x.name < firstPlace t.preorder y.name :=
    List.pairwise_reverse.2 hlists.ordered
  have hwalk : walk.Tracks t.inventory := by
    rw [inventory_eq_foldl]
    exact Walk.Tracks.run ⟨rfl, rfl, rfl⟩
  have hnames : ∀ name, isCustom t.callerNames name = true ↔ name ∉ Catalog.builtinNames ∨
      ∃ r names, start.lastLoaded? edits = some (r, names) ∧
        names.contains name = true ∧ ∃ e ∈ r.nodes.entries, e.2.name = name := by
    intro name
    rw [isCustom, Bool.or_eq_true, List.contains_iff_mem, callerNames_editAll start edits,
      mem_namesAfter rfl]
    simp [Catalog.isBuiltin]
  refine ⟨fun name => ?_, ?_, hordered, fun x hx => ?_, fun k => mem_keys_dump, hwalk.types,
    hwalk.nodes⟩
  · rw [← hnames, ← hlists.mem_names_iff, dump, List.map_reverse, List.mem_reverse]
  · refine List.pairwise_map.2 (hordered.imp fun hlt heq => ?_)
    rw [heq] at hlt
    omega
  · obtain ⟨m, hm, rfl⟩ := hlists.first x (List.mem_reverse.1 hx)
    exact ⟨m, hm, rfl, rfl, rfl⟩

end BehaviorTrees.Tree
