import BehaviorTrees.Json

/-!
# The blackboard

Memory in three tiers: one global, one for each tree, and one for each node of each tree.  The
memory of a tree comes into being with the first write to it.  A node scope without a tree scope
means the global tier.

`get_set` reduces the tiers to one flat map: a write is seen exactly at its key and at the
`Address` its scopes resolve to.
-/

namespace BehaviorTrees

abbrev NodeId := String

abbrev TreeId := String

/-- The values kept in one place. -/
abbrev Memory := KeyMap Json

structure TreeMemory where
  shared : Memory := ∅
  nodes : KeyMap Memory := ∅

structure Blackboard where
  base : Memory := ∅
  trees : KeyMap TreeMemory := ∅

/-- The tree and the node a memory belongs to, as far as they are given. -/
structure Scope where
  tree : Option TreeId := none
  node : Option NodeId := none
deriving DecidableEq

/-- Where a scope leads. -/
inductive Address where
  | base
  | tree (tree : TreeId)
  | node (tree : TreeId) (node : NodeId)
deriving DecidableEq

namespace Scope

def global : Scope := ⟨none, none⟩

def ofTree (t : TreeId) : Scope := ⟨some t, none⟩

def ofNode (t : TreeId) (n : NodeId) : Scope := ⟨some t, some n⟩

def address : Scope → Address
  | ⟨none, _⟩ => .base
  | ⟨some t, none⟩ => .tree t
  | ⟨some t, some n⟩ => .node t n

end Scope

namespace Blackboard

instance : EmptyCollection Blackboard := ⟨⟨∅, ∅⟩⟩
instance : Inhabited Blackboard := ⟨∅⟩

def get (b : Blackboard) (key : String) (scope : Scope) : Option Json :=
  match scope with
  | ⟨none, _⟩ => b.base.find? key
  | ⟨some t, none⟩ => (b.trees.find? t).bind (·.shared.find? key)
  | ⟨some t, some n⟩ => ((b.trees.find? t).bind (·.nodes.find? n)).bind (·.find? key)

def set (b : Blackboard) (key : String) (value : Json) (scope : Scope) : Blackboard :=
  match scope with
  | ⟨none, _⟩ => { b with base := b.base.insert key value }
  | ⟨some t, none⟩ =>
      let memory := (b.trees.find? t).getD {}
      { b with trees := b.trees.insert t { memory with shared := memory.shared.insert key value } }
  | ⟨some t, some n⟩ =>
      let memory := (b.trees.find? t).getD {}
      let own := (memory.nodes.find? n).getD ∅
      { b with
        trees := b.trees.insert t
          { memory with nodes := memory.nodes.insert n (own.insert key value) } }

def contains (b : Blackboard) (key : String) (scope : Scope) : Bool :=
  (b.get key scope).isSome

/-- Whether anything was ever written to a tree's memory or to that of its nodes. -/
def hasTree (b : Blackboard) (t : TreeId) : Bool := b.trees.contains t

@[simp] theorem get_empty (key : String) (scope : Scope) :
    (∅ : Blackboard).get key scope = none := by
  rcases scope with ⟨_ | t, _ | n⟩ <;> rfl

/-- A write is seen under its key by the scopes that lead to the same address, and nowhere
else. -/
theorem get_set (b : Blackboard) (key key' : String) (value : Json) (scope scope' : Scope) :
    (b.set key value scope).get key' scope' =
      if key' = key ∧ scope'.address = scope.address then some value
      else b.get key' scope' := by
  rcases scope with ⟨_ | t, _ | n⟩ <;> rcases scope' with ⟨_ | t', _ | n'⟩ <;>
    simp only [set, get, Scope.address, KeyMap.find?_insert, reduceCtorEq, and_false, and_true,
      if_false, Address.tree.injEq, Address.node.injEq]
  · by_cases ht : t' = t
    · subst ht
      by_cases hk : key' = key <;> cases b.trees.find? t' <;>
        simp [hk, KeyMap.find?_insert]
    · simp [ht]
  · by_cases ht : t' = t
    · subst ht
      cases b.trees.find? t' <;> simp
    · simp [ht]
  · by_cases ht : t' = t
    · subst ht
      cases b.trees.find? t' <;> simp
    · simp [ht]
  · by_cases ht : t' = t
    · subst ht
      by_cases hn : n' = n
      · subst hn
        cases b.trees.find? t' with
        | none => by_cases hk : key' = key <;> simp [hk, KeyMap.find?_insert]
        | some m =>
            cases hm : m.nodes.find? n' <;> by_cases hk : key' = key <;>
              simp [hk, hm, KeyMap.find?_insert]
      · cases b.trees.find? t' <;> simp [hn, KeyMap.find?_insert]
    · simp [ht]

theorem hasTree_set (b : Blackboard) (key : String) (value : Json) (scope : Scope) (t : TreeId) :
    (b.set key value scope).hasTree t = (decide (scope.tree = some t) || b.hasTree t) := by
  rcases scope with ⟨_ | t', _ | n⟩
  · simp [set, hasTree]
  · simp [set, hasTree]
  all_goals
    by_cases h : t = t'
    · subst h
      simp [set, hasTree, KeyMap.contains]
    · simp [set, hasTree, KeyMap.contains, KeyMap.find?_insert, h, Ne.symm h]

end Blackboard
end BehaviorTrees
