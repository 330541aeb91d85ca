import BehaviorTrees.Proofs.Catalog
import BehaviorTrees.Tree.Load

/-!
# The links of a record

From its root a record of a tree leads by links to further keys.  `TreeRecord.WellLinked` says when
these make a tree: the links of every node are such as its category can hold, they lead to nodes of
the record, and to each of them but once.
-/

namespace BehaviorTrees

variable {σ : Type}

/-- The keys that the record of a node refers to. -/
def NodeRecord.linked (r : NodeRecord) : List NodeId := r.children.getD [] ++ r.child.toList

/-- A node of a category can hold what a record refers to; an empty list of children is no link. -/
def Category.CanHold : Category → NodeRecord → Prop
  | .composite, r => r.child = none
  | .decorator, r => r.children.getD [] = []
  | .action, r | .condition, r => r.children.getD [] = [] ∧ r.child = none

theorem LeafKind.canHold_iff (k : LeafKind σ) {r : NodeRecord} :
    k.category.CanHold r ↔ r.children.getD [] = [] ∧ r.child = none := by
  cases k with
  | custom design =>
      rw [category]
      split <;> exact Iff.rfl
  | _ => exact Iff.rfl

theorem LeafKind.isLeaf_category (k : LeafKind σ) : k.category.isLeaf = true := by
  cases k with
  | custom design =>
      rw [category]
      split <;> rfl
  | _ => rfl

theorem NodeRecord.links_eq_ok_iff {r : NodeRecord} {key : NodeId} {category : Category}
    {ks : List NodeId} :
    r.links key category = .ok ks ↔ category.CanHold r ∧ r.linked = ks := by
  cases category <;> simp only [links, Category.CanHold, linked] <;>
    by_cases hchildren : r.children.getD [] = [] <;> cases hchild : r.child <;>
    simp [hchildren]

namespace TreeRecord

variable {names : Catalog σ} {d : TreeRecord} {root k k' c : NodeId} {r r' : NodeRecord}

/-- The keys to which links lead from a root, itself among them. -/
inductive Reaches (d : TreeRecord) (root : NodeId) : NodeId → Prop
  | root : Reaches d root root
  | link {k c : NodeId} {r : NodeRecord} (h : Reaches d root k) (hr : d.nodes.find? k = some r)
      (hc : c ∈ r.linked) : Reaches d root c

/-- The record of a key to which links lead. -/
def Uses (d : TreeRecord) (root k : NodeId) (r : NodeRecord) : Prop :=
  d.Reaches root k ∧ d.nodes.find? k = some r

/-- From a root the links of a record make a tree of nodes that can hold them. -/
structure WellLinked (names : Catalog σ) (d : TreeRecord) (root : NodeId) : Prop where
  isKey : d.nodes.contains root = true
  canHold : ∀ k r n, d.Uses root k r → names.Makes r n → n.category.CanHold r
  linkedIsKey : ∀ k r, d.Uses root k r → ∀ c ∈ r.linked, d.nodes.contains c = true
  linkedOnce : ∀ k r, d.Uses root k r → r.linked.Nodup
  parent_unique : ∀ k r k' r', d.Uses root k r → d.Uses root k' r' → ∀ c ∈ r.linked,
    c ∈ r'.linked → k = k'
  root_notLinked : ∀ k r, d.Uses root k r → root ∉ r.linked

theorem WellLinked.isKey_of_reaches (h : d.WellLinked names root) (hk : d.Reaches root k) :
    d.nodes.contains k = true := by
  cases hk with
  | root => exact h.isKey
  | link hk hr hc => exact h.linkedIsKey _ _ ⟨hk, hr⟩ _ hc

theorem WellLinked.exists_uses (h : d.WellLinked names root) (hk : d.Reaches root k) :
    ∃ r, d.Uses root k r := by
  obtain ⟨r, hr⟩ := KeyMap.contains_iff.1 (h.isKey_of_reaches hk)
  exact ⟨r, hk, hr⟩

end TreeRecord
end BehaviorTrees
