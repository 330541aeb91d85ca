import BehaviorTrees.Proofs.Node.Subtree
import BehaviorTrees.Traversal

/-!
# Orderly nodes

A run keeps records of its own on the blackboard: under `Key.ofTree` in the memory of the tree,
under `Key.ofNode` in that of its nodes.  A node is `Standard` if it is of a kind of the library, or
a leaf whose hooks leave those records alone, whatever else they do.  It is `Orderly` if this holds
of all the nodes below it as well.
-/

namespace BehaviorTrees

variable {σ : Type}

namespace Key

/-- The records of a tree. -/
def ofTree : List String := [openNodes, nodeCount]

/-- The records of a node. -/
def ofNode : List String := [isOpen, runningChild, startTime, count]

end Key

namespace Blackboard

/-- Whether a node is marked as open. -/
def flagged (t : TreeId) (b : Blackboard) (id : NodeId) : Bool :=
  ((b.get Key.isOpen (.ofNode t id)).bind Json.bool?).getD false

/-- Two blackboards agree on the records of the runs of a tree. -/
structure SameRecords (t : TreeId) (b b' : Blackboard) : Prop where
  ofTree : ∀ key ∈ Key.ofTree, b'.get key (.ofTree t) = b.get key (.ofTree t)
  ofNode : ∀ key ∈ Key.ofNode, ∀ id, b'.get key (.ofNode t id) = b.get key (.ofNode t id)

theorem SameRecords.refl (t : TreeId) (b : Blackboard) : SameRecords t b b :=
  ⟨fun _ _ => rfl, fun _ _ _ => rfl⟩

theorem SameRecords.flagged_eq {t : TreeId} {b b' : Blackboard} (h : SameRecords t b b')
    (id : NodeId) : b'.flagged t id = b.flagged t id := by
  simp only [flagged, h.ofNode Key.isOpen (by simp [Key.ofNode]) id]

/-- Nothing was written to the memory of a tree, so nothing is read from it. -/
theorem get_of_hasTree_eq_false {t : TreeId} {b : Blackboard} (h : b.hasTree t = false)
    (key : String) (node : Option NodeId) : b.get key ⟨some t, node⟩ = none := by
  have hnone : b.trees.find? t = none := by simpa [hasTree, KeyMap.contains] using h
  cases node <;> simp [get, hnone]

theorem flagged_of_hasTree_eq_false {t : TreeId} {b : Blackboard} (h : b.hasTree t = false)
    (id : NodeId) : b.flagged t id = false := by
  simp [flagged, Scope.ofNode, get_of_hasTree_eq_false h]

end Blackboard

theorem Traversal.isOpen_eq_flagged (e : Setting σ) (id : NodeId) (w : Traversal σ) :
    w.isOpen e id = w.board.flagged e.tree id := rfl

/-! ## Hooks that leave the records alone -/

/-- The hook opens no node of a tree and closes none. -/
def Hook.KeepsFlags (t : TreeId) (h : Hook σ) : Prop :=
  ∀ s : Scene σ, s.tree = t → ∀ id, (h s).board.flagged t id = s.board.flagged t id

/-- The hook does not write to the records of a tree. -/
def Hook.KeepsRecords (t : TreeId) (h : Hook σ) : Prop :=
  ∀ s : Scene σ, s.tree = t → s.board.SameRecords t (h s).board

theorem Hook.KeepsRecords.keepsFlags {t : TreeId} {h : Hook σ} (hk : h.KeepsRecords t) :
    h.KeepsFlags t :=
  fun s hs id => (hk s hs).flagged_eq id

structure Hooks.KeepRecords (t : TreeId) (h : Hooks σ) : Prop where
  enter : h.enter.KeepsRecords t
  opening : h.opening.KeepsRecords t
  close : h.close.KeepsRecords t
  exit : h.exit.KeepsRecords t

theorem Hooks.keepRecords_default (t : TreeId) : Hooks.KeepRecords t ({} : Hooks σ) := by
  constructor <;> exact fun s _ => .refl t s.board

def LeafKind.KeepsRecords (t : TreeId) : LeafKind σ → Prop
  | runAction _ act => ∀ target (b : Blackboard), b.SameRecords t (act target b).2.board
  | custom design =>
      design.hooks.KeepRecords t ∧
        ∀ s : Scene σ, s.tree = t → s.board.SameRecords t (design.tick s).2.board
  | _ => True

/-- All that a script can do by itself is of a kind. -/
def Script.All (P : Hook σ → Prop) : Script σ → Prop
  | finish _ => True
  | act effect next => P effect ∧ ∀ scene, (next scene).All P
  | run _ next => ∀ s, (next s).All P

theorem Script.all_of_forall {P : Hook σ → Prop} (h : ∀ effect, P effect) (script : Script σ) :
    script.All P := by
  induction script with
  | finish s => trivial
  | act effect next ih => exact ⟨h effect, ih⟩
  | run i next ih => exact ih

/-! ## Nodes -/

namespace Node

/-- What a branching node of the caller's own does when it is ticked. -/
def script? : Node σ → Option (Script σ)
  | composite _ (.custom design) cs => some (design.script cs.length)
  | decorator _ (.custom design) c => some (design.script c.toList.length)
  | _ => none

/-- A composite or a decorator of the library, or a leaf that leaves the records alone. -/
def Standard (t : TreeId) : Node σ → Prop
  | composite _ (.custom _) _ => False
  | decorator _ (.custom _) _ => False
  | leaf _ k => k.KeepsRecords t
  | _ => True

def Orderly (t : TreeId) (n : Node σ) : Prop := ∀ m ∈ n.nodes, m.Standard t

/-- Only branching nodes of the caller's own run a script. -/
theorem script?_eq_none {P : Node σ → Prop} (hcomposite : ∀ l d cs, ¬P (composite l (.custom d) cs))
    (hdecorator : ∀ l d c, ¬P (decorator l (.custom d) c)) {n : Node σ} (h : P n) :
    n.script? = none := by
  rcases n with ⟨l, k, cs⟩ | ⟨l, k, c⟩ | ⟨l, k⟩
  · cases k with
    | custom design => exact (hcomposite l design cs h).elim
    | _ => rfl
  · cases k with
    | custom design => exact (hdecorator l design c h).elim
    | _ => rfl
  · rfl

theorem hooks_eq_default_or_custom {n : Node σ} (h : n.script? = none) :
    n.hooks = {} ∨ ∃ l design, n = .leaf l (.custom design) := by
  rcases n with ⟨l, k, cs⟩ | ⟨l, k, c⟩ | ⟨l, k⟩
  · cases k with
    | custom design => cases h
    | _ => exact .inl rfl
  · cases k with
    | custom design => cases h
    | _ => exact .inl rfl
  · cases k with
    | custom design => exact .inr ⟨l, design, rfl⟩
    | _ => exact .inl rfl

theorem Standard.script? {t : TreeId} {n : Node σ} (h : n.Standard t) : n.script? = none :=
  script?_eq_none (P := Standard t) (fun _ _ _ => not_false) (fun _ _ _ => not_false) h

theorem Standard.hooks {t : TreeId} {n : Node σ} (h : n.Standard t) : n.hooks.KeepRecords t := by
  rcases hooks_eq_default_or_custom h.script? with hdefault | ⟨l, design, rfl⟩
  · exact hdefault ▸ Hooks.keepRecords_default t
  · exact h.1

/-- Only a leaf that is not of the library may be no standard node without running a script. -/
theorem standard_or_leaf_of_script? {n : Node σ} (h : n.script? = none) (t : TreeId) :
    n.Standard t ∨ ∃ l k, n = .leaf l k := by
  rcases n with ⟨l, k, cs⟩ | ⟨l, k, c⟩ | ⟨l, k⟩
  · cases k with
    | custom design => cases h
    | _ => exact .inl trivial
  · cases k with
    | custom design => cases h
    | _ => exact .inl trivial
  · exact .inr ⟨l, k, rfl⟩

/-- A node of any kind that leaves the records of a tree alone, but for what the library does. -/
structure KeepsRecords (t : TreeId) (n : Node σ) : Prop where
  hooks : n.hooks.KeepRecords t
  script : ∀ {script}, n.script? = some script → script.All (Hook.KeepsRecords t)
  standard : n.script? = none → n.Standard t

theorem Standard.keepsRecords {t : TreeId} {n : Node σ} (h : n.Standard t) : n.KeepsRecords t where
  hooks := h.hooks
  script hscript := by cases h.script?.symm.trans hscript
  standard _ := h

end Node
end BehaviorTrees
