import BehaviorTrees.Catalog
import BehaviorTrees.Execution
import BehaviorTrees.Record

/-!
# Trees and their ticks

A tree holds nodes and what is said of them as a whole, but nothing of its runs: what has to last
from one tick to the next is on the blackboard, under the id of the tree.

`Tree.tick` runs the root once.  Nodes that the tick before left open and that this one did not
reach again are closed afterwards.
-/

namespace BehaviorTrees

structure Tree (σ : Type) where
  id : TreeId
  title : String := "The behavior tree"
  description : String := "Default description"
  properties : Properties := ∅
  root : Option (Node σ) := none
  clock : Clock σ
  /-- The names of node types that the last loading took from the caller's catalog. -/
  callerNames : List String := []

variable {σ : Type}

namespace Tree

def find? (t : Tree σ) (id : NodeId) : Option (Node σ) :=
  t.root.bind (·.find? id)

/-- The nodes the last tick left open, from the root on. -/
def openNodes (t : Tree σ) (b : Blackboard) : List NodeId :=
  match (b.get Key.openNodes (.ofTree t.id)).bind Json.array? with
  | some items => items.filterMap Json.string?
  | none => []

/-- How many nodes the last tick entered. -/
def nodeCount (t : Tree σ) (b : Blackboard) : Nat :=
  ((b.get Key.nodeCount (.ofTree t.id)).bind Json.natural?).getD 0

/-! ## Ticks -/

/-- What is left of the first list after the elements with which both lists begin. -/
def beyondCommon : List NodeId → List NodeId → List NodeId
  | [], _ => []
  | last, [] => last
  | a :: last, b :: current => if a = b then beyondCommon last current else a :: last

/-- Closes nodes that are still open, the last one of the list first. -/
def closeStale (e : Setting σ) (root : Node σ) (stale : List NodeId) (w : Traversal σ) :
    Traversal σ :=
  stale.reverse.foldl (fun w id =>
    if w.isOpen e id then
      match root.find? id with
      | some n => w.release e n
      | none => w
    else w) w

structure TickResult (σ : Type) where
  status : Status
  target : σ
  board : Blackboard
  /-- What happened, in its order. -/
  history : List Entry

/-- What there is to report, whether or not it is reported. -/
def TickResult.events (r : TickResult σ) : List Event := r.history.filterMap Entry.event?

inductive TickFault where
  | noRoot
  /-- A repeater without a bound took more turns than there was fuel for. -/
  | outOfFuel
deriving DecidableEq

/-- Writes down the nodes left open by the root and the number of nodes entered. -/
def keepRecord (e : Setting σ) (current : List NodeId) (w : Traversal σ) : Blackboard :=
  w.board.set Key.openNodes (.ofStrings current) (.ofTree e.tree)
    |>.set Key.nodeCount (.ofNat w.count) (.ofTree e.tree)

def setting (t : Tree σ) (traced : Bool) : Setting σ := ⟨t.id, t.clock, traced⟩

def tick (t : Tree σ) (fuel : Nat) (traced : Bool) (target : σ) (board : Blackboard) :
    Except TickFault (TickResult σ) :=
  match t.root with
  | none => .error .noRoot
  | some root =>
      let e := t.setting traced
      let last := t.openNodes board
      match root.execute e fuel { target, board } with
      | none => .error .outOfFuel
      | some (status, w) =>
          let current := w.openNodes
          let w := closeStale e root (beyondCommon last current) w
          .ok ⟨status, w.target, keepRecord e current w, w.history⟩

end Tree
end BehaviorTrees
