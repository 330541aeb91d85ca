import BehaviorTrees.Node.Label
import BehaviorTrees.Status
import BehaviorTrees.Time

/-!
# Scenes and scripts

What a caller's own node gets to see when one of its hooks is called, and what it may do.  A
`Scene` shows the node itself, the target, the blackboard and the run so far; a hook answers with
a changed target and blackboard.  The tick of a node that holds others is a `Script`, which looks
at the scene, runs children and decides how to go on by what they answer.
-/

namespace BehaviorTrees

structure Scene (σ : Type) where
  /-- The node whose hook is called. -/
  self : Info
  tree : TreeId
  clock : Clock σ
  /-- Whether the steps of this run are being reported. -/
  traced : Bool
  target : σ
  board : Blackboard
  /-- The nodes entered and not yet closed, in the order in which they were entered. -/
  openNodes : List NodeId
  /-- How many nodes were entered so far. -/
  count : Nat

/-- All that a hook can change. -/
structure Effect (σ : Type) where
  target : σ
  board : Blackboard

abbrev Hook (σ : Type) := Scene σ → Effect σ

namespace Scene

variable {σ : Type}

def unchanged (s : Scene σ) : Effect σ := ⟨s.target, s.board⟩

/-- A value from the memory of the node itself. -/
def remembered (s : Scene σ) (key : String) : Option Json :=
  s.board.get key (.ofNode s.tree s.self.id)

/-- Writes a value into the memory of the node itself. -/
def remember (s : Scene σ) (key : String) (value : Json) : Effect σ :=
  ⟨s.target, s.board.set key value (.ofNode s.tree s.self.id)⟩

end Scene

/-- The hooks around a tick; each does nothing unless the node says otherwise. -/
structure Hooks (σ : Type) where
  enter : Hook σ := Scene.unchanged
  opening : Hook σ := Scene.unchanged
  close : Hook σ := Scene.unchanged
  exit : Hook σ := Scene.unchanged

inductive Script (σ : Type) where
  | finish (status : Status)
  /-- Changes target and blackboard, and goes on by what the scene was before. -/
  | act (effect : Hook σ) (next : Scene σ → Script σ)
  /-- Runs the child at a position and goes on by its answer. -/
  | run (position : Nat) (next : Status → Script σ)

/-- A leaf of the caller's own making. -/
structure LeafDesign (σ : Type) where
  name : String
  isCondition : Bool := false
  hooks : Hooks σ := {}
  tick : Scene σ → Status × Effect σ

/-- A composite or decorator of the caller's own making. -/
structure BranchDesign (σ : Type) where
  name : String
  hooks : Hooks σ := {}
  /-- Whether the node keeps the nodes it is given. -/
  keepsLinks : Bool := true
  /-- The tick of a node that holds so many others. -/
  script : Nat → Script σ

end BehaviorTrees
