import BehaviorTrees.Scene

/-!
# Nodes

A tree of nodes for targets of type `σ`.  A composite holds a list of children, a decorator at
most one child, a leaf none.  `Node.find?` looks a node up by its id; where ids repeat, the node
itself comes before what it holds, and a later child before an earlier one.
-/

namespace BehaviorTrees

inductive CompositeKind (σ : Type) where
  | sequence
  | priority
  | memSequence
  | memPriority
  | custom (design : BranchDesign σ)

/-- A bound on a number of runs; none when there is no bound. -/
abbrev Bound := Option Nat

inductive DecoratorKind (σ : Type) where
  | inverter
  | limiter (maxLoop : Nat)
  | maxTime (maxTime : Nat)
  | repeater (maxLoop : Bound)
  | repeatUntilSuccess (maxLoop : Bound)
  | repeatUntilFailure (maxLoop : Bound)
  | custom (design : BranchDesign σ)

inductive LeafKind (σ : Type) where
  | succeeder
  | failer
  | erring
  | runner
  | wait (milliseconds : Nat)
  /-- Succeeds when a predicate on target and blackboard holds. -/
  | condition (name : String) (holds : σ → Blackboard → Bool)
  /-- An action on target and blackboard. -/
  | runAction (name : String) (act : σ → Blackboard → Status × Effect σ)
  | custom (design : LeafDesign σ)

inductive Node (σ : Type) where
  | composite (label : Label) (kind : CompositeKind σ) (children : List (Node σ))
  | decorator (label : Label) (kind : DecoratorKind σ) (child : Option (Node σ))
  | leaf (label : Label) (kind : LeafKind σ)

variable {σ : Type}

def CompositeKind.name : CompositeKind σ → String
  | sequence => "Sequence"
  | priority => "Priority"
  | memSequence => "MemSequence"
  | memPriority => "MemPriority"
  | custom design => design.name

def DecoratorKind.name : DecoratorKind σ → String
  | inverter => "Inverter"
  | limiter _ => "Limiter"
  | maxTime _ => "MaxTime"
  | repeater _ => "Repeater"
  | repeatUntilSuccess _ => "RepeatUntilSuccess"
  | repeatUntilFailure _ => "RepeatUntilFailure"
  | custom design => design.name

def LeafKind.name : LeafKind σ → String
  | succeeder => "Succeeder"
  | failer => "Failer"
  | erring => "Error"
  | runner => "Runner"
  | wait _ => "Wait"
  | condition name _ => name
  | runAction name _ => name
  | custom design => design.name

def LeafKind.category : LeafKind σ → Category
  | condition _ _ => .condition
  | custom design => if design.isCondition then .condition else .action
  | _ => .action

namespace Node

def label : Node σ → Label
  | composite l _ _ => l
  | decorator l _ _ => l
  | leaf l _ => l

def mapLabel (f : Label → Label) : Node σ → Node σ
  | composite l k cs => composite (f l) k cs
  | decorator l k c => decorator (f l) k c
  | leaf l k => leaf (f l) k

def id (n : Node σ) : NodeId := n.label.id

def withId (n : Node σ) (id : NodeId) : Node σ := n.mapLabel ({ · with id })

/-- The name of the node's type. -/
def name : Node σ → String
  | composite _ k _ => k.name
  | decorator _ k _ => k.name
  | leaf _ k => k.name

def category : Node σ → Category
  | composite _ _ _ => .composite
  | decorator _ _ _ => .decorator
  | leaf _ k => k.category

def info (n : Node σ) : Info :=
  { n.label with name := n.name, category := n.category }

def children : Node σ → List (Node σ)
  | composite _ _ cs => cs
  | _ => []

def child : Node σ → Option (Node σ)
  | decorator _ _ c => c
  | _ => none

@[simp] theorem label_mapLabel (f : Label → Label) (n : Node σ) :
    (n.mapLabel f).label = f n.label := by
  cases n <;> rfl

@[simp] theorem name_mapLabel (f : Label → Label) (n : Node σ) :
    (n.mapLabel f).name = n.name := by
  cases n <;> rfl

@[simp] theorem category_mapLabel (f : Label → Label) (n : Node σ) :
    (n.mapLabel f).category = n.category := by
  cases n <;> rfl

@[simp] theorem children_mapLabel (f : Label → Label) (n : Node σ) :
    (n.mapLabel f).children = n.children := by
  cases n <;> rfl

@[simp] theorem child_mapLabel (f : Label → Label) (n : Node σ) :
    (n.mapLabel f).child = n.child := by
  cases n <;> rfl

@[simp] theorem id_withId (n : Node σ) (i : NodeId) : (n.withId i).id = i := by
  simp [withId, id]

/-- Puts nodes into the place of those a node holds, if it is one that keeps them. -/
def adopt (kids : List (Node σ)) : Node σ → Node σ
  | composite l (.custom d) cs => composite l (.custom d) (if d.keepsLinks then kids else cs)
  | composite l k _ => composite l k kids
  | decorator l (.custom d) c =>
      decorator l (.custom d) (if d.keepsLinks then kids.head? else c)
  | decorator l k _ => decorator l k kids.head?
  | leaf l k => leaf l k

mutual

/-- The node of a tree with a given id. -/
def find? (id : NodeId) : Node σ → Option (Node σ)
  | composite l k cs => if l.id = id then some (composite l k cs) else findLast? id cs
  | decorator l k (some c) => if l.id = id then some (decorator l k (some c)) else find? id c
  | decorator l k none => if l.id = id then some (decorator l k none) else none
  | leaf l k => if l.id = id then some (leaf l k) else none

/-- Looks through trees from the last to the first. -/
def findLast? (id : NodeId) : List (Node σ) → Option (Node σ)
  | [] => none
  | n :: rest =>
      match findLast? id rest with
      | some found => some found
      | none => find? id n

end

end Node
end BehaviorTrees
