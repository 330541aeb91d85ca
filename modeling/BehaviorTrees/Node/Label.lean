import BehaviorTrees.Blackboard

/-!
# Labels

What an author says of a node: its id, a title, a description and two bags of values.  `Info` adds
what the type of the node fixes, its name and its category.
-/

namespace BehaviorTrees

/-- How a node holds other nodes. -/
inductive Category where
  | composite
  | decorator
  | action
  | condition
deriving DecidableEq, Repr

namespace Category

def all : List Category := [composite, decorator, action, condition]

def label : Category → String
  | composite => "composite"
  | decorator => "decorator"
  | action => "action"
  | condition => "condition"

def isLeaf : Category → Bool
  | action | condition => true
  | composite | decorator => false

end Category

/-- A new node has the empty id until it is given one of its own. -/
structure Label where
  id : NodeId := ""
  title : String
  description : String := ""
  properties : Properties := ∅
  parameters : Properties := ∅

namespace Label

def setProperty (l : Label) (key : String) (value : Json) : Label :=
  { l with properties := l.properties.insert key value }

def removeProperty (l : Label) (key : String) : Label :=
  { l with properties := l.properties.erase key }

def setParameter (l : Label) (key : String) (value : Json) : Label :=
  { l with parameters := l.parameters.insert key value }

end Label

structure Info extends Label where
  name : String
  category : Category

/-- The title of a new node is its name. -/
def Info.new (name : String) (category : Category) : Info :=
  { title := name, name, category }

end BehaviorTrees
