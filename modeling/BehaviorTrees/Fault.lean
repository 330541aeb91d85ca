import BehaviorTrees.Node.Label

/-!
# Faults

Why a node cannot be made, and why a tree cannot be loaded or run.  The faults are causes;
`message` puts them into words.
-/

namespace BehaviorTrees

inductive NodeFault where
  | missingParameter (node parameter : String)
  /-- A parameter is not of the type or range the node asks for. -/
  | invalidProperties (node : String)
  | custom (text : String)
deriving DecidableEq

/-- The two ways in which the record of a node refers to others. -/
inductive Link where
  | child
  | children
deriving DecidableEq

inductive TreeFault where
  | noRoot
  | unknownType (name : String)
  | missingRoot (root : NodeId)
  | missingNode (parent child : NodeId)
  | sharedNode (id : NodeId)
  /-- A node refers to others in a way that its category, or the node itself, does not allow. -/
  | unexpectedLink (node : NodeId) (category : Category) (link : Link)
  | node (fault : NodeFault)
  /-- The text is no JSON, or not the record of a tree. -/
  | malformed
deriving DecidableEq

def Link.label : Link → String
  | child => "child"
  | children => "children"

def NodeFault.message : NodeFault → String
  | missingParameter owner parameter =>
      owner ++ ": `" ++ parameter ++ "` is an obligatory parameter"
  | invalidProperties owner => owner ++ ": invalid properties"
  | custom text => text

def TreeFault.message : TreeFault → String
  | noRoot => "behavior tree has no root node"
  | unknownType name => "invalid node name \"" ++ name ++ "\""
  | missingRoot root => "root node `" ++ root ++ "` is not defined in the tree data"
  | missingNode parent child =>
      "node `" ++ parent ++ "` references undefined node `" ++ child ++ "`"
  | sharedNode id => "node `" ++ id ++ "` is referenced more than once"
  | unexpectedLink holder category link =>
      "node `" ++ holder ++ "` (" ++ category.label ++ ") cannot hold `" ++ link.label ++ "`"
  | node fault => fault.message
  | malformed => "malformed tree data"

end BehaviorTrees
