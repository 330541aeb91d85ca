import BehaviorTrees.Tree

/-!
# Loading trees

A tree is loaded from its record in three steps.  Every node of the record is made, whether the
tree uses it or not.  Then the links are followed from the root: each node met is claimed, once,
after its links were checked against its category.  The claims, last one first, list the tree in
postfix order, so the third step puts it together on a stack.  Nothing of the tree loaded into is
changed before all of this has succeeded.
-/

namespace BehaviorTrees

variable {σ : Type}

/-- The keys of the nodes a node is to hold, as far as its category allows the links; an empty
list of children is no link. -/
def NodeRecord.links (r : NodeRecord) (key : NodeId) (category : Category) :
    Except TreeFault (List NodeId) :=
  let children := r.children.getD []
  match category with
  | .composite =>
      if r.child.isSome then .error (.unexpectedLink key category .child) else .ok children
  | .decorator =>
      if children ≠ [] then .error (.unexpectedLink key category .children)
      else .ok r.child.toList
  | .action | .condition =>
      if children ≠ [] then .error (.unexpectedLink key category .children)
      else if r.child.isSome then .error (.unexpectedLink key category .child)
      else .ok []

namespace Tree

/-! ## Making the nodes -/

/-- Lays the record's own words over a new node; what the record leaves empty stays. -/
def dress (key : NodeId) (r : NodeRecord) (n : Node σ) : Node σ :=
  n.mapLabel fun l =>
    { id := r.id.getD key
      title := if r.title.isEmpty then l.title else r.title
      description := if r.description.isEmpty then l.description else r.description
      properties := l.properties.union r.properties
      parameters := l.parameters.union r.parameters }

def make (names : Catalog σ) (key : NodeId) (r : NodeRecord) : Except TreeFault (Node σ) :=
  match names.resolve? r.name with
  | none => .error (.unknownType r.name)
  | some factory =>
      match factory r.properties with
      | .error fault => .error (.node fault)
      | .ok n => .ok (dress key r n)

/-- Makes every node, in the order of the keys. -/
def makeAll (names : Catalog σ) :
    List (String × NodeRecord) → Except TreeFault (List (String × Node σ))
  | [] => .ok []
  | (key, r) :: rest => do
      let n ← make names key r
      let made ← makeAll names rest
      return (key, n) :: made

/-! ## Claiming -/

/-- A node with the keys of the nodes it is to hold. -/
structure Claim (σ : Type) where
  key : NodeId
  links : List NodeId
  node : Node σ

/-- The first of the keys of which there is no record. -/
def missing? (nodes : KeyMap NodeRecord) (links : List NodeId) : Option NodeId :=
  links.find? (fun key => !nodes.contains key)

/-- The claim on a node, if its links are in order. -/
def claim (nodes : KeyMap NodeRecord) (made : List (String × Node σ)) (key : NodeId) :
    Except TreeFault (Claim σ) :=
  match nodes.find? key, made.lookup key with
  | some r, some n => do
      let links ← r.links key n.category
      match missing? nodes links with
      | some child => .error (.missingNode key child)
      | none => .ok ⟨key, links, n⟩
  | _, _ => .error (.missingRoot key)

/-- Claims what is on the stack, the topmost key first, and whatever it leads to.  There are only
`left` nodes still to be claimed, so with none left the next key was claimed before. -/
def claimAll (nodes : KeyMap NodeRecord) (made : List (String × Node σ)) :
    Nat → List NodeId → List (Claim σ) → Except TreeFault (List (Claim σ))
  | _, [], claimed => .ok claimed
  | 0, key :: _, _ => .error (.sharedNode key)
  | left + 1, key :: rest, claimed =>
      if claimed.any (·.key = key) then .error (.sharedNode key)
      else do
        let c ← claim nodes made key
        claimAll nodes made left (c.links.reverse ++ rest) (c :: claimed)

/-! ## Putting together -/

/-- Gives a node what it is to hold, and finds out whether the node kept it. -/
def attach (c : Claim σ) (kids : List (Node σ)) : Except TreeFault (Node σ) :=
  match c.node.category, kids with
  | .composite, _ :: _ =>
      let n := c.node.adopt kids
      if n.children.length = kids.length then .ok n
      else .error (.unexpectedLink c.key .composite .children)
  | .decorator, _ :: _ =>
      let n := c.node.adopt kids
      if n.child.isSome then .ok n else .error (.unexpectedLink c.key .decorator .child)
  | _, _ => .ok c.node

/-- Takes what the claimed node is to hold from the stack of finished trees, and puts the finished
node there. -/
def attachNext (done : List (Node σ)) (c : Claim σ) : Except TreeFault (List (Node σ)) := do
  let n ← attach c (done.take c.links.length).reverse
  return n :: done.drop c.links.length

def attachAll : List (Claim σ) → List (Node σ) → Except TreeFault (List (Node σ))
  | [], done => .ok done
  | c :: rest, done => do
      let done ← attachNext done c
      attachAll rest done

/-- The tree of nodes below a root. -/
def assemble (r : TreeRecord) (made : List (String × Node σ)) :
    Except TreeFault (Option (Node σ)) :=
  match r.root with
  | none => .ok none
  | some root =>
      if r.nodes.contains root then do
        let claimed ← claimAll r.nodes made r.nodes.size [root] []
        let done ← attachAll claimed []
        return done.head?
      else .error (.missingRoot root)

/-! ## Loading -/

/-- The names of types that come from the caller's catalog. -/
def namesTaken (names : Catalog σ) (nodes : KeyMap NodeRecord) : List String :=
  nodes.entries.filterMap fun (_, r) => if names.contains r.name then some r.name else none

/-- The tree with its content replaced by that of the record.  What the record leaves empty, its
id included, stays as it was; the root does not. -/
def load (t : Tree σ) (r : TreeRecord) (names : Catalog σ) : Except TreeFault (Tree σ) := do
  let made ← makeAll names r.nodes.entries
  let root ← assemble r made
  return { t with
    id := r.id.getD t.id
    title := if r.title.isEmpty then t.title else r.title
    description := if r.description.isEmpty then t.description else r.description
    properties := if r.properties.isEmpty then t.properties else r.properties
    root
    callerNames := namesTaken names r.nodes }

def loadText (t : Tree σ) (text : String) (names : Catalog σ) : Except TreeFault (Tree σ) :=
  match TreeRecord.ofText? text with
  | none => .error .malformed
  | some r => t.load r names

/-- A new tree with the content of a record. -/
def ofRecord (id : TreeId) (clock : Clock σ) (r : TreeRecord) (names : Catalog σ) :
    Except TreeFault (Tree σ) :=
  load { id, clock } r names

end Tree
end BehaviorTrees
