import BehaviorTrees.Json.Printer
import BehaviorTrees.Tree

/-!
# Dumping trees

The record of a tree: its structure and what its author said, but nothing of its runs.  Node
types that are not of the library, or that the last loading took from the caller's catalog, are
listed with the title and category of the first node that has them.
-/

namespace BehaviorTrees

variable {σ : Type}

/-- The record of a node, with its links. -/
def Node.record : Node σ → NodeRecord
  | n@(.composite _ _ cs) => { NodeRecord.ofInfo n.info with children := some (cs.map (·.id)) }
  | n@(.decorator _ _ c) => { NodeRecord.ofInfo n.info with child := c.map (·.id) }
  | n@(.leaf _ _) => .ofInfo n.info

namespace Tree

/-- What has been written down of a tree. -/
structure Inventory where
  nodes : KeyMap NodeRecord := ∅
  /-- The node types to be listed, the last one first. -/
  types : List TypeRecord := []

def isCustom (callerNames : List String) (name : String) : Bool :=
  !Catalog.isBuiltin name || callerNames.contains name

/-- Writes a node down, and its type if that is to be listed and is not yet. -/
def Inventory.add (callerNames : List String) (n : Node σ) (v : Inventory) : Inventory where
  nodes := v.nodes.insert n.id n.record
  types :=
    if isCustom callerNames n.name && !v.types.any (·.name = n.name) then
      ⟨n.name, n.label.title, n.category⟩ :: v.types
    else v.types

mutual

/-- Writes down a node, then what it holds from left to right. -/
def Inventory.addTree (callerNames : List String) : Node σ → Inventory → Inventory
  | .composite l k cs, v =>
      Inventory.addTrees callerNames cs (v.add callerNames (.composite l k cs))
  | .decorator l k (some c), v =>
      Inventory.addTree callerNames c (v.add callerNames (.decorator l k (some c)))
  | .decorator l k none, v => v.add callerNames (.decorator l k (none : Option (Node σ)))
  | .leaf l k, v => v.add callerNames (.leaf l k)

def Inventory.addTrees (callerNames : List String) : List (Node σ) → Inventory → Inventory
  | [], v => v
  | n :: rest, v => Inventory.addTrees callerNames rest (Inventory.addTree callerNames n v)

end

def inventory (t : Tree σ) : Inventory :=
  match t.root with
  | none => {}
  | some root => Inventory.addTree t.callerNames root {}

def dump (t : Tree σ) : TreeRecord where
  title := t.title
  description := t.description
  properties := t.properties
  root := t.root.map (·.id)
  nodes := t.inventory.nodes
  customNodes := t.inventory.types.reverse

def dumpText (t : Tree σ) : String := t.dump.json.pretty

end Tree
end BehaviorTrees
