import BehaviorTrees.Json.Reader
import BehaviorTrees.Node.Label
import BehaviorTrees.Record.Decoder
import BehaviorTrees.Trace

/-!
# Records

The plain data of a tree, of its nodes, of the node types it needs, and of a trace event, each
with the JSON value that writes it and the decoder that reads it.
-/

namespace BehaviorTrees

/-- A node without what it holds, but with the keys of the nodes to be put there. -/
structure NodeRecord where
  id : Option NodeId := none
  name : String
  title : String := ""
  description : String := ""
  properties : Properties := ∅
  parameters : Properties := ∅
  children : Option (List NodeId) := none
  child : Option NodeId := none

/-- A node type that is not one of the library. -/
structure TypeRecord where
  name : String
  title : String := ""
  category : Category
deriving DecidableEq

structure TreeRecord where
  id : Option TreeId := none
  title : String := ""
  description : String := ""
  properties : Properties := ∅
  root : Option NodeId := none
  nodes : KeyMap NodeRecord := ∅
  customNodes : List TypeRecord := []

def Status.decode : Decoder Status := .choice Status.all Status.label

def Category.decode : Decoder Category := .choice Category.all Category.label

def Phase.decode : Decoder Phase := .choice Phase.all Phase.label

/-- A field that is written only when there is something to write. -/
def Json.fieldIfSome (key : String) (f : α → Json) : Option α → List (String × Json)
  | none => []
  | some a => [(key, f a)]

/-! ## Nodes -/

namespace NodeRecord

def ofInfo (i : Info) : NodeRecord where
  id := some i.id
  name := i.name
  title := i.title
  description := i.description
  properties := i.properties
  parameters := i.parameters

def json (r : NodeRecord) : Json :=
  .object <|
    Json.fieldIfSome "id" .string r.id ++
      [("name", .string r.name), ("title", .string r.title),
        ("description", .string r.description), ("properties", .ofProperties r.properties),
        ("parameters", .ofProperties r.parameters)] ++
      Json.fieldIfSome "children" .ofStrings r.children ++
      Json.fieldIfSome "child" .string r.child

def fieldNames : List String :=
  ["id", "name", "title", "description", "properties", "parameters", "children", "child"]

def read (room : Nat) (f : Decoder.Fields) : Option NodeRecord :=
  match f.found with
  | [id, name, title, description, properties, parameters, children, child] => do
      return {
        id := ← Decoder.withDefault none (.optional .text) room id
        name := ← Decoder.required .text room name
        title := ← Decoder.withDefault "" .text room title
        description := ← Decoder.withDefault "" .text room description
        properties := ← Decoder.withDefault ∅ .properties room properties
        parameters := ← Decoder.withDefault ∅ .properties room parameters
        children := ← Decoder.withDefault none (.optional (.list .text)) room children
        child := ← Decoder.withDefault none (.optional .text) room child }
  | _ => none

def decode : Decoder NodeRecord := .record fieldNames read

end NodeRecord

/-! ## Node types -/

namespace TypeRecord

def json (r : TypeRecord) : Json :=
  .object
    [("name", .string r.name), ("title", .string r.title), ("category", .string r.category.label)]

def fieldNames : List String := ["name", "title", "category"]

def read (room : Nat) (f : Decoder.Fields) : Option TypeRecord :=
  match f.found with
  | [name, title, category] => do
      return {
        name := ← Decoder.required .text room name
        title := ← Decoder.withDefault "" .text room title
        category := ← Decoder.required Category.decode room category }
  | _ => none

def decode : Decoder TypeRecord := .record fieldNames read

end TypeRecord

/-! ## Trees -/

namespace TreeRecord

def nodeFields (r : TreeRecord) : List (String × Json) :=
  r.nodes.entries.map fun (k, n) => (k, n.json)

def json (r : TreeRecord) : Json :=
  .object <|
    Json.fieldIfSome "id" .string r.id ++
      [("title", .string r.title), ("description", .string r.description),
        ("properties", .ofProperties r.properties), ("root", .optional .string r.root),
        ("nodes", .object r.nodeFields), ("custom_nodes", .array (r.customNodes.map (·.json)))]

def fieldNames : List String :=
  ["id", "title", "description", "properties", "root", "nodes", "custom_nodes"]

def read (room : Nat) (f : Decoder.Fields) : Option TreeRecord :=
  match f.found with
  | [id, title, description, properties, root, nodes, customNodes] => do
      return {
        id := ← Decoder.withDefault none (.optional .text) room id
        title := ← Decoder.withDefault "" .text room title
        description := ← Decoder.withDefault "" .text room description
        properties := ← Decoder.withDefault ∅ .properties room properties
        root := ← Decoder.withDefault none (.optional .text) room root
        nodes := ← Decoder.withDefault ∅ (.keyMap NodeRecord.decode) room nodes
        customNodes := ← Decoder.withDefault [] (.list TypeRecord.decode) room customNodes }
  | _ => none

def decode : Decoder TreeRecord := .record fieldNames read

/-- The record a text writes. -/
def ofText? (text : String) : Option TreeRecord :=
  (Document.ofText? text).bind (decode Document.roomForText)

/-- Whether two records say the same, floats being compared as numbers. -/
def same (a b : TreeRecord) : Bool := a.json.same b.json

end TreeRecord

/-! ## Events -/

namespace Event

def json (e : Event) : Json :=
  .object
    [("tree", .string e.tree), ("node", .string e.node), ("name", .string e.name),
      ("phase", .string e.phase.label), ("state", .optional (.string ·.label) e.status)]

def fieldNames : List String := ["tree", "node", "name", "phase", "state"]

def read (room : Nat) (f : Decoder.Fields) : Option Event :=
  match f.found with
  | [tree, node, name, phase, status] => do
      return {
        tree := ← Decoder.required .text room tree
        node := ← Decoder.required .text room node
        name := ← Decoder.required .text room name
        phase := ← Decoder.required Phase.decode room phase
        status := ← Decoder.omittable Status.decode room f status }
  | _ => none

def decode : Decoder Event := .record fieldNames read

end Event
end BehaviorTrees
