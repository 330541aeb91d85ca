import BehaviorTrees.Json

/-!
# Documents

A `Document` is a JSON text before anything is made of it: members stand in the order in which
they were written, repeated keys included, and a number or string that denotes no value is only
marked as such.  That leaves it to the reader of a record which of its parts have to make sense:
`Document.value?` asks it of every part, a record's fields only of those the record has.
-/

namespace BehaviorTrees

inductive Document where
  | null
  | bool (value : Bool)
  /-- No value for a number beyond the largest float. -/
  | number (value : Option Number)
  /-- No value for a text with an escape that names no character. -/
  | string (value : Option String)
  | array (items : List Document)
  | object (members : List (Option String × Document))

namespace Document

instance : Inhabited Document := ⟨.null⟩

/-- How deep arrays and objects may lie inside one another in a text that is read. -/
def roomForText : Nat := 127

mutual

/-- The value of a document in which all parts make sense and containers nest at most `room`
deep.  Objects are put into key order; of repeated keys the last one counts. -/
def value? (room : Nat) : Document → Option Json
  | .null => some .null
  | .bool b => some (.bool b)
  | .number n => n.map .number
  | .string s => s.map .string
  | .array items =>
      match room with
      | 0 => none
      | room + 1 => (values? room items).map .array
  | .object members =>
      match room with
      | 0 => none
      | room + 1 => (fields? room members []).map .object

def values? (room : Nat) : List Document → Option (List Json)
  | [] => some []
  | d :: rest => do
      let v ← value? room d
      let vs ← values? room rest
      return v :: vs

/-- Adds the members to the fields found so far. -/
def fields? (room : Nat) :
    List (Option String × Document) → List (String × Json) → Option (List (String × Json))
  | [], found => some found
  | (key, d) :: rest, found => do
      let k ← key
      let v ← value? room d
      fields? room rest (Entries.insert k v found)

end

end Document

namespace Json

mutual

/-- The document that says no more than the value. -/
def document : Json → Document
  | .null => .null
  | .bool b => .bool b
  | .number n => .number (some n)
  | .string s => .string (some s)
  | .array items => .array (documents items)
  | .object fields => .object (members fields)

def documents : List Json → List Document
  | [] => []
  | v :: rest => document v :: documents rest

def members : List (String × Json) → List (Option String × Document)
  | [] => []
  | (k, v) :: rest => (some k, document v) :: members rest

end

end Json
end BehaviorTrees
