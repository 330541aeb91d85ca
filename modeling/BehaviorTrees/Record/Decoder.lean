import BehaviorTrees.Json.Document

/-!
# Decoding records

A record is written as an object of named fields or as an array of the field values in order.
In an object the fields may stand in any order, a field may stand there only once, and what is no
field of the record is passed over unread.  In an array fields may be left out from the end.
-/

namespace BehaviorTrees

/-- Reads a value out of a document whose containers nest at most so deep. -/
abbrev Decoder (α : Type) := Nat → Document → Option α

namespace Decoder

variable {α : Type}

def text : Decoder String
  | _, .string s => s
  | _, _ => none

def json : Decoder Json := Document.value?

def optional (d : Decoder α) : Decoder (Option α)
  | _, .null => some none
  | room, doc => (d room doc).map some

def list (d : Decoder α) : Decoder (List α)
  | room + 1, .array items => items.mapM (d room)
  | _, _ => none

/-- Adds bindings to those found so far; of repeated keys the last one counts. -/
def bindings (d : Decoder α) (room : Nat) :
    List (Option String × Document) → KeyMap α → Option (KeyMap α)
  | [], found => some found
  | (key, doc) :: rest, found =>
      match key, d room doc with
      | some k, some v => bindings d room rest (found.insert k v)
      | _, _ => none

def keyMap (d : Decoder α) : Decoder (KeyMap α)
  | room + 1, .object members => bindings d room members ∅
  | _, _ => none

def properties : Decoder Properties := keyMap json

/-- One of several values, written as its label or as the single key of an object without a
value. -/
def choice (all : List α) (label : α → String) : Decoder α
  | _, .string s => s.bind fun t => all.find? (label · = t)
  | _ + 1, .object [(key, .null)] => key.bind fun t => all.find? (label · = t)
  | _, _ => none

/-! ## Fields -/

/-- The documents given for the fields of a record. -/
inductive Fields where
  | named (found : List (Option Document))
  | placed (found : List (Option Document))

def Fields.found : Fields → List (Option Document)
  | named found | placed found => found

/-- The members with a key that denotes a text, if all have one. -/
def keyed : List (Option String × Document) → Option (List (String × Document))
  | [] => some []
  | (key, doc) :: rest =>
      match key, keyed rest with
      | some k, some found => some ((k, doc) :: found)
      | _, _ => none

/-- The document of a field, of which there may be only one. -/
def member? (members : List (String × Document)) (name : String) : Option (Option Document) :=
  match members.filter (·.1 = name) with
  | [] => some none
  | [(_, doc)] => some (some doc)
  | _ => none

def fields? (names : List String) : Document → Option Fields
  | .object members => do
      let members ← keyed members
      return .named (← names.mapM (member? members))
  | .array items =>
      if items.length ≤ names.length then
        some (.placed (items.map some ++ List.replicate (names.length - items.length) none))
      else none
  | _ => none

/-- A field that has to be given. -/
def required (d : Decoder α) (room : Nat) : Option Document → Option α
  | some doc => d room doc
  | none => none

/-- A field with a value of its own where none is given. -/
def withDefault (fallback : α) (d : Decoder α) (room : Nat) : Option Document → Option α
  | some doc => d room doc
  | none => some fallback

/-- A field that an object may leave out, but not an array. -/
def omittable (d : Decoder α) (room : Nat) :
    Fields → Option Document → Option (Option α)
  | .named _, none => some none
  | _, given => required (optional d) room given

/-- Takes one level of depth for the record itself. -/
def record (names : List String) (read : Nat → Fields → Option α) : Decoder α
  | room + 1, doc => (fields? names doc).bind (read room)
  | 0, _ => none

/-- What is read out of a value, however deep it is. -/
def ofJson (d : Decoder α) (v : Json) : Option α := d v.depth v.document

end Decoder
end BehaviorTrees
