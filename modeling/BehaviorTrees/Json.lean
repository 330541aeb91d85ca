import BehaviorTrees.KeyMap

/-!
# Data values

Authored configuration and remembered values are loosely shaped, so both are carried as `Json`.
Integers and floats are kept apart: no float is an integer, whatever its size.
-/

namespace BehaviorTrees

inductive Number where
  | int (value : Int)
  | float (value : Float)
deriving DecidableEq

inductive Json where
  | null
  | bool (value : Bool)
  | number (value : Number)
  | string (value : String)
  | array (items : List Json)
  | object (fields : List (String × Json))

instance : Inhabited Json := ⟨.null⟩

/-- A bag of named values in key order. -/
abbrev Properties := KeyMap Json

namespace Json

def ofInt (z : Int) : Json := .number (.int z)

def ofNat (n : Nat) : Json := .ofInt n

def ofProperties (p : Properties) : Json := .object p.entries

def ofStrings (items : List String) : Json := .array (items.map .string)

def optional (f : α → Json) : Option α → Json
  | none => .null
  | some a => f a

def bool? : Json → Option Bool
  | .bool b => some b
  | _ => none

def int? : Json → Option Int
  | .number (.int z) => some z
  | _ => none

/-- An integer that is not negative. -/
def natural? : Json → Option Nat
  | .number (.int (.ofNat n)) => some n
  | _ => none

def string? : Json → Option String
  | .string s => some s
  | _ => none

def array? : Json → Option (List Json)
  | .array items => some items
  | _ => none

def object? : Json → Option (List (String × Json))
  | .object fields => some fields
  | _ => none

/-- The value of a field, where the value is an object that has it. -/
def field? (v : Json) (key : String) : Option Json :=
  v.object?.bind (·.lookup key)

@[simp] theorem natural?_ofNat (n : Nat) : (ofNat n).natural? = some n := rfl

@[simp] theorem int?_ofInt (z : Int) : (ofInt z).int? = some z := rfl

@[simp] theorem bool?_bool (b : Bool) : (Json.bool b).bool? = some b := rfl

mutual

/-- Whether two values are the same.  Floats are compared as numbers, so the two zeros agree. -/
def same : Json → Json → Bool
  | .null, .null => true
  | .bool a, .bool b => a == b
  | .number (.int a), .number (.int b) => a == b
  | .number (.float a), .number (.float b) => a == b
  | .string a, .string b => a == b
  | .array as, .array bs => sameItems as bs
  | .object as, .object bs => sameFields as bs
  | _, _ => false

def sameItems : List Json → List Json → Bool
  | [], [] => true
  | a :: as, b :: bs => same a b && sameItems as bs
  | _, _ => false

def sameFields : List (String × Json) → List (String × Json) → Bool
  | [], [] => true
  | (j, a) :: as, (k, b) :: bs => j == k && same a b && sameFields as bs
  | _, _ => false

end

mutual

/-- How many arrays and objects lie inside one another. -/
def depth : Json → Nat
  | .array items => 1 + depthItems items
  | .object fields => 1 + depthFields fields
  | _ => 0

def depthItems : List Json → Nat
  | [] => 0
  | v :: rest => max (depth v) (depthItems rest)

def depthFields : List (String × Json) → Nat
  | [] => 0
  | (_, v) :: rest => max (depth v) (depthFields rest)

end

end Json
end BehaviorTrees
