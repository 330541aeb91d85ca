import BehaviorTrees.Fault
import BehaviorTrees.Node
import BehaviorTrees.Word

/-!
# Catalogs of node types

A catalog maps the names of node types to factories, which make a node from its authored
properties.  `builtin` holds the types of the library; a node configured by a number writes that
number into its own properties.
-/

namespace BehaviorTrees

variable {σ : Type}

/-! ## New nodes -/

/-- A bound as it is authored: a negative number stands for no bound. -/
def Bound.ofInt : Int → Bound
  | .ofNat n => some n
  | .negSucc _ => none

def Bound.toInt : Bound → Int
  | some n => n
  | none => -1

/-- The label of a node of this kind before anything is said of it. -/
def CompositeKind.label (k : CompositeKind σ) : Label := { title := k.name }

def DecoratorKind.label : DecoratorKind σ → Label
  | limiter m => Label.setProperty { title := "Limit <maxLoop> Activations" } "maxLoop" (.ofNat m)
  | maxTime m => Label.setProperty { title := "Max <maxTime>ms" } "maxTime" (.ofNat m)
  | repeater m => Label.setProperty { title := "Repeat <maxLoop>x" } "maxLoop" (.ofInt m.toInt)
  | repeatUntilSuccess m =>
      Label.setProperty { title := "Repeat Until Success" } "maxLoop" (.ofInt m.toInt)
  | repeatUntilFailure m =>
      Label.setProperty { title := "Repeat Until Failure" } "maxLoop" (.ofInt m.toInt)
  | k => { title := k.name }

def LeafKind.label : LeafKind σ → Label
  | wait ms => Label.setProperty { title := "Wait <milliseconds>ms" } "milliseconds" (.ofNat ms)
  | k => { title := k.name }

namespace Node

def ofComposite (k : CompositeKind σ) (children : List (Node σ) := []) : Node σ :=
  .composite k.label k children

def ofDecorator (k : DecoratorKind σ) (child : Option (Node σ) := none) : Node σ :=
  .decorator k.label k child

def ofLeaf (k : LeafKind σ) : Node σ := .leaf k.label k

end Node

/-! ## Parameters -/

/-- A number that is not negative, from the properties of a node of the named type. -/
def Properties.natural (p : Properties) (node key : String) (fallback : Nat) :
    Except NodeFault Nat :=
  match p.find? key with
  | none => .ok fallback
  | some v =>
      match v.natural? with
      | some n => .ok n
      | none => .error (.invalidProperties node)

/-- A signed number of 64 bits. -/
def Properties.int (p : Properties) (node key : String) (fallback : Int) :
    Except NodeFault Int :=
  match p.find? key with
  | none => .ok fallback
  | some v =>
      match v.int? with
      | some z =>
          if -(Word.half : Int) ≤ z ∧ z < Word.half then .ok z
          else .error (.invalidProperties node)
      | none => .error (.invalidProperties node)

namespace DecoratorKind

/-- A limiter has to allow at least one run. -/
def limiterOf (maxLoop : Nat) : Except NodeFault (DecoratorKind σ) :=
  if maxLoop = 0 then .error (.missingParameter "Limiter" "maxLoop") else .ok (.limiter maxLoop)

/-- A time limit has to allow at least one millisecond. -/
def maxTimeOf (ms : Nat) : Except NodeFault (DecoratorKind σ) :=
  if ms = 0 then .error (.missingParameter "MaxTime" "maxTime") else .ok (.maxTime ms)

def limiterFrom (p : Properties) : Except NodeFault (DecoratorKind σ) := do
  limiterOf (← p.natural "Limiter" "maxLoop" 0)

def maxTimeFrom (p : Properties) : Except NodeFault (DecoratorKind σ) := do
  maxTimeOf (← p.natural "MaxTime" "maxTime" 0)

def boundFrom (node : String) (p : Properties) : Except NodeFault Bound := do
  return .ofInt (← p.int node "maxLoop" (-1))

def repeaterFrom (p : Properties) : Except NodeFault (DecoratorKind σ) := do
  return .repeater (← boundFrom "Repeater" p)

def repeatUntilSuccessFrom (p : Properties) : Except NodeFault (DecoratorKind σ) := do
  return .repeatUntilSuccess (← boundFrom "RepeatUntilSuccess" p)

def repeatUntilFailureFrom (p : Properties) : Except NodeFault (DecoratorKind σ) := do
  return .repeatUntilFailure (← boundFrom "RepeatUntilFailure" p)

end DecoratorKind

def LeafKind.waitFrom (p : Properties) : Except NodeFault (LeafKind σ) := do
  return .wait (← p.natural "Wait" "milliseconds" 0)

/-! ## Factories -/

abbrev Factory (σ : Type) := Properties → Except NodeFault (Node σ)

abbrev Catalog (σ : Type) := KeyMap (Factory σ)

namespace Catalog

/-- The names of the types of the library. -/
def builtinNames : List String :=
  ["Sequence", "Priority", "MemSequence", "MemPriority", "Inverter", "Limiter", "MaxTime",
    "Repeater", "RepeatUntilSuccess", "RepeatUntilFailure", "Succeeder", "Failer", "Error",
    "Runner", "Wait"]

def isBuiltin (name : String) : Bool := builtinNames.contains name

/-- The factory of a type of the library. -/
def builtin? : String → Option (Factory σ)
  | "Sequence" => some fun _ => .ok (.ofComposite .sequence)
  | "Priority" => some fun _ => .ok (.ofComposite .priority)
  | "MemSequence" => some fun _ => .ok (.ofComposite .memSequence)
  | "MemPriority" => some fun _ => .ok (.ofComposite .memPriority)
  | "Inverter" => some fun _ => .ok (.ofDecorator .inverter)
  | "Limiter" => some fun p => Node.ofDecorator <$> DecoratorKind.limiterFrom p
  | "MaxTime" => some fun p => Node.ofDecorator <$> DecoratorKind.maxTimeFrom p
  | "Repeater" => some fun p => Node.ofDecorator <$> DecoratorKind.repeaterFrom p
  | "RepeatUntilSuccess" =>
      some fun p => Node.ofDecorator <$> DecoratorKind.repeatUntilSuccessFrom p
  | "RepeatUntilFailure" =>
      some fun p => Node.ofDecorator <$> DecoratorKind.repeatUntilFailureFrom p
  | "Succeeder" => some fun _ => .ok (.ofLeaf .succeeder)
  | "Failer" => some fun _ => .ok (.ofLeaf .failer)
  | "Error" => some fun _ => .ok (.ofLeaf .erring)
  | "Runner" => some fun _ => .ok (.ofLeaf .runner)
  | "Wait" => some fun p => Node.ofLeaf <$> LeafKind.waitFrom p
  | _ => none

def builtin : Catalog σ :=
  .ofList (builtinNames.filterMap fun name => (builtin? name).map (name, ·))

def register (c : Catalog σ) (name : String) (factory : Factory σ) : Catalog σ :=
  c.insert name factory

/-- The factory of a type: the catalog's own one before that of the library. -/
def resolve? (c : Catalog σ) (name : String) : Option (Factory σ) :=
  match c.find? name with
  | some factory => some factory
  | none => builtin? name

end Catalog
end BehaviorTrees
