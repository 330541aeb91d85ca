import BehaviorTrees.Blackboard
import BehaviorTrees.Status

/-!
# Traces

What is recorded of a run.  An `Event` is a step of the life of a node, as it is reported to the
outside; an `Entry` of the journal is such a report together with the blackboard of that moment, a
call of one of the node's hooks, or a reading of the clock.
-/

namespace BehaviorTrees

/-- The steps of a node's life. -/
inductive Phase where
  | enter
  | opening
  | tick
  | close
  | exit
deriving DecidableEq, Repr

namespace Phase

def all : List Phase := [enter, opening, tick, close, exit]

def label : Phase → String
  | enter => "enter"
  | opening => "open"
  | tick => "tick"
  | close => "close"
  | exit => "exit"

end Phase

/-- One step of one node of a tree.  Only an exit carries a status. -/
structure Event where
  tree : TreeId
  node : NodeId
  name : String
  phase : Phase
  status : Option Status
deriving DecidableEq

namespace Event

/-- The events of one phase, in their order. -/
def ofPhase (phase : Phase) (events : List Event) : List Event :=
  events.filter (·.phase = phase)

/-- The names of the nodes that went through a phase, in the order of the events. -/
def namesOfPhase (phase : Phase) (events : List Event) : List String :=
  (ofPhase phase events).map (·.name)

end Event

/-- What happens in a run: a step is reported, as the blackboard stands; a hook of a node is
called; or a node of the library reads the clock. -/
inductive Entry where
  | report (event : Event) (board : Blackboard)
  | call (node : NodeId) (phase : Phase)
  | reading (node : NodeId) (now : Nat)

def Entry.event? : Entry → Option Event
  | report event _ => some event
  | _ => none

end BehaviorTrees
