/-!
# Statuses

What a node answers when it is ticked.  `Status.invert` exchanges the two finished answers and
leaves the other two alone.
-/

namespace BehaviorTrees

inductive Status where
  | success
  | failure
  | running
  | error
deriving DecidableEq, Repr

namespace Status

def all : List Status := [success, failure, running, error]

/-- The number that stands for a status in data exchanged with other tools. -/
def code : Status → Nat
  | success => 1
  | failure => 2
  | running => 3
  | error => 4

def label : Status → String
  | success => "SUCCESS"
  | failure => "FAILURE"
  | running => "RUNNING"
  | error => "ERROR"

/-- A node finished and gave an answer, good or bad. -/
def isTerminal : Status → Bool
  | success | failure => true
  | running | error => false

def invert : Status → Status
  | success => failure
  | failure => success
  | s => s

@[simp] theorem invert_invert (s : Status) : s.invert.invert = s := by
  cases s <;> rfl

@[simp] theorem isTerminal_invert (s : Status) : s.invert.isTerminal = s.isTerminal := by
  cases s <;> rfl

theorem isTerminal_iff {s : Status} : s.isTerminal = true ↔ s = success ∨ s = failure := by
  cases s <;> simp [isTerminal]

end Status
end BehaviorTrees
