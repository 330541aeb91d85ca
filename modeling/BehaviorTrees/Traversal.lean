import BehaviorTrees.Node
import BehaviorTrees.Trace

/-!
# The state of a run

A `Traversal` is what a run of a tree has made so far: the target and the blackboard as they are
now, the nodes entered and not yet closed, the number of nodes entered, and a journal.  Each step
of a node's life is reported, and then the hook of the same name is called; a call is noted where
the hook is run.
-/

namespace BehaviorTrees

/-! ## Keys of the blackboard -/

namespace Key

/-- In a tree's memory: the nodes its last run left open. -/
def openNodes : String := "openNodes"

/-- In a tree's memory: how many nodes its last run entered. -/
def nodeCount : String := "nodeCount"

/-- In a node's memory: whether it was opened and not closed since. -/
def isOpen : String := "isOpen"

/-- In a node's memory: the child at which a composite goes on. -/
def runningChild : String := "runningChild"

/-- In a node's memory: the time at which it opened. -/
def startTime : String := "startTime"

/-- In a node's memory: how many runs of the child were counted. -/
def count : String := "i"

/-- The keys under which a run keeps its own records. -/
def all : List String := [openNodes, nodeCount, isOpen, runningChild, startTime, count]

end Key

/-! ## Hooks of the nodes -/

variable {σ : Type}

/-- Only a node of the caller's own making has hooks. -/
def Node.hooks : Node σ → Hooks σ
  | composite _ (.custom design) _ => design.hooks
  | decorator _ (.custom design) _ => design.hooks
  | leaf _ (.custom design) => design.hooks
  | _ => {}

/-! ## Runs -/

/-- What stays the same during a run. -/
structure Setting (σ : Type) where
  tree : TreeId
  clock : Clock σ
  traced : Bool

structure Traversal (σ : Type) where
  target : σ
  board : Blackboard
  /-- The nodes entered and not yet closed, the last one first. -/
  stack : List NodeId := []
  count : Nat := 0
  /-- What happened so far, the last entry first. -/
  journal : List Entry := []

namespace Traversal

/-- The nodes entered and not yet closed, in the order in which they were entered. -/
def openNodes (w : Traversal σ) : List NodeId := w.stack.reverse

/-- What happened so far, in its order. -/
def history (w : Traversal σ) : List Entry := w.journal.reverse

def events (w : Traversal σ) : List Event := w.history.filterMap Entry.event?

def remembered (e : Setting σ) (id : NodeId) (key : String) (w : Traversal σ) : Option Json :=
  w.board.get key (.ofNode e.tree id)

def remember (e : Setting σ) (id : NodeId) (key : String) (value : Json) (w : Traversal σ) :
    Traversal σ :=
  { w with board := w.board.set key value (.ofNode e.tree id) }

/-- A number from a node's memory; what is no number counts as zero. -/
def rememberedCount (e : Setting σ) (id : NodeId) (key : String) (w : Traversal σ) : Nat :=
  ((w.remembered e id key).bind Json.natural?).getD 0

def isOpen (e : Setting σ) (id : NodeId) (w : Traversal σ) : Bool :=
  ((w.remembered e id Key.isOpen).bind Json.bool?).getD false

/-- Reads the clock on behalf of a node. -/
def readClock (e : Setting σ) (id : NodeId) (w : Traversal σ) : Nat × Traversal σ :=
  let (now, target) := e.clock.read w.target
  (now, { w with target, journal := .reading id now :: w.journal })

/-- Writes the time into a node's memory. -/
def rememberTime (e : Setting σ) (id : NodeId) (key : String) (w : Traversal σ) : Traversal σ :=
  let (now, w) := w.readClock e id
  w.remember e id key (.ofNat now)

/-- What a hook of a node gets to see. -/
def scene (e : Setting σ) (self : Info) (w : Traversal σ) : Scene σ where
  self
  tree := e.tree
  clock := e.clock
  traced := e.traced
  target := w.target
  board := w.board
  openNodes := w.openNodes
  count := w.count

def apply (w : Traversal σ) (effect : Effect σ) : Traversal σ :=
  { w with target := effect.target, board := effect.board }

/-- Runs a hook of a node. -/
def act (e : Setting σ) (n : Node σ) (hook : Hook σ) (w : Traversal σ) : Traversal σ :=
  w.apply (hook (w.scene e n.info))

def report (e : Setting σ) (n : Node σ) (phase : Phase) (status : Option Status)
    (w : Traversal σ) : Traversal σ :=
  { w with journal := .report ⟨e.tree, n.id, n.name, phase, status⟩ w.board :: w.journal }

def noteCall (id : NodeId) (phase : Phase) (w : Traversal σ) : Traversal σ :=
  { w with journal := .call id phase :: w.journal }

/-- Calls what a node does in a step of its life: the call is noted, and what it does is run. -/
def call {α : Type} (id : NodeId) (phase : Phase) (body : Traversal σ → α) (w : Traversal σ) : α :=
  body (w.noteCall id phase)

def perform (e : Setting σ) (n : Node σ) (phase : Phase) (hook : Hook σ) (w : Traversal σ) :
    Traversal σ :=
  w.call n.id phase (act e n hook)

section

variable (e : Setting σ) (w : Traversal σ)

/-- Of the memories of the nodes, a write changes one value of one node. -/
theorem remembered_remember (id id' : NodeId) (key key' : String) (value : Json) :
    (w.remember e id key value).remembered e id' key' =
      if key' = key ∧ id' = id then some value else w.remembered e id' key' := by
  simp [remembered, remember, Blackboard.get_set, Scope.address, Scope.ofNode]

theorem isOpen_remember (id id' : NodeId) (b : Bool) :
    (w.remember e id Key.isOpen (.bool b)).isOpen e id' =
      if id' = id then b else w.isOpen e id' := by
  by_cases h : id' = id <;> simp [isOpen, remembered_remember, h]

@[simp] theorem target_remember (id : NodeId) (key : String) (value : Json) :
    (w.remember e id key value).target = w.target := rfl

@[simp] theorem stack_remember (id : NodeId) (key : String) (value : Json) :
    (w.remember e id key value).stack = w.stack := rfl

@[simp] theorem count_remember (id : NodeId) (key : String) (value : Json) :
    (w.remember e id key value).count = w.count := rfl

@[simp] theorem journal_remember (id : NodeId) (key : String) (value : Json) :
    (w.remember e id key value).journal = w.journal := rfl

variable (n : Node σ)

@[simp] theorem stack_act (hook : Hook σ) : (w.act e n hook).stack = w.stack := rfl

@[simp] theorem count_act (hook : Hook σ) : (w.act e n hook).count = w.count := rfl

@[simp] theorem journal_act (hook : Hook σ) : (w.act e n hook).journal = w.journal := rfl

end

/-! ## The steps of a node's life -/

def enter (e : Setting σ) (n : Node σ) (w : Traversal σ) : Traversal σ :=
  { w with count := w.count + 1, stack := n.id :: w.stack }
    |>.report e n .enter none |>.perform e n .enter n.hooks.enter

/-- A node of the library begins its records anew. -/
def renew (e : Setting σ) (w : Traversal σ) : Node σ → Traversal σ
  | .composite l .memSequence _ | .composite l .memPriority _ =>
      w.remember e l.id Key.runningChild (.ofNat 0)
  | .decorator l (.maxTime _) _ => w.rememberTime e l.id Key.startTime
  | .decorator l (.repeater _) _ | .decorator l (.repeatUntilSuccess _) _
  | .decorator l (.repeatUntilFailure _) _ => w.remember e l.id Key.count (.ofNat 0)
  | .leaf l (.wait _) => w.rememberTime e l.id Key.startTime
  | _ => w

/-- What a node does when it opens. -/
def prepare (e : Setting σ) (n : Node σ) (w : Traversal σ) : Traversal σ :=
  w.call n.id .opening fun w => (w.renew e n).act e n n.hooks.opening

def startUp (e : Setting σ) (n : Node σ) (w : Traversal σ) : Traversal σ :=
  w.remember e n.id Key.isOpen (.bool true) |>.report e n .opening none |>.prepare e n

def close (e : Setting σ) (n : Node σ) (w : Traversal σ) : Traversal σ :=
  w.remember e n.id Key.isOpen (.bool false)
    |>.report e n .close none |>.perform e n .close n.hooks.close

def exit (e : Setting σ) (n : Node σ) (status : Status) (w : Traversal σ) : Traversal σ :=
  w.report e n .exit (some status) |>.perform e n .exit n.hooks.exit

/-- The entries above the topmost one of a node, and the entries below it; none where the node is
not on the stack. -/
def cutAt (id : NodeId) : List NodeId → Option (List NodeId × List NodeId)
  | [] => none
  | top :: rest =>
      if top = id then some ([], rest)
      else (cutAt id rest).map fun (above, below) => (top :: above, below)

theorem cutAt_eq_none_iff {id : NodeId} {stack : List NodeId} :
    cutAt id stack = none ↔ id ∉ stack := by
  induction stack with
  | nil => simp [cutAt]
  | cons top rest ih =>
      by_cases h : top = id
      · simp [cutAt, h]
      · simp [cutAt, h, ih, Ne.symm h]

theorem cutAt_eq_some_iff {id : NodeId} {stack above below : List NodeId} :
    cutAt id stack = some (above, below) ↔ stack = above ++ id :: below ∧ id ∉ above := by
  induction stack generalizing above with
  | nil => simp [cutAt]
  | cons top rest ih =>
      by_cases h : top = id
      · subst h
        cases above with
        | nil => simp [cutAt]
        | cons a above =>
            simp only [cutAt, if_true, List.cons_append, List.cons.injEq, List.mem_cons]
            grind
      · cases above with
        | nil => simp [cutAt, h]
        | cons a above =>
            simp only [cutAt, h, if_false, Option.map_eq_some_iff, Prod.mk.injEq, Prod.exists,
              List.cons_append, List.cons.injEq, List.mem_cons, not_or]
            constructor
            · rintro ⟨_, _, hcut, ⟨rfl, rfl⟩, rfl⟩
              obtain ⟨hrest, hnot⟩ := ih.1 hcut
              exact ⟨⟨rfl, hrest⟩, Ne.symm h, hnot⟩
            · rintro ⟨⟨rfl, hrest⟩, _, hnot⟩
              exact ⟨_, _, ih.2 ⟨hrest, hnot⟩, ⟨rfl, rfl⟩, rfl⟩

/-- Closes a node: first what it left open above itself on the stack, the last one entered
first, then the node itself.  What is above it is closed in the same way, as far as it is part of
the node's own tree.  Every cut takes the node itself off the stack, so as many levels as the
stack is high suffice. -/
def releaseWithin (e : Setting σ) : Nat → Node σ → Traversal σ → Traversal σ
  | 0, n, w => w.close e n
  | levels + 1, n, w =>
      match cutAt n.id w.stack with
      | none => w.close e n
      | some (above, below) =>
          let w := above.foldl (fun w id =>
            if w.isOpen e id then
              match n.find? id with
              | some m => releaseWithin e levels m w
              | none => w
            else w) { w with stack := below }
          w.close e n

def release (e : Setting σ) (n : Node σ) (w : Traversal σ) : Traversal σ :=
  releaseWithin e w.stack.length n w

end Traversal
end BehaviorTrees
