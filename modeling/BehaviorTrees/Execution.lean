import BehaviorTrees.Traversal

/-!
# Running a node

`Node.execute` takes a node through one turn of its life: it is entered, opened unless it is open
already, ticked, closed unless it is still running, and left.  How a node ticks is said per kind,
in terms of runs of the nodes it holds.

Only repeaters without a bound may go on forever.  They are given `fuel` for their turns, and the
answer is `none` where it does not suffice; a tree without such repeaters always has an answer.
-/

namespace BehaviorTrees

variable {σ : Type}

/-- A run: a status and the state after it, or nothing for one that did not come to an end. -/
abbrev Exec (σ : Type) := Traversal σ → Option (Status × Traversal σ)

/-! ## Composites -/

/-- Runs children from left to right for as long as they answer `pass`.  Gives the last answer,
the position of the child that gave it, and the state; the answer is `pass` if all passed. -/
def scan (pass : Status) :
    Nat → List (Exec σ) → Traversal σ → Option (Status × Nat × Traversal σ)
  | i, [], w => some (pass, i, w)
  | i, run :: rest, w =>
      match run w with
      | none => none
      | some (s, w) => if s = pass then scan pass (i + 1) rest w else some (s, i, w)

/-- The later children are run only when all the earlier ones passed. -/
theorem scan_append (pass : Status) (i : Nat) (runs later : List (Exec σ)) (w : Traversal σ) :
    scan pass i (runs ++ later) w =
      (scan pass i runs w).bind fun (s, j, w) =>
        if s = pass then scan pass j later w else some (s, j, w) := by
  induction runs generalizing i w with
  | nil => simp [scan]
  | cons run rest ih =>
      simp only [List.cons_append, scan]
      cases run w with
      | none => rfl
      | some answer =>
          obtain ⟨s, w⟩ := answer
          by_cases h : s = pass <;> simp [h, ih]

/-- Begins with the first child every time. -/
def scanAll (pass : Status) (runs : List (Exec σ)) : Exec σ := fun w =>
  match scan pass 0 runs w with
  | none => none
  | some (s, _, w) => some (s, w)

/-- Begins with the child that was running last time. -/
def scanOn (e : Setting σ) (id : NodeId) (pass : Status) (runs : List (Exec σ)) : Exec σ :=
  fun w =>
    let start := w.rememberedCount e id Key.runningChild
    match scan pass start (runs.drop start) w with
    | none => none
    | some (s, i, w) =>
        some (s, if s = .running then w.remember e id Key.runningChild (.ofNat i) else w)

/-- A child that is not there answers with an error. -/
def Script.exec (e : Setting σ) (self : Info) (runs : List (Exec σ)) : Script σ → Exec σ
  | finish s, w => some (s, w)
  | act effect next, w =>
      let scene := w.scene e self
      (next scene).exec e self runs (w.apply (effect scene))
  | run i next, w =>
      match runs[i]? with
      | none => (next .error).exec e self runs w
      | some child =>
          match child w with
          | none => none
          | some (s, w) => (next s).exec e self runs w

def CompositeKind.tick (e : Setting σ) (self : Info) (runs : List (Exec σ)) :
    CompositeKind σ → Exec σ
  | sequence => scanAll .success runs
  | priority => scanAll .failure runs
  | memSequence => scanOn e self.id .success runs
  | memPriority => scanOn e self.id .failure runs
  | custom design => (design.script runs.length).exec e self runs

/-! ## Decorators -/

/-- Runs the child again for as long as its answers count, at most `turns` times, and counts
on from `i`.  Gives the last answer, which is `s` if there was no run at all. -/
def turns (run : Exec σ) (counts : Status → Bool) (bounded : Bool) :
    Nat → Nat → Status → Traversal σ → Option (Status × Nat × Traversal σ)
  | 0, i, s, w => if bounded then some (s, i, w) else none
  | left + 1, i, _, w =>
      match run w with
      | none => none
      | some (s, w) =>
          if counts s then turns run counts bounded left (i + 1) s w else some (s, i, w)

/-- Goes on from the count remembered, and remembers the new one. -/
def repeatRun (e : Setting σ) (fuel : Nat) (id : NodeId) (bound : Bound)
    (counts : Status → Bool) (idle : Status) (run : Exec σ) : Exec σ := fun w =>
  let i := w.rememberedCount e id Key.count
  let left := match bound with
    | some m => m - i
    | none => fuel
  match turns run counts bound.isSome left i idle w with
  | none => none
  | some (s, i, w) => some (s, w.remember e id Key.count (.ofNat i))

def limitRun (e : Setting σ) (id : NodeId) (maxLoop : Nat) (run : Exec σ) : Exec σ := fun w =>
  let i := w.rememberedCount e id Key.count
  if maxLoop ≤ i then some (.failure, w)
  else
    match run w with
    | none => none
    | some (s, w) =>
        some (s, if s.isTerminal then w.remember e id Key.count (.ofNat (i + 1)) else w)

/-- The time since a node opened, which is none at all when there is no record of that. -/
def elapsed (e : Setting σ) (id : NodeId) (now : Nat) (w : Traversal σ) : Nat :=
  now - ((w.remembered e id Key.startTime).bind Json.natural?).getD now

/-- The clock is read before the child runs, and the child runs in any case. -/
def timeRun (e : Setting σ) (id : NodeId) (maxTime : Nat) (run : Exec σ) : Exec σ := fun w =>
  let (now, w) := w.readClock e id
  let passed := elapsed e id now w
  match run w with
  | none => none
  | some (s, w) => some (if maxTime < passed then .failure else s, w)

def invertRun (run : Exec σ) : Exec σ := fun w =>
  match run w with
  | none => none
  | some (s, w) => some (s.invert, w)

/-- Without a child the answer is an error, so that the gap is seen. -/
def overChild (run? : Option (Exec σ)) (tick : Exec σ → Exec σ) : Exec σ :=
  match run? with
  | none => fun w => some (.error, w)
  | some run => tick run

def DecoratorKind.tick (e : Setting σ) (fuel : Nat) (self : Info) (run? : Option (Exec σ)) :
    DecoratorKind σ → Exec σ
  | inverter => overChild run? invertRun
  | limiter m => overChild run? (limitRun e self.id m)
  | maxTime m => overChild run? (timeRun e self.id m)
  | repeater m => overChild run? (repeatRun e fuel self.id m Status.isTerminal .success)
  | repeatUntilSuccess m => overChild run? (repeatRun e fuel self.id m (· == .failure) .error)
  | repeatUntilFailure m => overChild run? (repeatRun e fuel self.id m (· == .success) .error)
  | custom design => (design.script run?.toList.length).exec e self run?.toList

/-! ## Leaves -/

def LeafKind.tick (e : Setting σ) (self : Info) (w : Traversal σ) :
    LeafKind σ → Status × Traversal σ
  | succeeder => (.success, w)
  | failer => (.failure, w)
  | erring => (.error, w)
  | runner => (.running, w)
  | wait ms =>
      let (now, w) := w.readClock e self.id
      (if ms ≤ elapsed e self.id now w then .success else .running, w)
  | condition _ holds => (if holds w.target w.board then .success else .failure, w)
  | runAction _ act =>
      let (s, effect) := act w.target w.board
      (s, w.apply effect)
  | custom design =>
      let (s, effect) := design.tick (w.scene e self)
      (s, w.apply effect)

/-! ## Turns of life -/

/-- One turn in the life of a node around its tick. -/
def Node.live (e : Setting σ) (n : Node σ) (tick : Exec σ) : Exec σ := fun w =>
  let w := w.enter e n
  let w := if w.isOpen e n.id then w else w.startUp e n
  match (w.report e n .tick none).call n.id .tick tick with
  | none => none
  | some (s, w) =>
      let w := if s = .running then w else w.release e n
      some (s, w.exit e n s)

mutual

def Node.execute (e : Setting σ) (fuel : Nat) : Node σ → Exec σ
  | .composite l k cs =>
      let n : Node σ := .composite l k cs
      n.live e (k.tick e n.info (Node.executeAll e fuel cs))
  | .decorator l k none =>
      let n : Node σ := .decorator l k none
      n.live e (k.tick e fuel n.info none)
  | .decorator l k (some c) =>
      let n : Node σ := .decorator l k (some c)
      n.live e (k.tick e fuel n.info (some (Node.execute e fuel c)))
  | .leaf l k =>
      let n : Node σ := .leaf l k
      n.live e (fun w => some (k.tick e n.info w))

def Node.executeAll (e : Setting σ) (fuel : Nat) : List (Node σ) → List (Exec σ)
  | [] => []
  | c :: rest => Node.execute e fuel c :: Node.executeAll e fuel rest

end

theorem Node.executeAll_eq_map (e : Setting σ) (fuel : Nat) (cs : List (Node σ)) :
    Node.executeAll e fuel cs = cs.map (Node.execute e fuel) := by
  induction cs with
  | nil => rfl
  | cons c rest ih => simp [Node.executeAll, ih]

end BehaviorTrees
