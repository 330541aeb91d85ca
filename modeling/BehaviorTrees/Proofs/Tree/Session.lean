import BehaviorTrees.Proofs.Execution.Renaming
import BehaviorTrees.Proofs.Tree.Diff
import BehaviorTrees.Proofs.Tree.RoundTrip

/-!
# Sessions

A session is a number of ticks on one target, which may be changed in between.  A tree under
another id goes through the same session, and so does a tree that was loaded from a dump.
-/

namespace BehaviorTrees

variable {σ : Type}

/-- What is done to the target before a tick, and whether the tick is reported. -/
structure Move (σ : Type) where
  change : σ → σ
  traced : Bool := false

namespace Tree

variable {π : Equiv.Perm TreeId} {e : Setting σ} {t : Tree σ} {root : Node σ}

/-- The ticks of a session. -/
def play (t : Tree σ) (fuel : Nat) :
    List (Move σ) → σ → Blackboard → Except TickFault (List (TickResult σ))
  | [], _, _ => .ok []
  | move :: later, target, b => do
      let r ← t.tick fuel move.traced (move.change target) b
      let rs ← t.play fuel later r.target r.board
      return r :: rs

/-! ## Ticks under another id -/

def TickResult.rename (π : Equiv.Perm TreeId) (r : TickResult σ) : TickResult σ :=
  { r with board := r.board.rename π, history := r.history.map (Entry.rename π) }

/-- The tree under its new id; from where it was loaded does not matter. -/
def rename (π : Equiv.Perm TreeId) (callerNames : List String) (t : Tree σ) : Tree σ :=
  { t with id := π t.id, callerNames }

theorem openNodes_rename (callerNames : List String) (b : Blackboard) :
    (t.rename π callerNames).openNodes (b.rename π) = t.openNodes b := by
  have hget := Blackboard.get_rename π b Key.openNodes (.ofTree t.id)
  rw [Scope.ofTree_rename] at hget
  simp only [openNodes, rename, hget]

theorem nodeCount_rename (callerNames : List String) (b : Blackboard) :
    (t.rename π callerNames).nodeCount (b.rename π) = t.nodeCount b := by
  have hget := Blackboard.get_rename π b Key.nodeCount (.ofTree t.id)
  rw [Scope.ofTree_rename] at hget
  simp only [nodeCount, rename, hget]

theorem closeStale_rename (h : ∀ m ∈ root.nodes, m.Blind π) (stale : List NodeId)
    (w : Traversal σ) :
    closeStale (e.rename π) root stale (w.rename π) = (closeStale e root stale w).rename π :=
  (rename_lockstep h).closeStale stale rfl

theorem keepRecord_rename (current : List NodeId) (w : Traversal σ) :
    keepRecord (e.rename π) current (w.rename π) = (keepRecord e current w).rename π := by
  simp only [keepRecord, ← Blackboard.set_rename, Scope.ofTree_rename, Setting.rename,
    Traversal.rename]

/-- A tick under the new id does what the tick under the old one does. -/
theorem tick_rename (h : ∀ root, t.root = some root → ∀ m ∈ root.nodes, m.Blind π)
    (callerNames : List String) (fuel : Nat) (traced : Bool) (target : σ) (b : Blackboard) :
    (t.rename π callerNames).tick fuel traced target (b.rename π) =
      (t.tick fuel traced target b).map (TickResult.rename π) := by
  have hroot : (t.rename π callerNames).root = t.root := rfl
  have hsetting : (t.rename π callerNames).setting traced = (t.setting traced).rename π := rfl
  have hstart : ({ target, board := b.rename π } : Traversal σ) =
      ({ target, board := b } : Traversal σ).rename π := rfl
  cases ht : t.root with
  | none => simp only [tick, hroot, ht, Except.map]
  | some root =>
      have hblind := h root ht
      simp only [tick, hroot, ht, hsetting, hstart, Node.execute_renamed hblind fuel _,
        openNodes_rename]
      cases root.execute (t.setting traced) fuel { target, board := b } with
      | none => rfl
      | some answer =>
          obtain ⟨s, w⟩ := answer
          have hopen : (w.rename π).openNodes = w.openNodes := rfl
          simp only [Option.map_some, hopen, closeStale_rename hblind, keepRecord_rename,
            Traversal.history_rename, Except.map]
          rfl

theorem play_rename (h : ∀ root, t.root = some root → ∀ m ∈ root.nodes, m.Blind π)
    (callerNames : List String) (fuel : Nat) (moves : List (Move σ)) (target : σ)
    (b : Blackboard) :
    (t.rename π callerNames).play fuel moves target (b.rename π) =
      (t.play fuel moves target b).map (List.map (TickResult.rename π)) := by
  induction moves generalizing target b with
  | nil => rfl
  | cons move later ih =>
      rw [play, play, tick_rename h]
      cases t.tick fuel move.traced (move.change target) b with
      | error fault => rfl
      | ok r =>
          have hlater := ih r.target r.board
          simp only [Except.map, bind, Except.bind, TickResult.rename] at hlater ⊢
          rw [hlater]
          cases t.play fuel later r.target r.board <;> rfl

/-! ## Sessions with a loaded dump -/

/-- Two ticks of trees that differ in nothing but their ids: the same answer, the same target, the
same nodes left open, the same number of nodes entered, and the same blackboard, reports, calls of
hooks and readings of the clock, but for the ids of the trees. -/
structure SameTick (t t' : Tree σ) (r r' : TickResult σ) : Prop where
  status : r'.status = r.status
  target : r'.target = r.target
  openNodes : t'.openNodes r'.board = t.openNodes r.board
  nodeCount : t'.nodeCount r'.board = t.nodeCount r.board
  board : r'.board = r.board.rename (Equiv.swap t.id t'.id)
  events : r'.events = r.events.map (Event.rename (Equiv.swap t.id t'.id))
  history : r'.history = r.history.map (Entry.rename (Equiv.swap t.id t'.id))

/-- Two sessions that are the same tick by tick, or that come to the same fault. -/
inductive SameSession (t t' : Tree σ) :
    Except TickFault (List (TickResult σ)) → Except TickFault (List (TickResult σ)) → Prop
  | done {rs rs' : List (TickResult σ)} (h : List.Forall₂ (SameTick t t') rs rs') :
      SameSession t t' (.ok rs) (.ok rs')
  | fault (fault : TickFault) : SameSession t t' (.error fault) (.error fault)

theorem TickResult.events_rename (r : TickResult σ) :
    (r.rename π).events = r.events.map (Event.rename π) := by
  simp only [TickResult.events, TickResult.rename, List.filterMap_map, List.map_filterMap]
  refine List.filterMap_congr fun x _ => ?_
  cases x <;> rfl

theorem sameTick_rename (callerNames : List String) (id : TreeId) (r : TickResult σ) :
    SameTick t (t.rename (Equiv.swap t.id id) callerNames) r
      (r.rename (Equiv.swap t.id id)) := by
  have hid : (t.rename (Equiv.swap t.id id) callerNames).id = id := Equiv.swap_apply_left t.id id
  constructor
  case status => rfl
  case target => rfl
  case openNodes => exact openNodes_rename callerNames r.board
  case nodeCount => exact nodeCount_rename callerNames r.board
  case board => rw [hid]; rfl
  case events => rw [hid]; exact r.events_rename
  case history => rw [hid]; rfl

theorem sameSession_rename (callerNames : List String) (id : TreeId)
    (h : ∀ root, t.root = some root → ∀ m ∈ root.nodes, m.Blind (Equiv.swap t.id id))
    (fuel : Nat) (moves : List (Move σ)) (target : σ) :
    SameSession t (t.rename (Equiv.swap t.id id) callerNames) (t.play fuel moves target ∅)
      ((t.rename (Equiv.swap t.id id) callerNames).play fuel moves target ∅) := by
  have hplay := play_rename h callerNames fuel moves target ∅
  rw [Blackboard.rename_empty] at hplay
  rw [hplay]
  cases t.play fuel moves target ∅ with
  | error fault => exact .fault fault
  | ok rs =>
      refine .done ?_
      rw [List.forall₂_map_right_iff, List.forall₂_same]
      exact fun r _ => sameTick_rename callerNames id r

/-- Loading its dump gives a restorable tree back, but for its id, and the two trees go through
every session on a new blackboard in the same way. -/
theorem ofRecord_dump_sameSession {names : Catalog σ} (h : t.Restorable names) (id : TreeId)
    (hblind : ∀ root, t.root = some root → ∀ m ∈ root.nodes, m.Blind (Equiv.swap t.id id)) :
    ∃ t', ofRecord id t.clock t.dump names = .ok t' ∧ t'.id = id ∧ t'.clock = t.clock ∧
      t'.root = t.root ∧ t'.title = t.title ∧ t'.description = t.description ∧
      t'.properties = t.properties ∧ t'.dump = t.dump ∧
      ∀ fuel moves target,
        SameSession t t' (t.play fuel moves target ∅) (t'.play fuel moves target ∅) := by
  have hsame : { t with id, callerNames := namesTaken names t.dump.nodes } =
      t.rename (Equiv.swap t.id id) (namesTaken names t.dump.nodes) := by
    rw [rename, Equiv.swap_apply_left]
  refine ⟨_, h.ofRecord_dump id, rfl, rfl, rfl, rfl, rfl, rfl, h.dump_eq id, ?_⟩
  intro fuel moves target
  rw [hsame]
  exact sameSession_rename _ id hblind fuel moves target

/-! ## A patrol -/

/-- A limiter over a leaf of the caller's own, an inverter that holds nothing, and a pause. -/
def patrol : Node Unit :=
  .composite { id := "s", title := "Patrol" } .sequence
    [.decorator { id := "l", title := "Twice", properties := .ofList [("maxLoop", .ofNat 2)] }
      (.limiter 2) (some (steadyLeaf.withId "a")),
      .decorator { id := "i", title := "Inverter" } .inverter none,
      .leaf { id := "w", title := "Wait", properties := .ofList [("milliseconds", .ofNat 5)] }
        (.wait 5)]

def patrolTree : Tree Unit := { emptyTree with title := "Patrol", root := some patrol }

theorem steadyNames_notBuiltin (name : String) (h : steadyNames.contains name = true) :
    Catalog.isBuiltin name = false := by
  obtain ⟨factory, hfactory⟩ := KeyMap.contains_iff.1 h
  obtain ⟨rfl, -⟩ := find?_steadyNames hfactory
  decide

theorem steadyLeaf_restorable (id : NodeId) : (steadyLeaf.withId id).Restorable steadyNames := by
  have htitle : (steadyLeaf.withId id).label.title ≠ "" := by
    change "Steady" ≠ ""
    decide
  exact ⟨_, steadyLeaf, rfl, rfl, .leaf ..,
    Node.laidOver_of_yields htitle (Label.yields_title "Steady" _)⟩

theorem mem_nodes_patrol {m : Node Unit} (hm : m ∈ patrol.nodes) :
    m.Restorable steadyNames ∧ ∀ π, m.Blind π := by
  simp only [patrol, Node.nodes, Node.nodesOf, List.mem_cons, List.mem_append,
    List.not_mem_nil, or_false] at hm
  rcases hm with rfl | (rfl | hm) | rfl | rfl
  · exact ⟨trivial, fun _ => trivial⟩
  · exact ⟨⟨by decide, .ofNat 2, rfl, rfl⟩, fun _ => trivial⟩
  · obtain rfl : m = steadyLeaf.withId "a" := by
      simpa [steadyLeaf, Node.ofLeaf, Node.withId, Node.mapLabel, Node.nodes] using hm
    exact ⟨steadyLeaf_restorable "a", fun π => ⟨Hooks.blind_default π, fun s => rfl⟩⟩
  · exact ⟨trivial, fun _ => trivial⟩
  · exact ⟨⟨.ofNat 5, rfl, rfl⟩, fun _ => trivial⟩

theorem patrolTree_restorable : patrolTree.Restorable steadyNames := by
  have hroot : ∀ {root}, patrolTree.root = some root → patrol = root := Option.some.inj
  constructor
  case title => decide
  case description => decide
  case nodup_ids =>
    rintro _ hr
    rw [← hroot hr]
    decide
  case titles =>
    rintro _ hr
    rw [← hroot hr]
    decide
  case nodes =>
    rintro _ hr m hm
    exact (mem_nodes_patrol (hroot hr ▸ hm)).1
  case names => exact steadyNames_notBuiltin
  case callerNames => simp [patrolTree, emptyTree]

theorem ofRecord_dump_sameSession_patrol :
    patrolTree.Restorable steadyNames ∧
      (∀ root, patrolTree.root = some root → ∀ m ∈ root.nodes,
        m.Blind (Equiv.swap patrolTree.id "u")) ∧
      ∃ t', ofRecord "u" patrolTree.clock patrolTree.dump steadyNames = .ok t' ∧
        t'.root = some patrol ∧ t'.dump = patrolTree.dump ∧
        SameSession patrolTree t' (patrolTree.play 0 [⟨fun u => u, true⟩] () ∅)
          (t'.play 0 [⟨fun u => u, true⟩] () ∅) := by
  have hblind : ∀ root, patrolTree.root = some root → ∀ m ∈ root.nodes,
      m.Blind (Equiv.swap patrolTree.id "u") := by
    intro root hroot m hm
    obtain rfl : patrol = root := Option.some.inj hroot
    exact (mem_nodes_patrol hm).2 _
  obtain ⟨t', hload, -, -, hroot, -, -, -, hdump, hsession⟩ :=
    ofRecord_dump_sameSession patrolTree_restorable "u" hblind
  exact ⟨patrolTree_restorable, hblind, t', hload, hroot, hdump, hsession 0 _ ()⟩

end Tree
end BehaviorTrees
