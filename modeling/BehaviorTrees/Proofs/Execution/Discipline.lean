import BehaviorTrees.Proofs.Execution.Conduct
import BehaviorTrees.Proofs.Execution.Seclusion
import BehaviorTrees.Proofs.Execution.Visit

/-!
# The discipline of a single run

A run of a node may begin with anything on the stack and on the blackboard, as long as none of the
node's own tree is on the stack.  A node that is not running leaves the stack as it was.  A node
that is running leaves a path on it that goes from itself down to a leaf that was left running.  Of
the nodes entered those on the path are open and the others closed; and what belongs to other nodes
stays as it was, unless a leaf writes to it.
-/

namespace BehaviorTrees

variable {σ : Type} {e : Setting σ} {fuel : Nat} {n : Node σ} {w w' : Traversal σ} {s : Status}
  {H : List Entry}

/-! ## What is entered is left -/

/-- A visit that enters a node leaves it as well. -/
theorem Visit.exists_exit_of_mem_passages {x : Visit σ} (hx : x.Occurs e fuel) {a : Event}
    (ha : a ∈ x.passages e) (henter : a.phase = .enter) :
    ∃ b ∈ x.passages e, b.phase = .exit ∧ b.node = a.node := by
  induction hx with
  | @intro n w v status xs htick hrow hinner ih =>
      rw [passages_eq, List.mem_cons, List.mem_append, List.mem_flatMap] at ha
      rcases ha with rfl | ⟨k, hk, ha⟩ | ha
      · exact ⟨⟨e.tree, n.id, n.name, .exit, some status⟩, by simp [passages], rfl, rfl⟩
      · obtain ⟨b, hb, hexit⟩ := ih k hk ha
        refine ⟨b, ?_, hexit⟩
        rw [passages_eq]
        exact List.mem_cons_of_mem _ (List.mem_append_left _ (List.mem_flatMap.2 ⟨k, hk, hb⟩))
      · obtain rfl := List.mem_singleton.1 ha
        cases henter

/-- A run leaves every node it enters. -/
theorem Node.exists_exit_of_entered (hn : ∀ m ∈ n.nodes, m.script? = none)
    (h : n.execute e fuel w = some (s, w')) (hH : w'.history = w.history ++ H) {i : NodeId}
    (hi : Entered i H) : ∃ b ∈ H.filterMap Entry.event?, b.phase = .exit ∧ b.node = i := by
  obtain ⟨xs, ⟨hx, -⟩, hpassages⟩ := Visit.exists_of_execute hn h
  have hnew : Event.passages (H.filterMap Entry.event?) = Visit.passages e (.mk n w s xs) := by
    rw [Traversal.passages, events_eq_of_history hH, Event.passages_append] at hpassages
    exact List.append_cancel_left hpassages
  obtain ⟨a, ha, henter, rfl⟩ := hi
  have hmem : a ∈ Visit.passages e (.mk n w s xs) := by
    rw [← hnew]
    exact List.mem_filter.2 ⟨ha, by simp [Event.isPassage, henter]⟩
  obtain ⟨b, hb, hexit⟩ := Visit.exists_exit_of_mem_passages hx hmem henter
  rw [← hnew] at hb
  exact ⟨b, (List.mem_filter.1 hb).1, hexit⟩

/-! ## What does not belong to the tree -/

/-- The hook does not write under a key in a scope. -/
def Hook.Avoids (t : TreeId) (key : String) (scope : Scope) (h : Hook σ) : Prop :=
  ∀ s : Scene σ, s.tree = t → (h s).board.get key scope = s.board.get key scope

def LeafKind.Avoids (t : TreeId) (key : String) (scope : Scope) : LeafKind σ → Prop
  | runAction _ act => ∀ target (b : Blackboard), (act target b).2.board.get key scope =
      b.get key scope
  | custom design => ∀ s : Scene σ, s.tree = t →
      (design.tick s).2.board.get key scope = s.board.get key scope
  | _ => True

/-- Neither a hook of the node nor, if it is a leaf, its tick writes under the key in the scope. -/
structure Node.Avoids (t : TreeId) (key : String) (scope : Scope) (n : Node σ) : Prop where
  hooks : ∀ hook ∈ [n.hooks.enter, n.hooks.opening, n.hooks.close, n.hooks.exit],
    hook.Avoids t key scope
  leaf : ∀ l k, n = .leaf l k → k.Avoids t key scope

theorem LeafKind.get_tick {key : String} {scope : Scope} {k : LeafKind σ}
    (hk : k.Avoids e.tree key scope) (self : Info) (w : Traversal σ) :
    (k.tick e self w).2.board.get key scope = w.board.get key scope := by
  cases k with
  | runAction name act => exact hk w.target w.board
  | custom design => exact hk (w.scene e self) rfl
  | _ => rfl

theorem Traversal.get_remember {key : String} {scope : Scope} (hscope : scope.tree ≠ some e.tree)
    (w : Traversal σ) (id : NodeId) (key' : String) (value : Json) :
    (w.remember e id key' value).board.get key scope = w.board.get key scope := by
  rw [remember, Blackboard.get_set, if_neg]
  rintro ⟨-, haddress⟩
  exact hscope (Scope.tree_eq_of_address_eq haddress)

/-- The library writes to the memory of the tree and of its nodes only. -/
theorem Node.get_sustains {key : String} {scope : Scope} (hscope : scope.tree ≠ some e.tree)
    (hn : ∀ m ∈ n.nodes, m.script? = none) (havoids : ∀ m ∈ n.nodes, m.Avoids e.tree key scope)
    (value : Option Json) : Sustains e n fun w => w.board.get key scope = value where
  remember hu id key' value' := (Traversal.get_remember hscope _ id key' value').trans hu
  readClock hu _ := hu
  push hu _ := hu
  cut hu _ := hu
  report hu _ _ _ := hu
  note _ _ _ _ _ hu := hu
  perform l design hm x hx u hu := by
    have hhooks : ∀ x ∈ design.hooks.calls, x.2.Avoids e.tree key scope :=
      fun x hx => (havoids _ hm).hooks x.2 (List.mem_map_of_mem (f := Prod.snd) hx)
    exact (hhooks x hx ((u.noteCall _ x.1).scene e _) rfl).trans hu
  branch := hn
  leaf l k hm u hu := (LeafKind.get_tick ((havoids _ hm).leaf l k rfl) _ _).trans hu

/-- What is kept elsewhere than in the memory of the tree and of its nodes stays, if no leaf writes
to it. -/
theorem Node.get_execute {key : String} {scope : Scope} (hscope : scope.tree ≠ some e.tree)
    (hn : ∀ m ∈ n.nodes, m.script? = none) (havoids : ∀ m ∈ n.nodes, m.Avoids e.tree key scope)
    (h : n.execute e fuel w = some (s, w')) : w'.board.get key scope = w.board.get key scope :=
  (get_sustains hscope hn havoids _).execute n.mem_nodes_self rfl h

/-! ## Discipline -/

/-- What a run of the node `n` from `w` to `w'` does to the stack and to the records, where it added
`H` to the history and left `path` on the stack. -/
structure Node.Disciplined (e : Setting σ) (n : Node σ) (w : Traversal σ) (s : Status)
    (w' : Traversal σ) (H : List Entry) (path : List NodeId) : Prop where
  history : w'.history = w.history ++ H
  openNodes : w'.openNodes = w.openNodes ++ path
  finished : s ≠ .running → path = [] ∧ w'.isOpen e n.id = false
  running : s = .running → ∃ ℓ, n.LeafPath path ℓ ∧
    Event.lastStatus ℓ.id (H.filterMap Entry.event?) = some .running
  onPath : ∀ i ∈ path, w'.isOpen e i = true
  offPath : ∀ m ∈ n.nodes, Entered m.id H → m.id ∉ path → w'.isOpen e m.id = false
  /-- The records of the nodes of the tree, if they are no part of `n` or were not entered. -/
  unchanged : ∀ i, i ∉ n.ids ∨ ¬Entered i H → ∀ key ∈ Key.ofNode,
    w'.remembered e i key = w.remembered e i key
  /-- All that is kept for other trees and their nodes. -/
  elsewhere : ∀ key (scope : Scope), scope.tree ≠ some e.tree →
    (∀ m ∈ n.nodes, m.Avoids e.tree key scope) →
      w'.board.get key scope = w.board.get key scope

/-- The leaf at which a path ends that is on the stack was left running since the base. -/
theorem Settled.running_of_runsDown {base : Traversal σ} (hw : Settled e n base H w')
    (ho : n.Orderly e.tree) (hrun : n.execute e fuel base = some (s, w'))
    (hbase : ∀ i ∈ n.ids, i ∉ base.stack) (hdown : RunsDown n base w') :
    ∃ p ℓ, n.LeafPath p ℓ ∧ w'.stack = p.reverse ++ base.stack ∧
      Event.lastStatus ℓ.id (H.filterMap Entry.event?) = some .running := by
  obtain ⟨p, ℓ, hp, hstack, hlast⟩ := hdown
  have hentered : Entered ℓ.id H := by
    refine hw.entered_of_mem_stack hbase (Node.id_mem_ids hp.leaf_mem) ?_
    rw [hstack]
    exact List.mem_append_left _ (List.mem_reverse.2 hp.leaf_id_mem)
  obtain ⟨b, hb, hexit, hid⟩ :=
    Node.exists_exit_of_entered (fun m hm => (ho m hm).script?) hrun hw.history hentered
  refine ⟨p, ℓ, hp, hstack, ?_⟩
  rw [← hid] at hlast ⊢
  rwa [events_eq_of_history hw.history, Event.lastStatus_append_of_mem _ hb hexit] at hlast

/-- Every run of an orderly node keeps the discipline, whatever the stack and the blackboard hold
when it begins. -/
theorem Node.execute_disciplined (hn : n.ids.Nodup) (ho : n.Orderly e.tree)
    (hfree : ∀ i ∈ n.ids, i ∉ w.stack) (h : n.execute e fuel w = some (s, w')) :
    ∃ H path, n.Disciplined e w s w' H path := by
  obtain ⟨H, hw', hstays, hdown⟩ :=
    execute_settles hn ho hfree n.mem_nodes_self (.refl e n w) hfree h
  rw [List.nil_append] at hw'
  obtain ⟨path, hstack, hids, hfinished, hrunning⟩ : ∃ path, w'.stack = path.reverse ++ w.stack ∧
      path ⊆ n.ids ∧ (s ≠ .running → path = []) ∧
      (s = .running → ∃ ℓ, n.LeafPath path ℓ ∧
        Event.lastStatus ℓ.id (H.filterMap Entry.event?) = some .running) := by
    by_cases hs : s = .running
    · obtain ⟨path, ℓ, hpath, hstack, hlast⟩ := hw'.running_of_runsDown ho h hfree (hdown hs)
      exact ⟨path, hstack, hpath.subset_ids, fun hne => (hne hs).elim, fun _ => ⟨ℓ, hpath, hlast⟩⟩
    · exact ⟨[], hstays hs, by simp, fun _ => rfl, fun heq => (hs heq).elim⟩
  -- the stack did not hold any of the nodes, so what it holds of them now is the path
  have hmem : ∀ i ∈ n.ids, i ∈ w'.stack ↔ i ∈ path := by
    intro i hi
    simp [hstack, hfree i hi]
  refine ⟨H, path, ?_⟩
  constructor
  case history => exact hw'.history
  case openNodes => simp [Traversal.openNodes, hstack]
  case finished =>
    intro hs
    refine ⟨hfinished hs, ?_⟩
    rw [isOpen_execute hn ho hfree h, decide_eq_false hs]
  case running => exact hrunning
  case onPath =>
    intro i hi
    have hon : i ∈ w'.stack := (hmem i (hids hi)).2 hi
    exact (hw'.open_iff i (hw'.entered_of_mem_stack hfree (hids hi) hon)).2 hon
  case offPath =>
    intro m hm hentered hoff
    rw [Bool.eq_false_iff, Ne, hw'.open_iff m.id hentered, hmem m.id (id_mem_ids hm)]
    exact hoff
  case unchanged =>
    intro i hi key hkey
    have hnot : ¬Entered i H := fun hentered =>
      hi.elim (fun hout => hout (hw'.mem_ids_of_entered hentered)) fun hnot => hnot hentered
    exact hw'.ofNode i hnot key hkey
  case elsewhere =>
    intro key scope hscope havoids
    exact get_execute hscope (fun m hm => (ho m hm).script?) havoids h

/-! ## A child that is given up -/

/-- A clock that moves on by ten whenever it is read. -/
def hurrying : Setting Nat where
  tree := "t"
  clock := ⟨fun k => (10 * k, k + 1)⟩
  traced := false

/-- The time limit passes in the very tick that opens the first child. -/
def abandoning : Node Nat :=
  .composite { id := "p", title := "Priority" } .priority
    [.decorator { id := "m", title := "MaxTime" } (.maxTime 5)
      (some (.leaf { id := "a", title := "Runner" } .runner)),
     .leaf { id := "b", title := "Runner" } .runner,
     .leaf { id := "c", title := "Succeeder" } .succeeder]

/-- Another node is on the stack, and two nodes are marked as open that are not. -/
def disturbed : Traversal Nat where
  target := 0
  board := (∅ : Blackboard)
    |>.set Key.isOpen (.bool true) (.ofNode "t" "a")
    |>.set Key.isOpen (.bool true) (.ofNode "t" "c")
  stack := ["x"]

theorem abandoning_orderly : abandoning.Orderly "t" := by
  intro m hm
  simp only [abandoning, Node.nodes, Node.nodesOf, List.mem_cons, List.mem_append,
    List.not_mem_nil, or_false] at hm
  rcases hm with rfl | (rfl | rfl) | rfl | rfl <;> trivial

theorem Node.execute_disciplined_abandoning :
    ∃ w' H, abandoning.execute hurrying 0 disturbed = some (.running, w') ∧
      abandoning.Disciplined hurrying disturbed .running w' H ["p", "b"] ∧
      Entered "a" H ∧ w'.isOpen hurrying "a" = false ∧
      ¬Entered "c" H ∧ w'.isOpen hurrying "c" = true := by
  obtain ⟨⟨s, w'⟩, hrun, rfl, hopen, hentered, hnot⟩ :
      ∃ x ∈ abandoning.execute hurrying 0 disturbed, x.1 = .running ∧
        x.2.openNodes = ["x", "p", "b"] ∧ Entered "a" x.2.history ∧ ¬Entered "c" x.2.history := by
    decide +kernel
  obtain ⟨H, path, hdisciplined⟩ :=
    execute_disciplined (by decide) abandoning_orderly (by decide) hrun
  obtain rfl : w'.history = H := hdisciplined.history
  obtain rfl : path = ["p", "b"] := by
    have hpath := hdisciplined.openNodes
    rw [hopen] at hpath
    exact (List.cons.inj hpath).2.symm
  have hclosed : w'.isOpen hurrying "a" = false :=
    hdisciplined.offPath (.leaf { id := "a", title := "Runner" } .runner)
      (by simp [abandoning, nodes, nodesOf]) hentered (by decide)
  have hkept := hdisciplined.unchanged "c" (.inr hnot) Key.isOpen (by decide)
  have hstale : w'.isOpen hurrying "c" = true := by
    rw [Traversal.isOpen, hkept]
    decide
  exact ⟨w', w'.history, hrun, hdisciplined, hentered, hclosed, hnot, hstale⟩

end BehaviorTrees
