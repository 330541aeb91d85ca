import BehaviorTrees.Proofs.Execution.Lockstep

/-!
# Trees that keep to themselves

A run of a tree reads and writes the memory of that tree and of its nodes, as far as the nodes are
of the library.  If its leaves use the memory of their own nodes only, it cannot be told what else
there is on the blackboard: two runs on blackboards that agree on the memory of the tree go the same
way, and what does not belong to the tree stays as it was.
-/

namespace BehaviorTrees

variable {σ : Type} {t : TreeId} {id : NodeId} {b b' b₀ b₀' : Blackboard}

theorem Scope.tree_eq_of_address_eq {scope scope' : Scope} (h : scope.address = scope'.address) :
    scope.tree = scope'.tree := by
  rcases scope with ⟨_ | t, _ | n⟩ <;> rcases scope' with ⟨_ | t', _ | n'⟩ <;>
    simp_all [address]

namespace Blackboard

/-- Two blackboards agree on the memory of a tree and on those of its nodes. -/
def AgreesAt (t : TreeId) (b b' : Blackboard) : Prop :=
  ∀ key node, b'.get key ⟨some t, node⟩ = b.get key ⟨some t, node⟩

/-- Two blackboards agree on the global memory and on those of all the other trees. -/
def SameOutside (t : TreeId) (b b' : Blackboard) : Prop :=
  ∀ key (scope : Scope), scope.tree ≠ some t → b'.get key scope = b.get key scope

/-- Two blackboards agree on the memory of one node. -/
def SameMemory (t : TreeId) (id : NodeId) (b b' : Blackboard) : Prop :=
  ∀ key, b'.get key (.ofNode t id) = b.get key (.ofNode t id)

theorem AgreesAt.set (h : b.AgreesAt t b') (key : String) (value : Json) (scope : Scope) :
    (b.set key value scope).AgreesAt t (b'.set key value scope) := by
  intro key' node
  rw [get_set, get_set, h]

theorem SameOutside.set (h : b₀.SameOutside t b) (key : String) (value : Json) {scope : Scope}
    (hscope : scope.tree = some t) : b₀.SameOutside t (b.set key value scope) := by
  intro key' scope' hne
  rw [get_set, if_neg, h key' scope' hne]
  rintro ⟨-, haddress⟩
  exact hne ((Scope.tree_eq_of_address_eq haddress).trans hscope)

theorem SameOutside.trans (h : b₀.SameOutside t b) (h' : b.SameOutside t b') :
    b₀.SameOutside t b' :=
  fun key scope hne => (h' key scope hne).trans (h key scope hne)

theorem SameOutside.agreesAt {u : TreeId} (h : b.SameOutside t b') (hne : u ≠ t) :
    b.AgreesAt u b' :=
  fun key node => h key ⟨some u, node⟩ fun heq => hne (Option.some.inj heq)

theorem AgreesAt.trans {b'' : Blackboard} (h : b.AgreesAt t b') (h' : b'.AgreesAt t b'') :
    b.AgreesAt t b'' :=
  fun key node => (h' key node).trans (h key node)

end Blackboard

/-! ## Secluded leaves -/

/-- What is done reads and writes the memory of one node only. -/
structure Confined {α : Type} (t : TreeId) (id : NodeId) (f : Blackboard → α × Blackboard) :
    Prop where
  reads : ∀ b b', b.SameMemory t id b' → (f b').1 = (f b).1 ∧ (f b).2.SameMemory t id (f b').2
  writes : ∀ b key (scope : Scope), scope.address ≠ .node t id →
    (f b).2.get key scope = b.get key scope

namespace Confined

variable {α : Type} {f : Blackboard → α × Blackboard}

theorem agreesAt (h : Confined t id f) (hb : b.AgreesAt t b') :
    (f b').1 = (f b).1 ∧ (f b).2.AgreesAt t (f b').2 := by
  obtain ⟨hvalue, hown⟩ := h.reads b b' fun key => hb key (some id)
  refine ⟨hvalue, fun key node => ?_⟩
  by_cases hnode : node = some id
  · subst hnode
    exact hown key
  · have haddress : (⟨some t, node⟩ : Scope).address ≠ .node t id := by
      cases node with
      | none => simp [Scope.address]
      | some i =>
          rintro ⟨⟩
          exact hnode rfl
    rw [h.writes b key _ haddress, h.writes b' key _ haddress, hb]

theorem sameOutside (h : Confined t id f) (hb : b₀.SameOutside t b) :
    b₀.SameOutside t (f b).2 := by
  intro key scope hne
  rw [h.writes b key scope, hb key scope hne]
  intro haddress
  have htree : scope.address = (Scope.ofNode t id).address := haddress
  exact hne (Scope.tree_eq_of_address_eq htree)

theorem pure (t : TreeId) (id : NodeId) (a : α) : Confined t id fun b => (a, b) :=
  ⟨fun _ _ h => ⟨rfl, h⟩, fun _ _ _ _ => rfl⟩

end Confined

def Effect.pair (effect : Effect σ) : σ × Blackboard := (effect.target, effect.board)

/-- The hook uses the memory of its own node only. -/
def Hook.Secluded (t : TreeId) (h : Hook σ) : Prop :=
  ∀ s : Scene σ, s.tree = t → Confined t s.self.id fun b => (h { s with board := b }).pair

structure Hooks.Secluded (t : TreeId) (h : Hooks σ) : Prop where
  enter : h.enter.Secluded t
  opening : h.opening.Secluded t
  close : h.close.Secluded t
  exit : h.exit.Secluded t

theorem Hooks.secluded_default (t : TreeId) : Hooks.Secluded t ({} : Hooks σ) := by
  constructor <;> exact fun s _ => .pure t s.self.id s.target

/-- The leaf uses the memory of its own node only. -/
def LeafKind.Secluded (t : TreeId) (id : NodeId) : LeafKind σ → Prop
  | condition _ holds => ∀ target, Confined t id fun b => (holds target b, b)
  | runAction _ act => ∀ target, Confined t id fun b =>
      (((act target b).1, (act target b).2.target), (act target b).2.board)
  | custom design => design.hooks.Secluded t ∧ ∀ s : Scene σ, s.tree = t →
      Confined t s.self.id fun b => (((design.tick { s with board := b }).1,
        (design.tick { s with board := b }).2.target), (design.tick { s with board := b }).2.board)
  | _ => True

/-- A composite or a decorator of the library, or a leaf that uses the memory of its own node
only. -/
def Node.Secluded (t : TreeId) : Node σ → Prop
  | composite _ (.custom _) _ => False
  | decorator _ (.custom _) _ => False
  | leaf l k => k.Secluded t l.id
  | _ => True

theorem Node.Secluded.script? {n : Node σ} (h : n.Secluded t) : n.script? = none :=
  script?_eq_none (P := Secluded t) (fun _ _ _ => not_false) (fun _ _ _ => not_false) h

theorem Node.Secluded.hooks {n : Node σ} (h : n.Secluded t) : n.hooks.Secluded t := by
  rcases hooks_eq_default_or_custom h.script? with hdefault | ⟨l, design, rfl⟩
  · exact hdefault ▸ Hooks.secluded_default t
  · exact h.1

/-! ## Two runs of one tree -/

/-- The same entry, but for what is on the blackboard besides the memory of the tree. -/
inductive Entry.Agrees (t : TreeId) : Entry → Entry → Prop
  | report (event : Event) {b b' : Blackboard} (h : b.AgreesAt t b') :
      Agrees t (.report event b) (.report event b')
  | call (node : NodeId) (phase : Phase) : Agrees t (.call node phase) (.call node phase)
  | reading (node : NodeId) (now : Nat) : Agrees t (.reading node now) (.reading node now)

/-- Two states of runs of one tree that differ only in what is on the blackboard besides the memory
of the tree, and that is in both as it was at first. -/
structure Alongside (t : TreeId) (b₀ b₀' : Blackboard) (w w' : Traversal σ) : Prop where
  target : w'.target = w.target
  stack : w'.stack = w.stack
  count : w'.count = w.count
  journal : List.Forall₂ (Entry.Agrees t) w.journal w'.journal
  board : w.board.AgreesAt t w'.board
  outside : b₀.SameOutside t w.board
  outside' : b₀'.SameOutside t w'.board

namespace Alongside

variable {e : Setting σ} {w w' : Traversal σ}

theorem remember (h : Alongside e.tree b₀ b₀' w w') (key : String) (value : Json) :
    Alongside e.tree b₀ b₀' (w.remember e id key value) (w'.remember e id key value) :=
  { h with
    board := h.board.set key value _
    outside := h.outside.set key value rfl
    outside' := h.outside'.set key value rfl }

theorem readClock (h : Alongside e.tree b₀ b₀' w w') (id : NodeId) :
    (w'.readClock e id).1 = (w.readClock e id).1 ∧
      Alongside e.tree b₀ b₀' (w.readClock e id).2 (w'.readClock e id).2 := by
  simp only [Traversal.readClock, h.target]
  exact ⟨trivial, { h with target := rfl, journal := .cons (.reading id _) h.journal }⟩

theorem tied (id : NodeId) (b₀ b₀' : Blackboard) :
    Tied e e id id (Alongside e.tree b₀ b₀') where
  remembered h key _ := h.board key (some id)
  remember h key _ _ value := h.remember key value
  now h := (h.readClock id).1
  readClock h := (h.readClock id).2

theorem report (h : Alongside e.tree b₀ b₀' w w') (n : Node σ) (phase : Phase)
    (status : Option Status) :
    Alongside e.tree b₀ b₀' (w.report e n phase status) (w'.report e n phase status) :=
  { h with journal := .cons (.report _ h.board) h.journal }

theorem noteCall (h : Alongside t b₀ b₀' w w') (id : NodeId) (phase : Phase) :
    Alongside t b₀ b₀' (w.noteCall id phase) (w'.noteCall id phase) :=
  { h with journal := .cons (.call id phase) h.journal }

/-- What uses the memory of one node only does the same in both runs. -/
theorem confined {α : Type} {f : Blackboard → α × Blackboard} (h : Alongside t b₀ b₀' w w')
    (hf : Confined t id f) (target : α → σ) :
    (f w'.board).1 = (f w.board).1 ∧
      Alongside t b₀ b₀' (w.apply ⟨target (f w.board).1, (f w.board).2⟩)
        (w'.apply ⟨target (f w'.board).1, (f w'.board).2⟩) := by
  obtain ⟨hvalue, hboard⟩ := hf.agreesAt h.board
  exact ⟨hvalue, { h with
    target := congrArg target hvalue
    board := hboard
    outside := hf.sameOutside h.outside
    outside' := hf.sameOutside h.outside' }⟩

theorem scene_eq (h : Alongside t b₀ b₀' w w') (self : Info) :
    w'.scene e self = { w.scene e self with board := w'.board } := by
  simp only [Traversal.scene, Traversal.openNodes, h.target, h.stack, h.count]

theorem act (h : Alongside e.tree b₀ b₀' w w') {n : Node σ} {hook : Hook σ}
    (hhook : hook.Secluded e.tree) :
    Alongside e.tree b₀ b₀' (w.act e n hook) (w'.act e n hook) := by
  rw [Traversal.act, Traversal.act, h.scene_eq]
  exact (h.confined (hhook (w.scene e n.info) rfl) fun target => target).2

theorem leaf (h : Alongside e.tree b₀ b₀' w w') {l : Label} {k : LeafKind σ}
    (hk : k.Secluded e.tree l.id) {self : Info} :
    (k.tick e self w').1 = (k.tick e self w).1 ∧
      Alongside e.tree b₀ b₀' (k.tick e self w).2 (k.tick e self w').2 := by
  cases k with
  | wait ms =>
      obtain ⟨hnow, hread⟩ := h.readClock self.id
      have helapsed := (tied self.id b₀ b₀').elapsed hread (w.readClock e self.id).1
      simp only [LeafKind.tick, hnow, helapsed]
      exact ⟨trivial, hread⟩
  | condition name holds =>
      have hholds : holds w.target w'.board = holds w.target w.board :=
        ((hk w.target).agreesAt h.board).1
      simp only [LeafKind.tick, h.target, hholds]
      exact ⟨trivial, h⟩
  | runAction name act =>
      obtain ⟨hvalue, happlied⟩ := h.confined (hk w.target) Prod.snd
      have hstatus := congrArg Prod.fst hvalue
      simp only [LeafKind.tick, h.target]
      exact ⟨hstatus, happlied⟩
  | custom design =>
      obtain ⟨hvalue, happlied⟩ := h.confined (hk.2 (w.scene e self) rfl) Prod.snd
      have hstatus := congrArg Prod.fst hvalue
      simp only [LeafKind.tick, h.scene_eq]
      exact ⟨hstatus, happlied⟩
  | _ => exact ⟨rfl, h⟩

end Alongside

theorem alongside_lockstep {e : Setting σ} {root : Node σ}
    (h : ∀ m ∈ root.nodes, m.Secluded e.tree) (b₀ b₀' : Blackboard) :
    Lockstep e e root (Alongside e.tree b₀ b₀') where
  stack h := h.stack
  tied id := Alongside.tied id b₀ b₀'
  mark h id flag := h.remember Key.isOpen (.bool flag)
  push h id := { h with
    stack := congrArg (List.cons id) h.stack
    count := congrArg (· + 1) h.count }
  cut h stack := { h with stack := rfl }
  report h := h.report
  note n _ _ phase _ _ hw := hw.noteCall n.id phase
  perform l design hn x hx w w' hw := by
    have hhooks := (h _ hn).hooks
    have hacts : ∀ x ∈ design.hooks.calls, x.2.Secluded e.tree :=
      Hooks.forall_mem_calls.2 ⟨hhooks.enter, hhooks.opening, hhooks.close, hhooks.exit⟩
    exact (hw.noteCall _ x.1).act (hacts x hx)
  branch n hn := (h n hn).script?
  leaf l k hn w w' hw := (hw.noteCall l.id .tick).leaf (h _ hn)

end BehaviorTrees
