import BehaviorTrees.Proofs.Execution.Lockstep
import BehaviorTrees.Proofs.Execution.Turn

/-!
# Runs of trees that share nodes

Two trees have nodes in common, though they need not have the same shape.  An `Origin` gives for the
id of a node of the second tree that of the node of the first one that it stands for, if there is
one.  Two states are `Alike` if they differ only in what has to do with nodes that stand for none,
and in the names of those that do.  Leaves that do not look at the records of a run do the same on
both.
-/

namespace BehaviorTrees

variable {σ : Type} {t : TreeId} {b b' b₁ b₁' : Blackboard}

/-- A place in which the runs of a tree keep their records. -/
def Address.IsRecord (t : TreeId) (key : String) : Address → Prop
  | base => False
  | tree u => u = t ∧ key ∈ Key.ofTree
  | node u _ => u = t ∧ key ∈ Key.ofNode

namespace Blackboard

/-- Two blackboards agree but for the records of the runs of a tree. -/
def SameOff (t : TreeId) (b b' : Blackboard) : Prop :=
  ∀ key (scope : Scope), ¬scope.address.IsRecord t key → b'.get key scope = b.get key scope

namespace SameOff

theorem refl (t : TreeId) (b : Blackboard) : b.SameOff t b := fun _ _ _ => rfl

theorem set_left (h : b.SameOff t b') {key : String} {scope : Scope}
    (hrecord : scope.address.IsRecord t key) (value : Json) :
    (b.set key value scope).SameOff t b' := by
  intro key' scope' hoff
  rw [h key' scope' hoff, get_set, if_neg]
  rintro ⟨rfl, haddress⟩
  exact hoff (haddress ▸ hrecord)

theorem set_right (h : b.SameOff t b') {key : String} {scope : Scope}
    (hrecord : scope.address.IsRecord t key) (value : Json) :
    b.SameOff t (b'.set key value scope) := by
  intro key' scope' hoff
  rw [← h key' scope' hoff, get_set, if_neg]
  rintro ⟨rfl, haddress⟩
  exact hoff (haddress ▸ hrecord)

end SameOff
end Blackboard

/-! ## Leaves that are unaware of the records -/

/-- Two scenes that differ at most in the records of the runs, in the nodes entered and not yet
closed, and in the number of those entered. -/
structure Scene.Resembles (s s' : Scene σ) : Prop where
  self : s'.self = s.self
  tree : s'.tree = s.tree
  clock : s'.clock = s.clock
  traced : s'.traced = s.traced
  target : s'.target = s.target
  board : s.board.SameOff s.tree s'.board

structure Effect.Resembles (t : TreeId) (x x' : Effect σ) : Prop where
  target : x'.target = x.target
  board : x.board.SameOff t x'.board

/-- The hook does not look at the records of the runs of a tree. -/
def Hook.Unaware (t : TreeId) (h : Hook σ) : Prop :=
  ∀ s s' : Scene σ, s.tree = t → s.Resembles s' → (h s).Resembles t (h s')

structure Hooks.Unaware (t : TreeId) (h : Hooks σ) : Prop where
  enter : h.enter.Unaware t
  opening : h.opening.Unaware t
  close : h.close.Unaware t
  exit : h.exit.Unaware t

theorem Hooks.unaware_default (t : TreeId) : Hooks.Unaware t ({} : Hooks σ) := by
  constructor <;> exact fun s s' hs h => ⟨h.target, hs ▸ h.board⟩

def LeafKind.Unaware (t : TreeId) : LeafKind σ → Prop
  | condition _ holds => ∀ target (b b' : Blackboard), b.SameOff t b' →
      holds target b' = holds target b
  | runAction _ act => ∀ target (b b' : Blackboard), b.SameOff t b' →
      (act target b').1 = (act target b).1 ∧ (act target b).2.Resembles t (act target b').2
  | custom design => design.hooks.Unaware t ∧ ∀ s s' : Scene σ, s.tree = t → s.Resembles s' →
      (design.tick s').1 = (design.tick s).1 ∧ (design.tick s).2.Resembles t (design.tick s').2
  | _ => True

/-- If the node is a leaf, it does not look at the records of the runs of a tree. -/
def Node.Unaware (t : TreeId) : Node σ → Prop
  | leaf _ k => k.Unaware t
  | _ => True

theorem Node.Unaware.hooks {n : Node σ} (h : n.Unaware t) (hn : n.script? = none) :
    n.hooks.Unaware t := by
  rcases hooks_eq_default_or_custom hn with hdefault | ⟨l, design, rfl⟩
  · exact hdefault ▸ Hooks.unaware_default t
  · exact h.1

/-! ## States that are alike -/

/-- Which node of the first tree a node of the second one stands for. -/
abbrev Origin := NodeId → Option NodeId

/-- No two nodes stand for the same one. -/
def Origin.Distinct (κ : Origin) : Prop := ∀ {i j j'}, κ j = some i → κ j' = some i → j = j'

/-- The call of a hook, told of the node that the one called stands for. -/
def Entry.callOf? (κ : Origin) : Entry → Option (NodeId × Phase)
  | call node phase => (κ node).map (·, phase)
  | _ => none

namespace Traversal

/-- The calls of hooks so far, the last one first. -/
def callsOf (κ : Origin) (w : Traversal σ) : List (NodeId × Phase) :=
  w.journal.filterMap (Entry.callOf? κ)

variable {κ : Origin} {e : Setting σ} {n : Node σ}

theorem callsOf_tell {i : NodeId} (h : κ n.id = some i) (phase : Phase) (status : Option Status)
    (w : Traversal σ) : (w.tell e n phase status).callsOf κ = (i, phase) :: w.callsOf κ := by
  simp [callsOf, tell, report, noteCall, List.filterMap_cons, Entry.callOf?, h]

theorem callsOf_tell_of_none (h : κ n.id = none) (phase : Phase) (status : Option Status)
    (w : Traversal σ) : (w.tell e n phase status).callsOf κ = w.callsOf κ := by
  simp [callsOf, tell, report, noteCall, List.filterMap_cons, Entry.callOf?, h]

end Traversal

/-- Two states that differ only in what has to do with nodes of the second tree that stand for none
of the first one, in the ids of those that do, and in where the nodes `moved` go on. -/
structure Alike (κ : Origin) (moved : List NodeId) (e : Setting σ) (w w' : Traversal σ) :
    Prop where
  target : w'.target = w.target
  board : w.board.SameOff e.tree w'.board
  stack : w'.stack.filterMap κ = w.stack
  records : ∀ {i j}, κ j = some i → ∀ key ∈ Key.ofNode, (i ∈ moved → key ≠ Key.runningChild) →
    w'.remembered e j key = w.remembered e i key
  calls : w'.callsOf κ = w.callsOf some

/-- The one node stands for the other, and their hooks are the same. -/
structure Node.Peers (κ : Origin) (n n' : Node σ) : Prop where
  id : κ n'.id = some n.id
  hooks : n' = n ∨ (n.hooks = {} ∧ n'.hooks = {})

theorem isRecord_ofNode {key : String} (h : key ∈ Key.ofNode) (t : TreeId) (id : NodeId) :
    (Scope.ofNode t id).address.IsRecord t key :=
  ⟨rfl, h⟩

namespace Alike

variable {κ : Origin} {moved : List NodeId} {e : Setting σ} {w w' : Traversal σ} {n n' : Node σ}
  {i j : NodeId}

theorem isOpen (h : Alike κ moved e w w') (hκ : κ j = some i) : w'.isOpen e j = w.isOpen e i := by
  rw [Traversal.isOpen, Traversal.isOpen,
    h.records hκ Key.isOpen (by simp [Key.ofNode]) fun _ => by decide]

theorem cut (h : Alike κ moved e w w') {stack stack' : List NodeId}
    (hcut : stack'.filterMap κ = stack) :
    Alike κ moved e { w with stack := stack } { w' with stack := stack' } :=
  { h with stack := hcut }

theorem apply (h : Alike κ moved e w w') {x x' : Effect σ} (hx : x.Resembles e.tree x')
    (hkeeps : w.board.SameRecords e.tree x.board)
    (hkeeps' : w'.board.SameRecords e.tree x'.board) : Alike κ moved e (w.apply x) (w'.apply x') :=
  { h with
    target := hx.target
    board := hx.board
    records := fun {i j} hκ key hkey hmoved =>
      ((hkeeps'.ofNode key hkey j).trans (h.records hκ key hkey hmoved)).trans
        (hkeeps.ofNode key hkey i).symm }

theorem scene (h : Alike κ moved e w w') (self : Info) :
    (w.scene e self).Resembles (w'.scene e self) :=
  ⟨rfl, rfl, rfl, rfl, h.target, h.board⟩

theorem readClock (h : Alike κ moved e w w') (i j : NodeId) :
    (w'.readClock e j).1 = (w.readClock e i).1 ∧
      Alike κ moved e (w.readClock e i).2 (w'.readClock e j).2 := by
  simp only [Traversal.readClock, h.target]
  exact ⟨trivial, { h with target := rfl }⟩

/-! ### Nodes that stand for another -/

theorem remember (h : Alike κ moved e w w') (hdistinct : κ.Distinct) (hκ : κ j = some i)
    (key : String) (hkey : key ∈ Key.ofNode) (value : Json) :
    Alike κ moved e (w.remember e i key value) (w'.remember e j key value) :=
  { h with
    board := (h.board.set_left (isRecord_ofNode hkey e.tree i) value).set_right
      (isRecord_ofNode hkey e.tree j) value
    records := by
      intro i' j' hκ' key' hkey' hmoved
      have hiff : j' = j ↔ i' = i := by
        constructor
        · rintro rfl
          exact Option.some.inj (hκ'.symm.trans hκ)
        · rintro rfl
          exact hdistinct hκ' hκ
      simp only [Traversal.remembered_remember, hiff, h.records hκ' key' hkey' hmoved] }

theorem tied (hdistinct : κ.Distinct) (hκ : κ j = some i) (hi : i ∉ moved) :
    Tied e e i j (Alike κ moved e) where
  remembered h key hkey := h.records hκ key hkey fun hmoved => (hi hmoved).elim
  remember h key hkey _ value := h.remember hdistinct hκ key hkey value
  now h := (h.readClock i j).1
  readClock h := (h.readClock i j).2

/-- It does not matter where a node that is moved goes on. -/
theorem remember_moved (h : Alike κ moved e w w') (hκ : κ j = some i) (hi : i ∈ moved)
    (value value' : Json) :
    Alike κ moved e (w.remember e i Key.runningChild value)
      (w'.remember e j Key.runningChild value') :=
  { h with
    board := (h.board.set_left (isRecord_ofNode (by simp [Key.ofNode]) e.tree i) value).set_right
      (isRecord_ofNode (by simp [Key.ofNode]) e.tree j) value'
    records := by
      intro i' j' hκ' key hkey hmoved
      rw [Traversal.remembered_remember, Traversal.remembered_remember, if_neg, if_neg,
        h.records hκ' key hkey hmoved]
      · rintro ⟨hchild, rfl⟩
        exact hmoved hi hchild
      · rintro ⟨hchild, rfl⟩
        obtain rfl : i' = i := Option.some.inj (hκ'.symm.trans hκ)
        exact hmoved hi hchild }

theorem mem_stack_iff (h : Alike κ moved e w w') (hdistinct : κ.Distinct) (hκ : κ j = some i) :
    i ∈ w.stack ↔ j ∈ w'.stack := by
  rw [← h.stack, List.mem_filterMap]
  constructor
  · rintro ⟨j', hj', hκ'⟩
    exact hdistinct hκ hκ' ▸ hj'
  · exact fun hj => ⟨j, hj, hκ⟩

theorem push (h : Alike κ moved e w w') (hκ : κ j = some i) :
    Alike κ moved e { w with count := w.count + 1, stack := i :: w.stack }
      { w' with count := w'.count + 1, stack := j :: w'.stack } :=
  { h with stack := by rw [List.filterMap_cons_some hκ, h.stack] }

theorem tell (h : Alike κ moved e w w') (hκ : κ n'.id = some n.id) (phase : Phase)
    (status status' : Option Status) :
    Alike κ moved e (w.tell e n phase status) (w'.tell e n' phase status') :=
  { h with
    calls := by
      rw [Traversal.callsOf_tell hκ, Traversal.callsOf_tell (i := n.id) rfl, h.calls] }

theorem leaf (h : Alike κ moved e w w') (hdistinct : κ.Distinct) {k : LeafKind σ}
    (hkeeps : k.KeepsRecords e.tree) (hk : k.Unaware e.tree) {self : Info}
    (hκ : κ self.id = some self.id) (hself : self.id ∉ moved) :
    (k.tick e self w').1 = (k.tick e self w).1 ∧
      Alike κ moved e (k.tick e self w).2 (k.tick e self w').2 := by
  cases k with
  | wait ms =>
      obtain ⟨hnow, hread⟩ := h.readClock self.id self.id
      have helapsed := (tied (e := e) hdistinct hκ hself).elapsed hread (w.readClock e self.id).1
      simp only [LeafKind.tick, hnow, helapsed]
      exact ⟨trivial, hread⟩
  | condition name holds =>
      simp only [LeafKind.tick, h.target, hk _ _ _ h.board]
      exact ⟨trivial, h⟩
  | runAction name act =>
      obtain ⟨hstatus, heffect⟩ := hk w.target _ _ h.board
      simp only [LeafKind.tick, h.target]
      exact ⟨hstatus, h.apply heffect (hkeeps _ _) (hkeeps _ _)⟩
  | custom design =>
      obtain ⟨hstatus, heffect⟩ := hk.2 _ _ rfl (h.scene self)
      have hkept := hkeeps.2 (w.scene e self) rfl
      have hkept' := hkeeps.2 (w'.scene e self) rfl
      exact ⟨hstatus, h.apply heffect hkept hkept'⟩
  | _ => exact ⟨rfl, h⟩

section

variable (hp : n.Peers κ n') (hn : n.Standard e.tree) (hu : n.Unaware e.tree)

theorem act (h : Alike κ moved e w w') (hp : n.Peers κ n') (hook : Hooks σ → Hook σ)
    (hnone : hook {} = Scene.unchanged) (hkeeps : (hook n.hooks).KeepsRecords e.tree)
    (hunaware : (hook n.hooks).Unaware e.tree) :
    Alike κ moved e (w.act e n (hook n.hooks)) (w'.act e n' (hook n'.hooks)) := by
  rcases hp.hooks with rfl | ⟨hdefault, hdefault'⟩
  · have hkept := hkeeps (w.scene e n'.info) rfl
    have hkept' := hkeeps (w'.scene e n'.info) rfl
    exact h.apply (hunaware _ _ rfl (h.scene n'.info)) hkept hkept'
  · rw [hdefault, hdefault', hnone]
    exact h

include hp hn hu

theorem enter (h : Alike κ moved e w w') : Alike κ moved e (w.enter e n) (w'.enter e n') :=
  ((h.push hp.id).tell hp.id .enter none none).act hp Hooks.enter rfl hn.hooks.enter
    (hu.hooks hn.script?).enter

theorem begin (hdistinct : κ.Distinct)
    (hrenew : ∀ {v v'}, Alike κ moved e v v' → Alike κ moved e (v.renew e n) (v'.renew e n'))
    (h : Alike κ moved e w w') : Alike κ moved e (w.begin e n) (w'.begin e n') := by
  have henter := h.enter hp hn hu
  simp only [Traversal.begin, henter.isOpen hp.id]
  split
  · exact henter.tell hp.id .tick none none
  · have hflag := henter.remember hdistinct hp.id Key.isOpen (by simp [Key.ofNode])
      (.bool true)
    have hstart := (hrenew (hflag.tell hp.id .opening none none)).act hp Hooks.opening rfl
      hn.hooks.opening (hu.hooks hn.script?).opening
    exact hstart.tell hp.id .tick none none

theorem close (hdistinct : κ.Distinct) (h : Alike κ moved e w w') :
    Alike κ moved e (w.close e n) (w'.close e n') := by
  have hflag := h.remember hdistinct hp.id Key.isOpen (by simp [Key.ofNode])
    (.bool false)
  exact (hflag.tell hp.id .close none none).act hp Hooks.close rfl hn.hooks.close
    (hu.hooks hn.script?).close

theorem exit (h : Alike κ moved e w w') (s s' : Status) :
    Alike κ moved e (w.exit e n s) (w'.exit e n' s') :=
  (h.tell hp.id .exit (some s) (some s')).act hp Hooks.exit rfl hn.hooks.exit
    (hu.hooks hn.script?).exit

end

/-! ### Nodes that stand for none -/

section

variable (hκ : κ n'.id = none) (hdefault : n'.hooks = {})

theorem remember_added (h : Alike κ moved e w w') (hκ : κ j = none) (key : String)
    (hkey : key ∈ Key.ofNode) (value : Json) : Alike κ moved e w (w'.remember e j key value) :=
  { h with
    board := h.board.set_right (isRecord_ofNode hkey e.tree j) value
    records := by
      intro i' j' hκ' key' hkey' hmoved
      rw [Traversal.remembered_remember, if_neg, h.records hκ' key' hkey' hmoved]
      rintro ⟨-, rfl⟩
      cases hκ.symm.trans hκ' }

include hκ

theorem tell_added (h : Alike κ moved e w w') (phase : Phase) (status : Option Status) :
    Alike κ moved e w (w'.tell e n' phase status) :=
  { h with calls := (Traversal.callsOf_tell_of_none hκ phase status w').trans h.calls }

include hdefault

theorem enter_added (h : Alike κ moved e w w') : Alike κ moved e w (w'.enter e n') := by
  have hpush : Alike κ moved e w { w' with count := w'.count + 1, stack := n'.id :: w'.stack } :=
    { h with stack := by rw [List.filterMap_cons_none hκ, h.stack] }
  rw [Traversal.enter_eq, hdefault]
  exact hpush.tell_added hκ .enter none

theorem begin_added
    (hrenew : ∀ {v v'}, Alike κ moved e v v' → Alike κ moved e v (v'.renew e n'))
    (h : Alike κ moved e w w') : Alike κ moved e w (w'.begin e n') := by
  have henter := h.enter_added hκ hdefault
  rw [Traversal.begin]
  split
  · exact henter.tell_added hκ .tick none
  · have hflag := henter.remember_added hκ Key.isOpen (by simp [Key.ofNode]) (.bool true)
    have hready := hrenew (hflag.tell_added hκ .opening none)
    rw [Traversal.startUp_eq, hdefault]
    exact hready.tell_added hκ .tick none

theorem close_added (h : Alike κ moved e w w') : Alike κ moved e w (w'.close e n') := by
  have hflag := h.remember_added hκ Key.isOpen (by simp [Key.ofNode]) (.bool false)
  rw [Traversal.close_eq, hdefault]
  exact hflag.tell_added hκ .close none

theorem exit_added (h : Alike κ moved e w w') (s : Status) :
    Alike κ moved e w (w'.exit e n' s) := by
  rw [Traversal.exit_eq, hdefault]
  exact h.tell_added hκ .exit (some s)

end

/-! ### Closing many nodes -/

/-- Where each node closed on the one side stands for the next one closed on the other side, or for
none, the states stay alike. -/
theorem closeAll (hdistinct : κ.Distinct) {ms ms' : List (Node σ)}
    (hms : ∀ m ∈ ms, m.Standard e.tree ∧ m.Unaware e.tree)
    (hadded : ∀ m' ∈ ms', κ m'.id = none → m'.hooks = {})
    (hpeers : ∀ m ∈ ms, ∀ m' ∈ ms', κ m'.id = some m.id → m.Peers κ m')
    (hids : (ms'.map Node.id).filterMap κ = ms.map Node.id) (h : Alike κ moved e w w') :
    Alike κ moved e (w.closeAll e ms) (w'.closeAll e ms') := by
  induction ms' generalizing ms w w' with
  | nil =>
      obtain rfl := List.map_eq_nil_iff.1 hids.symm
      exact h
  | cons m' ms' ih =>
      have hadded' := fun d hd => hadded d (List.mem_cons_of_mem m' hd)
      cases hκ : κ m'.id with
      | none =>
          rw [List.map_cons, List.filterMap_cons_none hκ] at hids
          have hpeers' := fun m hm d hd => hpeers m hm d (List.mem_cons_of_mem m' hd)
          exact ih hms hadded' hpeers' hids (h.close_added hκ (hadded m' List.mem_cons_self hκ))
      | some i =>
          rw [List.map_cons, List.filterMap_cons_some hκ] at hids
          obtain ⟨m, ms, rfl, rfl, hrest⟩ := List.map_eq_cons_iff.1 hids.symm
          have hp := hpeers m List.mem_cons_self m' List.mem_cons_self hκ
          obtain ⟨hn, hu⟩ := hms m List.mem_cons_self
          have hpeers' : ∀ d ∈ ms, ∀ d' ∈ ms', κ d'.id = some d.id → d.Peers κ d' :=
            fun d hd d' hd' => hpeers d (List.mem_cons_of_mem m hd) d' (List.mem_cons_of_mem m' hd')
          have hms' : ∀ d ∈ ms, d.Standard e.tree ∧ d.Unaware e.tree :=
            fun d hd => hms d (List.mem_cons_of_mem m hd)
          have hlater := ih hms' hadded' hpeers' hrest.symm (h.close hp hn hu hdistinct)
          exact hlater

end Alike
end BehaviorTrees
