import BehaviorTrees.Proofs.Execution.Release

/-!
# How far a turn reaches

Whatever its kind, a node that takes a turn tells only of nodes of its own tree, puts on the stack
only nodes it enters, and closes only nodes that have been entered.  A property of states that is
`Lasting`, that is, kept by each of these steps, is kept by the whole turn.
-/

namespace BehaviorTrees

variable {σ : Type} {e : Setting σ} {fuel : Nat} {root n : Node σ} {may : NodeId → Prop}
  {quiet : NodeId → Traversal σ → Traversal σ → Prop} {I : Traversal σ → Prop}
  {base w w' : Traversal σ} {H : List Entry} {s : Status}

/-- A property of states that is kept by the steps of the lives of nodes and by what these do
between the runs of others.  A node that is closed has been entered before, unless it is one of
those that may be closed in any case. -/
structure Lasting (e : Setting σ) (root : Node σ) (may : NodeId → Prop)
    (quiet : NodeId → Traversal σ → Traversal σ → Prop) (I : Traversal σ → Prop) : Prop where
  begin : ∀ {n w}, n ∈ root.nodes → I w → I (w.begin e n)
  quiet : ∀ {n w u}, n ∈ root.nodes → Entered n.id w.history → quiet n.id w u → I w → I u
  cut : ∀ {w stack}, stack <:+ w.stack → I w → I { w with stack := stack }
  close : ∀ {n w}, n ∈ root.nodes → Entered n.id w.history ∨ may n.id → I w → I (w.close e n)
  exit : ∀ {n w s}, n ∈ root.nodes → I w → I (w.exit e n s)

theorem lasting_true (e : Setting σ) (root : Node σ) (may : NodeId → Prop)
    (quiet : NodeId → Traversal σ → Traversal σ → Prop) :
    Lasting e root may quiet fun _ => True := by
  constructor <;> intros <;> trivial

/-- From a base with nothing on its stack the history grew by `H`, and the property holds. -/
structure Kept (root : Node σ) (I : Traversal σ → Prop) (base : Traversal σ) (H : List Entry)
    (w : Traversal σ) : Prop extends Footprint root.ids base H w where
  empty : base.stack = []
  holds : I w

namespace Kept

theorem stay (h : Kept root I base H w) : ∃ H', Kept root I base (H ++ H') w :=
  ⟨[], by rwa [List.append_nil]⟩

theorem entered_iff (h : Kept root I base H w) (i : NodeId) :
    Entered i w.history ↔ Entered i base.history ∨ Entered i H := by
  rw [h.history, entered_append]

theorem entered_of_mem_stack (h : Kept root I base H w) {i : NodeId} (hi : i ∈ w.stack) :
    Entered i w.history := by
  rw [h.entered_iff]
  refine (h.stack i hi).imp_left fun hbase => ?_
  simp [h.empty] at hbase

theorem entered_mono {H' : List Entry} (h : Kept root I base H w)
    (h' : Kept root I base (H ++ H') w') {i : NodeId} (hi : Entered i w.history) :
    Entered i w'.history := by
  rw [h'.history, ← List.append_assoc, ← h.history]
  exact entered_append.2 (.inl hi)

theorem sweep (free : Node σ → Traversal σ → Traversal σ)
    (hfree : ∀ m ∈ n.nodes, ∀ {H w}, Entered m.id w.history ∨ may m.id → Kept root I base H w →
      ∃ H', Kept root I base (H ++ H') (free m w))
    {l : List NodeId} (hl : ∀ i ∈ l, i ∈ n.ids → Entered i w.history ∨ may i)
    (h : Kept root I base H w) : ∃ H', Kept root I base (H ++ H') (sweep e n free l w) := by
  induction l generalizing H w with
  | nil => exact h.stay
  | cons i l ih =>
      have hvisit : ∃ H', Kept root I base (H ++ H') (visit e n free i w) := by
        rw [visit]
        split
        · split
          · rename_i m hfind
            obtain ⟨hm, rfl⟩ := Node.mem_of_find?_eq_some hfind
            exact hfree m hm (hl m.id List.mem_cons_self (Node.id_mem_ids hm)) h
          · exact h.stay
        · exact h.stay
      obtain ⟨H₁, h₁⟩ := hvisit
      have hrest : ∀ j ∈ l, j ∈ n.ids → Entered j (visit e n free i w).history ∨ may j :=
        fun j hj hjn => (hl j (List.mem_cons_of_mem i hj) hjn).imp_left (h.entered_mono h₁)
      obtain ⟨H₂, h₂⟩ := ih hrest h₁
      rw [List.append_assoc] at h₂
      exact ⟨_, h₂⟩

variable (hI : Lasting e root may quiet I)

include hI

theorem close (h : Kept root I base H w) (hn : n ∈ root.nodes)
    (hmay : Entered n.id w.history ∨ may n.id) :
    ∃ H', Kept root I base (H ++ H') (w.close e n) :=
  ⟨_, h.tell (Node.id_mem_ids hn) Traversal.history_close fun _ hid => .inl hid, h.empty,
    hI.close hn hmay h.holds⟩

theorem releaseWithin (hn : n ∈ root.nodes) (hmay : Entered n.id w.history ∨ may n.id)
    (h : Kept root I base H w) (levels : Nat) :
    ∃ H', Kept root I base (H ++ H') (w.releaseWithin e levels n) := by
  induction levels generalizing n H w with
  | zero => exact h.close hI hn hmay
  | succ levels ih =>
      cases hcut : Traversal.cutAt n.id w.stack with
      | none =>
          rw [Traversal.releaseWithin_of_notMem (Traversal.cutAt_eq_none_iff.1 hcut)]
          exact h.close hI hn hmay
      | some sides =>
          obtain ⟨above, below⟩ := sides
          rw [Traversal.releaseWithin_of_cutAt hcut]
          have hstack := (Traversal.cutAt_eq_some_iff.1 hcut).1
          have hsuffix : below <:+ w.stack := ⟨above ++ [n.id], by simp [hstack]⟩
          have hdown : Kept root I base H { w with stack := below } :=
            ⟨⟨h.history, h.node_mem, h.calls, fun i hi => h.stack i (hsuffix.subset hi)⟩, h.empty,
              hI.cut hsuffix h.holds⟩
          -- what lay above the node has been entered, though it is on the stack no more
          have habove : ∀ i ∈ above, i ∈ n.ids →
              Entered i ({ w with stack := below } : Traversal σ).history ∨ may i :=
            fun i hi _ => .inl (h.entered_of_mem_stack (by simp [hstack, hi]))
          obtain ⟨H₁, h₁⟩ := hdown.sweep (e := e) (Traversal.releaseWithin e levels)
            (fun m hm _ _ hmay hv => ih (Node.mem_nodes_trans hn hm) hmay hv) habove
          obtain ⟨H₂, h₂⟩ := h₁.close hI hn (hmay.imp_left (h.entered_mono h₁))
          rw [List.append_assoc] at h₂
          exact ⟨_, h₂⟩

theorem begin (h : Kept root I base H w) (hn : n ∈ root.nodes) :
    ∃ H', Kept root I base (H ++ H') (w.begin e n) := by
  obtain ⟨H', hfoot⟩ := h.toFootprint.begin (e := e) (Node.id_mem_ids hn)
  exact ⟨H', hfoot, h.empty, hI.begin hn h.holds⟩

theorem exit (h : Kept root I base H w) (hn : n ∈ root.nodes) :
    ∃ H', Kept root I base (H ++ H') (w.exit e n s) :=
  ⟨_, h.tell (Node.id_mem_ids hn) Traversal.history_exit fun _ hid => .inl hid, h.empty,
    hI.exit hn h.holds⟩

variable (hcalm : ∀ {i u v}, quiet i u v → Calm i u v)

include hcalm

theorem between (h : Kept root I base H w) (hn : n ∈ root.nodes) (hentered : Entered n.id w.history)
    (hq : quiet n.id w w') : ∃ H', Kept root I base (H ++ H') w' := by
  obtain ⟨R, -, hR⟩ := h.toFootprint.calm (Node.id_mem_ids hn) (hcalm hq)
  exact ⟨R, hR, h.empty, hI.quiet hn hentered hq h.holds⟩

theorem course (ih : ∀ c ∈ n.kids, ∀ {H w w' s}, Kept root I base H w →
      c.execute e fuel w = some (s, w') → ∃ H', Kept root I base (H ++ H') w')
    (hn : n ∈ root.nodes) {rs : List (Node σ × Status)}
    (hcourse : Course (Node.execute e fuel) n.kids (quiet n.id) (fun _ => True) w rs w')
    (hentered : Entered n.id w.history) (h : Kept root I base H w) :
    ∃ H', Kept root I base (H ++ H') w' := by
  induction hcourse generalizing H with
  | done hq => exact h.between hI hcalm hn hentered hq
  | next hq hc hrun _ _ ihrest =>
      obtain ⟨H₁, h₁⟩ := h.between hI hcalm hn hentered hq
      obtain ⟨H₂, h₂⟩ := ih _ hc h₁ hrun
      rw [List.append_assoc] at h₂
      obtain ⟨H₃, h₃⟩ := ihrest (h.entered_mono h₂ hentered) h₂
      rw [List.append_assoc] at h₃
      exact ⟨_, h₃⟩

end Kept

/-- What lasts through the steps of the lives of the nodes of a tree lasts through their turns. -/
theorem Node.execute_kept (hI : Lasting e root may quiet I)
    (hcalm : ∀ {i u v}, quiet i u v → Calm i u v)
    (hcourse : ∀ m ∈ root.nodes, ∀ {w w' s},
      m.tickWith e fuel (m.kids.map (Node.execute e fuel)) w = some (s, w') →
        ∃ rs, Course (Node.execute e fuel) m.kids (quiet m.id) (fun _ => True) w rs w')
    (hn : n ∈ root.nodes) (hw : Kept root I base H w) (h : n.execute e fuel w = some (s, w')) :
    ∃ H', Kept root I base (H ++ H') w' := by
  induction n using Node.induct generalizing H w w' s with
  | step n ih =>
      obtain ⟨v, htick, rfl⟩ := Node.execute_eq_some_iff.1 h
      obtain ⟨H₁, h₁⟩ := hw.begin hI hn
      have hentered : Entered n.id (w.begin e n).history :=
        h₁.entered_of_mem_stack (by simp)
      have hkid : ∀ c ∈ n.kids, c ∈ root.nodes := fun c hc =>
        mem_nodes_trans hn (mem_nodes_of_kid hc c.mem_nodes_self)
      obtain ⟨rs, hruns⟩ := hcourse n hn htick
      obtain ⟨H₂, h₂⟩ := h₁.course hI hcalm
        (fun c hc _ _ _ _ => ih c hc (hkid c hc)) hn hruns hentered
      have hreleased : ∃ H', Kept root I base (H ++ H₁ ++ H₂ ++ H')
          (if s = .running then v else v.release e n) := by
        split
        · exact h₂.stay
        · exact h₂.releaseWithin hI hn (.inl (h₁.entered_mono h₂ hentered)) _
      obtain ⟨H₃, h₃⟩ := hreleased
      obtain ⟨H₄, h₄⟩ := h₃.exit hI (s := s) hn
      simp only [List.append_assoc] at h₄
      exact ⟨_, h₄⟩

theorem Node.execute_footprint (hbase : base.stack = [])
    (h : n.execute e fuel base = some (s, w')) : ∃ H, Footprint n.ids base H w' := by
  have hstart : Kept n (fun _ => True) base [] base := ⟨.refl n.ids base, hbase, trivial⟩
  obtain ⟨H, hkept⟩ := Node.execute_kept (lasting_true e n (fun _ => False) Calm) (fun hq => hq)
    (fun m _ _ _ _ htick => Node.course htick) n.mem_nodes_self hstart h
  exact ⟨_, hkept.toFootprint⟩

end BehaviorTrees
