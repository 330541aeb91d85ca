import BehaviorTrees.Proofs.Execution.Footprint

/-!
# Releasing nodes

A release closes open nodes one after the other, each once, and may cut the stack in between; a
`Closes` lists the nodes closed.  Other nodes than the released one are closed only where it is on
the stack itself: those above it that belong to its own tree.
-/

namespace BehaviorTrees

variable {σ : Type}

/-- From one state to another the stack was cut and the open nodes listed were closed. -/
inductive Closes (e : Setting σ) : Traversal σ → List (Node σ) → Traversal σ → Prop
  | refl (w : Traversal σ) : Closes e w [] w
  | cut {w v : Traversal σ} {ns : List (Node σ)} (h : Closes e w ns v) {stack : List NodeId}
      (hstack : stack <:+ v.stack) : Closes e w ns { v with stack := stack }
  | close {w v : Traversal σ} {ns : List (Node σ)} (h : Closes e w ns v) {m : Node σ}
      (hopen : v.isOpen e m.id = true) : Closes e w (ns ++ [m]) (v.close e m)

/-- The reports of closings. -/
def closings (t : TreeId) (ns : List (Node σ)) : List Event :=
  ns.map fun m => ⟨t, m.id, m.name, .close, none⟩

namespace Closes

variable {e : Setting σ} {u v w w' : Traversal σ} {ns ms : List (Node σ)}

theorem trans (h : Closes e u ns v) (h' : Closes e v ms w) : Closes e u (ns ++ ms) w := by
  induction h' with
  | refl => simpa using h
  | cut _ hstack ih => exact ih.cut hstack
  | close _ hopen ih =>
      rw [← List.append_assoc]
      exact ih.close hopen

theorem stack_suffix (h : Closes e w ns w') : w'.stack <:+ w.stack := by
  induction h with
  | refl => exact List.suffix_rfl
  | cut _ hstack ih => exact hstack.trans ih
  | close _ _ ih => exact ih

/-- The nodes closed were open and are so no more; for the others nothing changed. -/
theorem isOpen_iff (h : Closes e w ns w') (hk : ∀ m ∈ ns, m.hooks.close.KeepsFlags e.tree)
    (id : NodeId) :
    w'.isOpen e id = true ↔ w.isOpen e id = true ∧ ∀ m ∈ ns, m.id ≠ id := by
  induction h with
  | refl => simp
  | cut _ _ ih => exact ih hk
  | @close v ns _ m hopen ih =>
      have hprev := ih fun d hd => hk d (by simp [hd])
      rw [Traversal.isOpen_close (hk m (by simp))]
      by_cases hid : id = m.id
      · subst hid
        simp
      · rw [if_neg hid, hprev]
        simp only [List.mem_append, List.mem_singleton]
        constructor
        · rintro ⟨hw, hns⟩
          refine ⟨hw, fun d hd => ?_⟩
          rcases hd with hd | rfl
          · exact hns d hd
          · exact Ne.symm hid
        · rintro ⟨hw, hns⟩
          exact ⟨hw, fun d hd => hns d (.inl hd)⟩

/-- No node is closed twice. -/
theorem nodup (h : Closes e w ns w') (hk : ∀ m ∈ ns, m.hooks.close.KeepsFlags e.tree) :
    (ns.map Node.id).Nodup := by
  induction h with
  | refl => simp
  | cut _ _ ih => exact ih hk
  | @close v ns hprev d hopen ih =>
      have hkns : ∀ m ∈ ns, m.hooks.close.KeepsFlags e.tree := fun m hm => hk m (by simp [hm])
      have hfresh := ((hprev.isOpen_iff hkns _).1 hopen).2
      rw [List.map_append, List.map_singleton]
      refine List.nodup_append.2 ⟨ih hkns, by simp, ?_⟩
      intro i hi j hj
      obtain ⟨m, hm, rfl⟩ := List.mem_map.1 hi
      obtain rfl := List.mem_singleton.1 hj
      exact hfresh m hm

theorem tracks {ids : List NodeId} {base : Traversal σ} {H : List Entry}
    (h : Closes e w ns w') (hk : ∀ m ∈ ns, m.hooks.close.KeepsFlags e.tree)
    (hids : ∀ m ∈ ns, m.id ∈ ids) (hw : Tracks e ids base H w) :
    ∃ H', Tracks e ids base (H ++ H') w' ∧ H'.filterMap Entry.event? = closings e.tree ns := by
  induction h with
  | refl => exact ⟨[], by simpa using hw, rfl⟩
  | cut _ hstack ih =>
      obtain ⟨H', hv, hevents⟩ := ih hk hids
      refine ⟨H', ⟨⟨hv.history, hv.node_mem, hv.calls, ?_⟩, hv.chronicle, hv.isOpen⟩, hevents⟩
      exact fun id hid => hv.stack id (hstack.subset hid)
  | @close v ns _ m hopen ih =>
      obtain ⟨H', hv, hevents⟩ :=
        ih (fun d hd => hk d (by simp [hd])) (fun d hd => hids d (by simp [hd]))
      have hflag (id : NodeId) := Traversal.isOpen_remember e v m.id id false
      have hclose : Tracks e ids base
          (H ++ H' ++ told e m .close none (v.remember e m.id Key.isOpen (.bool false)).board)
          (v.close e m) := by
        refine hv.tell ?_ (by simp) (fun _ => hopen) ?_ ?_
        · exact hv.toFootprint.tell (hids m (by simp)) Traversal.history_close
            fun _ hid => .inl hid
        · intro id
          rw [← Traversal.isOpen_eq_flagged, hflag]
          simp only [Entry.mark, eq_comm]
        · intro id
          rw [Traversal.isOpen_close (hk m (by simp)), ← Traversal.isOpen_eq_flagged, hflag]
      rw [List.append_assoc] at hclose
      refine ⟨_, hclose, ?_⟩
      rw [List.filterMap_append, hevents, events_told]
      simp [closings]

/-- Only the records of the nodes closed change. -/
theorem records (h : Closes e w ns w') (hk : ∀ m ∈ ns, m.hooks.close.KeepsRecords e.tree) :
    (∀ key ∈ Key.ofTree, w'.board.get key (.ofTree e.tree) = w.board.get key (.ofTree e.tree)) ∧
      ∀ key ∈ Key.ofNode, ∀ i, (∀ m ∈ ns, m.id ≠ i) →
        w'.remembered e i key = w.remembered e i key := by
  induction h with
  | refl => exact ⟨fun _ _ => rfl, fun _ _ _ _ => rfl⟩
  | cut _ _ ih => exact ih hk
  | @close v ns _ m _ ih =>
      obtain ⟨htree, hnode⟩ := ih fun d hd => hk d (by simp [hd])
      have hothers : KeepsOthers e m.id v (v.close e m) := .close (hk m (by simp))
      refine ⟨fun key hkey => (hothers.ofTree key hkey).trans (htree key hkey), ?_⟩
      intro key hkey i hi
      rw [hothers.ofNode key hkey i (Ne.symm (hi m (by simp)))]
      exact hnode key hkey i fun d hd => hi d (by simp [hd])

end Closes

theorem not_entered_of_events_eq_closings {t : TreeId} {ns : List (Node σ)} {H : List Entry}
    (h : H.filterMap Entry.event? = closings t ns) (id : NodeId) : ¬Entered id H := by
  simp [Entered, h, closings]

theorem phase_of_events_eq_closings {t : TreeId} {ns : List (Node σ)} {H : List Entry}
    (h : H.filterMap Entry.event? = closings t ns) :
    ∀ event ∈ H.filterMap Entry.event?, event.phase = .close := by
  rw [h]
  intro event hevent
  obtain ⟨d, -, rfl⟩ := List.mem_map.1 hevent
  rfl

/-! ## Sweeps -/

/-- Releases the node of an id if it is part of a tree and open. -/
def visit (e : Setting σ) (root : Node σ) (free : Node σ → Traversal σ → Traversal σ)
    (id : NodeId) (w : Traversal σ) : Traversal σ :=
  if w.isOpen e id then
    match root.find? id with
    | some m => free m w
    | none => w
  else w

def sweep (e : Setting σ) (root : Node σ) (free : Node σ → Traversal σ → Traversal σ)
    (ids : List NodeId) (w : Traversal σ) : Traversal σ :=
  ids.foldl (fun w id => visit e root free id w) w

/-- The node is closed, and other nodes only where it is on the stack: such as are on the stack,
too, and lie below it. -/
def Frees (e : Setting σ) (free : Node σ → Traversal σ → Traversal σ) (m : Node σ) : Prop :=
  ∀ w, w.isOpen e m.id = true → ∃ ns, Closes e w ns (free m w) ∧ m ∈ ns ∧
    ∀ d ∈ ns, d ∈ m.nodes ∧ (d = m ∨ (d.id ∈ w.stack ∧ m.id ∈ w.stack))

/-- A node was closed in a sweep over `ids`: at its own turn, or at that of a node above it that
was on the stack as it was. -/
def SweptBy (e : Setting σ) (root : Node σ) (ids : List NodeId) (w : Traversal σ) (d : Node σ) :
    Prop :=
  ∃ m ∈ root.nodes, m.id ∈ ids ∧ w.isOpen e m.id = true ∧ d ∈ m.nodes ∧
    (d = m ∨ (d.id ∈ w.stack ∧ m.id ∈ w.stack))

theorem SweptBy.mem {e : Setting σ} {root d : Node σ} {ids : List NodeId} {w : Traversal σ}
    (h : SweptBy e root ids w d) : d ∈ root.nodes := by
  obtain ⟨m, hm, -, -, hd, -⟩ := h
  exact Node.mem_nodes_trans hm hd

section

variable {e : Setting σ} {root : Node σ} {free : Node σ → Traversal σ → Traversal σ}

theorem visit_closes (hfree : ∀ m ∈ root.nodes, Frees e free m)
    (hk : ∀ m ∈ root.nodes, m.hooks.close.KeepsFlags e.tree) (i : NodeId) (w : Traversal σ) :
    ∃ ns, Closes e w ns (visit e root free i w) ∧ (∀ d ∈ ns, SweptBy e root [i] w d) ∧
      (i ∈ root.ids → (visit e root free i w).isOpen e i = false) := by
  rw [visit]
  split
  · rename_i hopen
    split
    · rename_i m hfind
      obtain ⟨hm, rfl⟩ := Node.mem_of_find?_eq_some hfind
      obtain ⟨ns, hcloses, hself, hns⟩ := hfree m hm w hopen
      have hswept : ∀ d ∈ ns, SweptBy e root [m.id] w d := fun d hd =>
        ⟨m, hm, List.mem_singleton_self _, hopen, hns d hd⟩
      refine ⟨ns, hcloses, hswept, fun _ => ?_⟩
      by_contra hstill
      have hiff := hcloses.isOpen_iff (fun d hd => hk d (hswept d hd).mem) m.id
      exact (hiff.1 (by simpa using hstill)).2 m hself rfl
    · rename_i hfind
      refine ⟨[], .refl w, by simp, fun hi => ?_⟩
      have hsome := Node.find?_isSome hi
      simp [hfind] at hsome
  · rename_i hclosed
    exact ⟨[], .refl w, by simp, fun _ => by simpa using hclosed⟩

theorem sweep_cons (i : NodeId) (ids : List NodeId) (w : Traversal σ) :
    sweep e root free (i :: ids) w = sweep e root free ids (visit e root free i w) := rfl

/-- What every release keeps is kept by a sweep. -/
theorem sweep_keeps {I : Traversal σ → Prop} (hfree : ∀ m ∈ root.nodes, ∀ w, I w → I (free m w))
    (ids : List NodeId) {w : Traversal σ} (hw : I w) : I (sweep e root free ids w) := by
  induction ids generalizing w with
  | nil => exact hw
  | cons i ids ih =>
      have hvisit : I (visit e root free i w) := by
        rw [visit]
        split
        · split
          · rename_i m hfind
            exact hfree m (Node.mem_of_find?_eq_some hfind).1 w hw
          · exact hw
        · exact hw
      exact ih hvisit

theorem sweep_closes (hfree : ∀ m ∈ root.nodes, Frees e free m)
    (hk : ∀ m ∈ root.nodes, m.hooks.close.KeepsFlags e.tree) (ids : List NodeId)
    (w : Traversal σ) :
    ∃ ns, Closes e w ns (sweep e root free ids w) ∧ (∀ d ∈ ns, SweptBy e root ids w d) ∧
      ∀ i ∈ ids, i ∈ root.ids → (sweep e root free ids w).isOpen e i = false := by
  induction ids generalizing w with
  | nil => exact ⟨[], .refl w, by simp, by simp⟩
  | cons i ids ih =>
      obtain ⟨ns, hcloses, hns, hoff⟩ := visit_closes hfree hk i w
      obtain ⟨ms, hcloses', hms, hoff'⟩ := ih (visit e root free i w)
      have hkns := hcloses.isOpen_iff fun d hd => hk d (hns d hd).mem
      have hkms := hcloses'.isOpen_iff fun d hd => hk d (hms d hd).mem
      rw [sweep_cons]
      refine ⟨ns ++ ms, hcloses.trans hcloses', ?_, ?_⟩
      · intro d hd
        rcases List.mem_append.1 hd with hd | hd
        · obtain ⟨m, hm, hmi, hrest⟩ := hns d hd
          obtain rfl := List.mem_singleton.1 hmi
          exact ⟨m, hm, List.mem_cons_self, hrest⟩
        · obtain ⟨m, hm, hmi, hopen, hdm, hd'⟩ := hms d hd
          have hsub := hcloses.stack_suffix.subset
          exact ⟨m, hm, List.mem_cons_of_mem _ hmi, ((hkns _).1 hopen).1, hdm,
            hd'.imp_right fun h => ⟨hsub h.1, hsub h.2⟩⟩
      · intro j hj hjr
        rcases List.mem_cons.1 hj with rfl | hj
        · by_contra hstill
          have hopen := ((hkms j).1 (by simpa using hstill)).1
          simp [hoff hjr] at hopen
        · exact hoff' j hj hjr

theorem sweep_stack (hfree : ∀ m w, m.id ∉ w.stack → (free m w).stack = w.stack)
    {ids : List NodeId} {w : Traversal σ} (hids : ∀ i ∈ ids, i ∈ root.ids → i ∉ w.stack) :
    (sweep e root free ids w).stack = w.stack := by
  induction ids generalizing w with
  | nil => rfl
  | cons i ids ih =>
      have hvisit : (visit e root free i w).stack = w.stack := by
        rw [visit]
        split
        · split
          · rename_i m hfind
            obtain ⟨hm, rfl⟩ := Node.mem_of_find?_eq_some hfind
            exact hfree m w (hids m.id List.mem_cons_self (Node.id_mem_ids hm))
          · rfl
        · rfl
      rw [← hvisit]
      refine ih fun j hj hjr => ?_
      rw [hvisit]
      exact hids j (List.mem_cons_of_mem _ hj) hjr

end

/-! ## Releases -/

namespace Traversal

variable {e : Setting σ} {n : Node σ} {w : Traversal σ}

theorem releaseWithin_of_cutAt {levels : Nat} {above below : List NodeId}
    (h : cutAt n.id w.stack = some (above, below)) :
    w.releaseWithin e (levels + 1) n =
      (sweep e n (releaseWithin e levels) above { w with stack := below }).close e n := by
  rw [releaseWithin, h]
  rfl

theorem releaseWithin_of_notMem {levels : Nat} (h : n.id ∉ w.stack) :
    w.releaseWithin e levels n = w.close e n := by
  cases levels with
  | zero => rfl
  | succ levels => rw [releaseWithin, cutAt_eq_none_iff.2 h]

/-- What is kept where the stack is cut and where a node of the tree is closed is kept by a release,
whatever ids the nodes have. -/
theorem releaseWithin_keeps {I : Traversal σ → Prop}
    (hcut : ∀ w stack, stack <:+ w.stack → I w → I { w with stack := stack })
    (hclose : ∀ m ∈ n.nodes, ∀ w, I w → I (w.close e m)) (levels : Nat) (hw : I w) :
    I (w.releaseWithin e levels n) := by
  induction levels generalizing n w with
  | zero => exact hclose n n.mem_nodes_self w hw
  | succ levels ih =>
      cases hsides : cutAt n.id w.stack with
      | none =>
          rw [releaseWithin_of_notMem (cutAt_eq_none_iff.1 hsides)]
          exact hclose n n.mem_nodes_self w hw
      | some sides =>
          obtain ⟨above, below⟩ := sides
          have hstack := (cutAt_eq_some_iff.1 hsides).1
          have hdown : I { w with stack := below } :=
            hcut w below ⟨above ++ [n.id], by simp [hstack]⟩ hw
          rw [releaseWithin_of_cutAt hsides]
          apply hclose n n.mem_nodes_self
          apply sweep_keeps _ above hdown
          exact fun m hm _ => ih fun d hd => hclose d (Node.mem_nodes_trans hm hd)

theorem close_frees (hopen : w.isOpen e n.id = true) :
    ∃ ns, Closes e w ns (w.close e n) ∧ n ∈ ns ∧
      ∀ d ∈ ns, d ∈ n.nodes ∧ (d = n ∨ (d.id ∈ w.stack ∧ n.id ∈ w.stack)) := by
  refine ⟨[n], (Closes.refl w).close hopen, List.mem_singleton_self n, ?_⟩
  intro d hd
  obtain rfl := List.mem_singleton.1 hd
  exact ⟨d.mem_nodes_self, .inl rfl⟩

/-- A node is released with what lies above it on the stack, and nothing else is closed. -/
theorem releaseWithin_frees (hn : n.ids.Nodup)
    (hk : ∀ m ∈ n.nodes, m.hooks.close.KeepsFlags e.tree) (levels : Nat) :
    Frees e (releaseWithin e levels) n := by
  induction levels generalizing n with
  | zero => exact fun w hopen => close_frees hopen
  | succ levels ih =>
      intro w hopen
      have hfree : ∀ m ∈ n.nodes, Frees e (releaseWithin e levels) m := fun m hm =>
        ih (Node.nodup_ids_of_mem hn hm) fun d hd => hk d (Node.mem_nodes_trans hm hd)
      cases hcut : cutAt n.id w.stack with
      | none =>
          rw [releaseWithin_of_notMem (cutAt_eq_none_iff.1 hcut)]
          exact close_frees hopen
      | some sides =>
          obtain ⟨above, below⟩ := sides
          rw [releaseWithin_of_cutAt hcut]
          obtain ⟨hstack, habove⟩ := cutAt_eq_some_iff.1 hcut
          have hdown : Closes e w [] { w with stack := below } :=
            (Closes.refl w).cut ⟨above ++ [n.id], by simp [hstack]⟩
          obtain ⟨ns, hcloses, hns, -⟩ := sweep_closes hfree hk above { w with stack := below }
          have hall : Closes e w ns
              (sweep e n (releaseWithin e levels) above { w with stack := below }) :=
            hdown.trans hcloses
          have hstill : (sweep e n (releaseWithin e levels) above
              { w with stack := below }).isOpen e n.id = true := by
            refine (hall.isOpen_iff (fun d hd => hk d (hns d hd).mem) _).2 ⟨hopen, ?_⟩
            intro d hd hid
            obtain ⟨m, hm, hmabove, -, hdm, -⟩ := hns d hd
            -- a node that is part of a tree above whose root it lies is that root
            have hnm : n ∈ m.nodes := by
              rwa [← Node.eq_of_id_eq hn (Node.mem_nodes_trans hm hdm) n.mem_nodes_self hid]
            rw [Node.eq_of_mem_nodes hn hm hnm] at hmabove
            exact habove hmabove
          refine ⟨ns ++ [n], hall.close hstill, by simp, ?_⟩
          intro d hd
          rcases List.mem_append.1 hd with hd | hd
          · obtain ⟨m, hm, hmabove, -, hdm, hrest⟩ := hns d hd
            have hon : d.id ∈ w.stack := by
              rw [hstack]
              rcases hrest with rfl | ⟨hbelow, -⟩
              · exact List.mem_append_left _ hmabove
              · exact List.mem_append_right _ (List.mem_cons_of_mem _ hbelow)
            exact ⟨Node.mem_nodes_trans hm hdm, .inr ⟨hon, by simp [hstack]⟩⟩
          · obtain rfl := List.mem_singleton.1 hd
            exact ⟨d.mem_nodes_self, .inl rfl⟩

theorem release_frees (hn : n.ids.Nodup) (hk : ∀ m ∈ n.nodes, m.hooks.close.KeepsFlags e.tree) :
    Frees e (release e) n :=
  fun w hopen => releaseWithin_frees hn hk w.stack.length w hopen

theorem release_of_stack {above below : List NodeId} (hstack : w.stack = above ++ n.id :: below)
    (habove : n.id ∉ above) :
    ∃ levels, w.release e n =
      (sweep e n (releaseWithin e levels) above { w with stack := below }).close e n := by
  have hcut : cutAt n.id w.stack = some (above, below) := cutAt_eq_some_iff.2 ⟨hstack, habove⟩
  obtain ⟨levels, hlevels⟩ : ∃ levels, w.stack.length = levels + 1 :=
    ⟨(above ++ below).length, by simp [hstack, Nat.add_assoc]⟩
  refine ⟨levels, ?_⟩
  rw [release, hlevels, releaseWithin_of_cutAt hcut]

/-- After a release what lay above the node, as far as it is part of its tree, is closed. -/
theorem isOpen_release (hn : n.ids.Nodup)
    (hk : ∀ m ∈ n.nodes, m.hooks.close.KeepsFlags e.tree) {above below : List NodeId}
    (hstack : w.stack = above ++ n.id :: below) (habove : n.id ∉ above) {i : NodeId}
    (hi : i ∈ above) (hin : i ∈ n.ids) : (w.release e n).isOpen e i = false := by
  obtain ⟨levels, hrelease⟩ := release_of_stack (e := e) hstack habove
  have hfree : ∀ m ∈ n.nodes, Frees e (releaseWithin e levels) m := fun m hm =>
    releaseWithin_frees (Node.nodup_ids_of_mem hn hm)
      (fun d hd => hk d (Node.mem_nodes_trans hm hd)) levels
  obtain ⟨-, -, -, hoff⟩ := sweep_closes hfree hk above { w with stack := below }
  rw [hrelease, isOpen_close (hk n n.mem_nodes_self), hoff i hi hin]
  simp

/-- A release takes the node and what lies above it off the stack. -/
theorem stack_release {above below : List NodeId} (hstack : w.stack = above ++ n.id :: below)
    (habove : n.id ∉ above) (hdisjoint : ∀ i ∈ n.ids, i ∉ below) :
    (w.release e n).stack = below := by
  obtain ⟨levels, hrelease⟩ := release_of_stack (e := e) hstack habove
  have hfree (m : Node σ) (v : Traversal σ) (hm : m.id ∉ v.stack) :
      (releaseWithin e levels m v).stack = v.stack := by
    rw [releaseWithin_of_notMem hm, stack_close]
  rw [hrelease, stack_close]
  exact sweep_stack hfree fun i _ hin => hdisjoint i hin

/-- If a node was open exactly where it was on the stack, it is so after the release. -/
theorem isOpen_release_iff (hn : n.ids.Nodup)
    (hk : ∀ m ∈ n.nodes, m.hooks.close.KeepsFlags e.tree) (hopen : w.isOpen e n.id = true)
    {above below : List NodeId} (hstack : w.stack = above ++ n.id :: below)
    (habove : above ⊆ n.ids) (hnot : n.id ∉ above) (hbelow : ∀ i ∈ n.ids, i ∉ below) {i : NodeId}
    (hi : w.isOpen e i = true ↔ i ∈ w.stack) :
    (w.release e n).isOpen e i = true ↔ i ∈ below := by
  obtain ⟨ns, hcloses, hself, hns⟩ := release_frees hn hk w hopen
  have hiff := hcloses.isOpen_iff fun d hd => hk d (hns d hd).1
  constructor
  · intro hstill
    obtain ⟨hwas, hother⟩ := (hiff i).1 hstill
    have hon := hi.1 hwas
    rw [hstack, List.mem_append, List.mem_cons] at hon
    rcases hon with hon | rfl | hon
    · rw [isOpen_release hn hk hstack hnot hon (habove hon)] at hstill
      cases hstill
    · exact (hother n hself rfl).elim
    · exact hon
  · intro hon
    refine (hiff i).2 ⟨hi.2 (by simp [hstack, hon]), ?_⟩
    rintro d hd rfl
    exact hbelow d.id (Node.id_mem_ids (hns d hd).1) hon

end Traversal
end BehaviorTrees
