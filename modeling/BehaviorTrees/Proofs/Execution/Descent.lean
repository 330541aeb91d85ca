import BehaviorTrees.Proofs.Execution.Release

/-!
# Releases go down the tree

A release goes on with the nodes found under the ids above the released one on the stack.  None of
these is the id of the node itself, so that what is found lies below it and has fewer nodes, even
where ids are shared.  `releaseDown` is the release as a recursion on the nodes of the tree, and
the levels of `releaseWithin` are never used up.
-/

namespace BehaviorTrees

variable {σ : Type}

namespace Node

theorem nodes_sublist_of_kid {n c : Node σ} (hc : c ∈ n.kids) :
    c.nodes.Sublist (n.kids.flatMap nodes) :=
  List.sublist_flatten_of_mem (List.mem_map_of_mem hc)

theorem nodes_sublist_of_mem {n m : Node σ} (hm : m ∈ n.nodes) : m.nodes.Sublist n.nodes := by
  induction n using induct with
  | step n ih =>
      rcases mem_nodes.1 hm with rfl | ⟨c, hc, hm⟩
      · exact .refl _
      · rw [nodes_eq n]
        exact ((ih c hc hm).trans (nodes_sublist_of_kid hc)).trans (List.sublist_cons_self ..)

/-- What is found under another id than that of the node has fewer nodes, though there may be more
nodes of that id. -/
theorem length_nodes_lt_of_find? {n m : Node σ} {i : NodeId} (h : n.find? i = some m)
    (hi : i ≠ n.id) : m.nodes.length < n.nodes.length := by
  obtain ⟨hm, hid⟩ := mem_of_find?_eq_some h
  rcases mem_nodes.1 hm with rfl | ⟨c, hc, hmc⟩
  · exact absurd hid.symm hi
  · have hbelow := ((nodes_sublist_of_mem hmc).trans (nodes_sublist_of_kid hc)).length_le
    rw [nodes_eq n, List.length_cons]
    omega

end Node

namespace Traversal

variable {e : Setting σ} {n : Node σ} {w : Traversal σ}

/-- Closes a node after what it left open above itself on the stack, each in the same way, with no
other limit than that of the tree. -/
def releaseDown (e : Setting σ) (n : Node σ) (w : Traversal σ) : Traversal σ :=
  match _hcut : cutAt n.id w.stack with
  | none => w.close e n
  | some (above, below) =>
      let w := above.attach.foldl (fun w i =>
        if w.isOpen e i.1 then
          match _hfind : n.find? i.1 with
          | some m => releaseDown e m w
          | none => w
        else w) { w with stack := below }
      w.close e n
termination_by n.nodes.length
decreasing_by
  have hnot := (cutAt_eq_some_iff.1 _hcut).2
  apply Node.length_nodes_lt_of_find? _hfind
  intro hid
  exact hnot (hid ▸ i.2)

theorem releaseDown_of_notMem (h : n.id ∉ w.stack) : w.releaseDown e n = w.close e n := by
  have hcut := cutAt_eq_none_iff.2 h
  rw [releaseDown]
  split
  · rfl
  · simp_all

theorem releaseDown_of_cutAt {above below : List NodeId}
    (h : cutAt n.id w.stack = some (above, below)) :
    w.releaseDown e n =
      (sweep e n (releaseDown e) above { w with stack := below }).close e n := by
  rw [releaseDown]
  split
  · simp_all
  · rename_i above' below' hcut
    obtain ⟨rfl, rfl⟩ : above' = above ∧ below' = below := by simpa [h] using hcut.symm
    rw [List.foldl_subtype (g := fun u i => visit e n (releaseDown e) i u), List.unattach_attach]
    · rfl
    · intro u i hi
      rw [visit]
      split
      · split <;> rename_i hfind <;> simp only [hfind]
      · rfl

/-! ## Enough levels -/

theorem stack_releaseWithin_suffix (levels : Nat) (n : Node σ) (w : Traversal σ) :
    (w.releaseWithin e levels n).stack <:+ w.stack :=
  releaseWithin_keeps (I := fun u => u.stack <:+ w.stack) (fun _ _ hstack hu => hstack.trans hu)
    (fun _ _ _ hu => hu) levels List.suffix_rfl

/-- Two ways to release that agree on low stacks make the same sweep of one, if the first never
heightens the stack. -/
theorem sweep_congr_of_length_le {free free' : Node σ → Traversal σ → Traversal σ} {height : Nat}
    (hfree : ∀ m w, (free m w).stack <:+ w.stack)
    (hagree : ∀ (m : Node σ) (w : Traversal σ), w.stack.length ≤ height → free m w = free' m w)
    (ids : List NodeId) {w : Traversal σ} (hw : w.stack.length ≤ height) :
    sweep e n free ids w = sweep e n free' ids w := by
  induction ids generalizing w with
  | nil => rfl
  | cons i ids ih =>
      have hvisit : visit e n free i w = visit e n free' i w := by
        rw [visit, visit]
        split
        · split
          · exact hagree _ w hw
          · rfl
        · rfl
      have hsuffix : (visit e n free i w).stack <:+ w.stack :=
        sweep_keeps (I := fun u => u.stack <:+ w.stack) (fun m _ u hu => (hfree m u).trans hu) [i]
          List.suffix_rfl
      rw [sweep_cons, sweep_cons, ← hvisit]
      exact ih (Nat.le_trans hsuffix.length_le hw)

theorem releaseWithin_eq_releaseDown {levels : Nat} (n : Node σ) {w : Traversal σ}
    (h : w.stack.length ≤ levels) : w.releaseWithin e levels n = w.releaseDown e n := by
  induction levels generalizing n w with
  | zero =>
      have hnil : w.stack = [] := List.eq_nil_of_length_eq_zero (Nat.le_zero.1 h)
      rw [releaseDown_of_notMem (by simp [hnil])]
      rfl
  | succ levels ih =>
      cases hcut : cutAt n.id w.stack with
      | none =>
          have hnot := cutAt_eq_none_iff.1 hcut
          rw [releaseWithin_of_notMem hnot, releaseDown_of_notMem hnot]
      | some sides =>
          obtain ⟨above, below⟩ := sides
          rw [releaseWithin_of_cutAt hcut, releaseDown_of_cutAt hcut]
          congr 1
          -- the cut takes at least the node itself off the stack
          apply sweep_congr_of_length_le (stack_releaseWithin_suffix levels)
          · exact fun m u hu => ih m hu
          · rw [(cutAt_eq_some_iff.1 hcut).1] at h
            simp only [List.length_append, List.length_cons] at h
            show below.length ≤ levels
            omega

theorem release_eq_releaseDown (n : Node σ) (w : Traversal σ) :
    w.release e n = w.releaseDown e n :=
  releaseWithin_eq_releaseDown n (Nat.le_refl _)

end Traversal
end BehaviorTrees
