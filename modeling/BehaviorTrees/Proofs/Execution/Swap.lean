import BehaviorTrees.Proofs.Execution.Lockstep

/-!
# Replacing a node

A node of a tree, at any place, is replaced by another one.  Nothing changes around it, so what
could be said of the ids outside can be said of them afterwards, and the nodes above do what they
did, but with one other child.
-/

namespace BehaviorTrees.Node

variable {σ : Type} {n n' root root' : Node σ}

/-- One tree is the other one with a node replaced. -/
inductive Swapped (n n' : Node σ) : Node σ → Node σ → Prop
  | here : Swapped n n' n n'
  | composite (l : Label) (k : CompositeKind σ) (before after : List (Node σ)) {c c' : Node σ}
      (h : Swapped n n' c c') :
      Swapped n n' (.composite l k (before ++ c :: after)) (.composite l k (before ++ c' :: after))
  | decorator (l : Label) (k : DecoratorKind σ) {c c' : Node σ} (h : Swapped n n' c c') :
      Swapped n n' (.decorator l k (some c)) (.decorator l k (some c'))

namespace Swapped

theorem mem (h : Swapped n n' root root') : n ∈ root.nodes := by
  induction h with
  | here => exact n.mem_nodes_self
  | composite l k before after _ ih => exact mem_nodes_of_kid (by simp [kids]) ih
  | decorator l k _ ih => exact mem_nodes_of_kid (by simp [kids]) ih

theorem symm (h : Swapped n n' root root') : Swapped n' n root' root := by
  induction h with
  | here => exact .here
  | composite l k before after _ ih => exact .composite l k before after ih
  | decorator l k _ ih => exact .decorator l k ih

/-- The ids outside of what is replaced are the same in both trees. -/
theorem exists_ids (h : Swapped n n' root root') :
    ∃ before after, root.ids = before ++ (n.ids ++ after) ∧
      root'.ids = before ++ (n'.ids ++ after) := by
  induction h with
  | here => exact ⟨[], [], by simp, by simp⟩
  | composite l k ds ds' _ ih =>
      obtain ⟨before, after, hids, hids'⟩ := ih
      refine ⟨l.id :: ds.flatMap ids ++ before, after ++ ds'.flatMap ids, ?_, ?_⟩
      · rw [ids_eq]
        simp [kids, Node.id, label, hids]
      · rw [ids_eq]
        simp [kids, Node.id, label, hids']
  | decorator l k _ ih =>
      obtain ⟨before, after, hids, hids'⟩ := ih
      refine ⟨l.id :: before, after, ?_, ?_⟩
      · rw [ids_eq]
        simp [kids, Node.id, label, hids]
      · rw [ids_eq]
        simp [kids, Node.id, label, hids']

/-- Where ids are distinct, what was put into the place of a node has no id of a node outside. -/
theorem notMem_ids (h : Swapped n n' root root') (hroot' : root'.ids.Nodup) {i : NodeId}
    (hi : i ∈ root.ids) (hn : i ∉ n.ids) : i ∉ n'.ids := by
  obtain ⟨before, after, hids, hids'⟩ := h.exists_ids
  rw [hids', List.nodup_append', List.nodup_append'] at hroot'
  obtain ⟨-, ⟨-, -, hafter⟩, hbefore⟩ := hroot'
  rw [hids, List.mem_append, List.mem_append] at hi
  rcases hi with hi | hi | hi
  · exact fun hi' => hbefore hi (List.mem_append_left _ hi')
  · exact (hn hi).elim
  · exact fun hi' => hafter hi' hi

theorem nodup_ids (h : Swapped n n' root root') (hroot' : root'.ids.Nodup) : n'.ids.Nodup := by
  obtain ⟨before, after, -, hids'⟩ := h.exists_ids
  rw [hids'] at hroot'
  exact hroot'.of_append_right.of_append_left

end Swapped

/-! ## The nodes above -/

/-- A node is like another one, with one other child. -/
structure Above (c c' m m' : Node σ) : Prop where
  id : m'.id = m.id
  likewise : m.Likewise false m'
  kids : ∃ before after, m.kids = before ++ c :: after ∧ m'.kids = before ++ c' :: after

namespace Above

variable {c c' d m m' : Node σ}

theorem mem (h : Above c c' m m') : c ∈ m.kids := by
  obtain ⟨before, after, hkids, -⟩ := h.kids
  simp [hkids]

theorem mem' (h : Above c c' m m') : c' ∈ m'.kids := by
  obtain ⟨before, after, -, hkids'⟩ := h.kids
  simp [hkids']

theorem eq_or_mem (h : Above c c' m m') (hd : d ∈ m'.kids) : d = c' ∨ d ∈ m.kids := by
  obtain ⟨before, after, hkids, hkids'⟩ := h.kids
  rw [hkids', List.mem_append, List.mem_cons] at hd
  rw [hkids, List.mem_append, List.mem_cons]
  rcases hd with hd | rfl | hd
  · exact .inr (.inl hd)
  · exact .inl rfl
  · exact .inr (.inr (.inr hd))

/-- Child by child two nodes compare as those in which they differ do, and all others with
themselves. -/
theorem forall₂ (h : Above c c' m m') (hm : m.ids.Nodup) {R : Node σ → Node σ → Prop} (hc : R c c')
    (hd : ∀ d ∈ m.kids, d ∈ m'.kids → (∀ i ∈ d.ids, i ∉ c.ids) → R d d) :
    List.Forall₂ R m.kids m'.kids := by
  obtain ⟨before, after, hkids, hkids'⟩ := h.kids
  rw [ids_eq, List.nodup_cons, hkids, List.flatMap_append, List.flatMap_cons, List.nodup_append',
    List.nodup_append'] at hm
  obtain ⟨-, -, ⟨-, -, hafter⟩, hbefore⟩ := hm
  rw [hkids, hkids'] at hd ⊢
  refine List.rel_append (List.forall₂_same.2 fun d hmem => ?_)
    (.cons hc (List.forall₂_same.2 fun d hmem => ?_))
  · refine hd d (by simp [hmem]) (by simp [hmem]) fun i hi hic => ?_
    exact hbefore (List.mem_flatMap.2 ⟨d, hmem, hi⟩) (List.mem_append_left _ hic)
  · refine hd d (by simp [hmem]) (by simp [hmem]) fun i hi hic => ?_
    exact hafter hic (List.mem_flatMap.2 ⟨d, hmem, hi⟩)

end Above

/-- What holds of the node replaced and is passed on from a child to the node above it holds of the
root. -/
theorem Swapped.induct_above (h : Swapped n n' root root')
    (hlibrary : ∀ m ∈ root.nodes, m.script? = none) {P : Node σ → Node σ → Prop} (here : P n n')
    (above : ∀ {c c' m m'}, m ∈ root.nodes → m' ∈ root'.nodes → Above c c' m m' →
      Swapped n n' c c' → P c c' → P m m') : P root root' := by
  induction h with
  | here => exact here
  | @composite l k before after c c' h ih =>
      have hc : c ∈ (Node.composite l k (before ++ c :: after)).kids := by simp [kids]
      have hc' : c' ∈ (Node.composite l k (before ++ c' :: after)).kids := by simp [kids]
      have hchild := ih (fun m hm => hlibrary m (mem_nodes_of_kid hc hm)) fun hm hm' =>
        above (mem_nodes_of_kid hc hm) (mem_nodes_of_kid hc' hm')
      cases likewise_self (hlibrary _ (mem_nodes_self _)) with
      | composite hk =>
          exact above (mem_nodes_self _) (mem_nodes_self _)
            ⟨rfl, .composite hk l l _ _, before, after, rfl, rfl⟩ h hchild
  | @decorator l k c c' h ih =>
      have hc : c ∈ (Node.decorator l k (some c)).kids := by simp [kids]
      have hc' : c' ∈ (Node.decorator l k (some c')).kids := by simp [kids]
      have hchild := ih (fun m hm => hlibrary m (mem_nodes_of_kid hc hm)) fun hm hm' =>
        above (mem_nodes_of_kid hc hm) (mem_nodes_of_kid hc' hm')
      cases likewise_self (hlibrary _ (mem_nodes_self _)) with
      | decorator hk =>
          exact above (mem_nodes_self _) (mem_nodes_self _)
            ⟨rfl, .decorator hk l l _ _, [], [], rfl, rfl⟩ h hchild

/-- Around the node replaced every node is like the one in its place, with the same id. -/
theorem Swapped.forall_nodes (h : Swapped n n' root root')
    (hlibrary : ∀ m ∈ root.nodes, m.script? = none) {P : Node σ → Prop}
    (haround : ∀ m ∈ root.nodes, ∀ m', m'.id = m.id → m.Likewise false m' → P m')
    (hn' : ∀ m' ∈ n'.nodes, P m') : ∀ m' ∈ root'.nodes, P m' := by
  refine h.induct_above hlibrary (P := fun _ m' => ∀ d ∈ m'.nodes, P d) hn'
    fun {c c' m m'} hm _ habove _ ih x hx => ?_
  rcases mem_nodes.1 hx with rfl | ⟨d, hd, hxd⟩
  · exact haround m hm x habove.id habove.likewise
  · rcases habove.eq_or_mem hd with rfl | hd
    · exact ih x hxd
    · have hx := mem_nodes_trans hm (mem_nodes_of_kid hd hxd)
      exact haround x hx x rfl (likewise_self (hlibrary x hx))

end BehaviorTrees.Node
