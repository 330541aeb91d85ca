import BehaviorTrees.Proofs.Execution.Echo

/-!
# Trees that mirror each other

A tree mirrors another one if it is made of the same nodes, but for inverters that were added, and
for composites and repetitions that wait for the opposite answer where the number of inverters above
them makes up for it.  A turn of such a tree is a turn of the other one, with the answer inverted as
often, and with what concerns the added inverters in between.
-/

namespace BehaviorTrees

variable {σ : Type} {κ : Origin} {moved : List NodeId} {b : Bool} {n n' : Node σ}

/-- The second tree answers as the first one does, or the inverse. -/
inductive Node.Mirrors (κ : Origin) : Bool → Node σ → Node σ → Prop
  | peer {b : Bool} {n n' : Node σ} (hid : κ n'.id = some n.id) (hlike : n.Likewise b n')
      (hlength : n.kids.length = n'.kids.length)
      (hkids : ∀ c ∈ n.kids.zip n'.kids, Mirrors κ b c.1 c.2) : Mirrors κ b n n'
  | inverted {b : Bool} {n m : Node σ} {y : Label} (hid : κ y.id = none)
      (h : Mirrors κ (!b) n m) : Mirrors κ b n (.decorator y .inverter (some m))

theorem Node.Mirrors.of_forall₂ {b : Bool} (hid : κ n'.id = some n.id) (hlike : n.Likewise b n')
    (hkids : List.Forall₂ (Mirrors κ b) n.kids n'.kids) : n.Mirrors κ b n' := by
  obtain ⟨hlength, hzip⟩ := List.forall₂_iff_zip.1 hkids
  exact .peer hid hlike hlength fun c hc => hzip hc

theorem Node.mirrors_self (hlibrary : ∀ m ∈ n.nodes, m.script? = none)
    (hκ : ∀ i ∈ n.ids, κ i = some i) : n.Mirrors κ false n := by
  induction n using Node.induct with
  | step n ih =>
      refine .of_forall₂ (hκ n.id (id_mem_ids n.mem_nodes_self))
        (likewise_self (hlibrary n n.mem_nodes_self)) (List.forall₂_same.2 fun c hc => ?_)
      exact ih c hc (fun m hm => hlibrary m (mem_nodes_of_kid hc hm))
        fun i hi => hκ i (ids_subset_of_kid hc hi)

/-- Every node of the second tree is an added inverter or stands for a node of the first one. -/
theorem Node.Mirrors.origin (h : n.Mirrors κ b n') :
    ∀ m' ∈ n'.nodes, (κ m'.id = none ∧ ∃ y m, m' = .decorator y .inverter (some m)) ∨
      ∃ m ∈ n.nodes, κ m'.id = some m.id ∧ ∃ b, m.Likewise b m' := by
  induction h with
  | @peer b n n' hid hlike hlength _ ih =>
      intro m' hm'
      rcases mem_nodes.1 hm' with rfl | ⟨c', hc', hm'⟩
      · exact .inr ⟨n, n.mem_nodes_self, hid, b, hlike⟩
      · rw [← List.map_snd_zip (Nat.le_of_eq hlength.symm)] at hc'
        obtain ⟨⟨c, c'⟩, hpair, rfl⟩ := List.mem_map.1 hc'
        refine (ih _ hpair m' hm').imp_right ?_
        rintro ⟨m, hm, horigin⟩
        exact ⟨m, mem_nodes_of_kid (List.of_mem_zip hpair).1 hm, horigin⟩
  | @inverted b n m y hid _ ih =>
      intro m' hm'
      rcases mem_nodes.1 hm' with rfl | ⟨c, hc, hmc⟩
      · exact .inl ⟨hid, y, m, rfl⟩
      · obtain rfl : c = m := by simpa [kids] using hc
        exact ih m' hmc

/-- Two orderly trees, of which the second one mirrors the first one, and whose leaves do not look
at the records of the runs. -/
structure Twins (κ : Origin) (t : TreeId) (root root' : Node σ) : Prop where
  distinct : κ.Distinct
  nodup : root.ids.Nodup
  nodup' : root'.ids.Nodup
  orderly : root.Orderly t
  unaware : ∀ m ∈ root.nodes, m.Unaware t
  mirrors : root.Mirrors κ false root'

theorem Twins.kindred {t : TreeId} {root root' : Node σ} (h : Twins κ t root root') :
    Kindred κ t root root' where
  distinct := h.distinct
  nodup := h.nodup
  nodup' := h.nodup'
  orderly := h.orderly
  unaware := h.unaware
  origin m' hm' := by
    refine (h.mirrors.origin m' hm').imp_left ?_
    rintro ⟨hnone, y, m, rfl⟩
    exact ⟨hnone, rfl, trivial⟩

/-! ## Turns -/

section

variable {e : Setting σ} {fuel : Nat} {root root' : Node σ} {base base' : Traversal σ}
  (hkin : Kindred κ e.tree root root') (hbase : ∀ i ∈ root.ids, i ∉ base.stack)
  (hbase' : ∀ i ∈ root'.ids, i ∉ base'.stack)

include hkin hbase'

theorem echoes_of_inverted {y : Label} {m : Node σ} (hκ : κ y.id = none)
    (hn' : .decorator y .inverter (some m) ∈ root'.nodes)
    (ih : Echoes (Alike κ moved e) e fuel root root' base base' (!b) n m) :
    Echoes (Alike κ moved e) e fuel root root' base base' b n
      (.decorator y .inverter (some m)) := by
  intro H H' w w' hw hw' hfree hfree' halike
  have hm : m ∈ (Node.decorator y .inverter (some m)).kids := by simp [Node.kids]
  have hmroot := Node.mem_nodes_trans hn' (Node.mem_nodes_of_kid hm m.mem_nodes_self)
  have hkids := Traversal.notMem_stack_begin (e := e) (Node.nodup_ids_of_mem hkin.nodup' hn')
    hfree' m hm
  have hbegin : Alike κ moved e w (w'.begin e (.decorator y .inverter (some m))) :=
    halike.begin_added hκ rfl fun h => h
  obtain ⟨H₁, hw₁, -⟩ := hw'.begin hn' (hkin.orderly' _ hn')
  have htick : ∀ u, (Node.decorator y .inverter (some m)).tickWith e fuel
      ((Node.decorator y .inverter (some m)).kids.map (Node.execute e fuel)) u =
        invertRun (m.execute e fuel) u := fun _ => rfl
  rcases eq_none_or_exists_of_rel (ih hw hw₁ hfree hkids hbegin) with
    ⟨hnone, hnone'⟩ | ⟨⟨s, v⟩, ⟨s', v'⟩, hsome, hsome', hs, hv⟩
  · rw [hnone, Node.execute_eq_none (by rw [htick, invertRun, hnone'])]
    exact .none
  · obtain rfl : s' = s.turned (!b) := hs
    have hinvert : (s.turned (!b)).invert = s.turned b := by
      rw [Status.invert_turned, Bool.not_not]
    have hrun : (Node.decorator y .inverter (some m)).tickWith e fuel
        ((Node.decorator y .inverter (some m)).kids.map (Node.execute e fuel))
        (w'.begin e (.decorator y .inverter (some m))) = some ((s.turned (!b)).invert, v') := by
      rw [htick, invertRun, hsome']
    obtain ⟨above, hticked⟩ := hw'.exists_ticked hkin.nodup' hkin.orderly' hbase' hn' hfree' hrun
    obtain ⟨-, -, hstays, -⟩ := Node.execute_settles hkin.nodup' hkin.orderly' hbase'
      hmroot hw₁ hkids hsome'
    rw [hsome, Node.execute_eq_some_iff.2 ⟨v', hrun, rfl⟩]
    refine .some ⟨hinvert, Alike.finish_added hkin hbase' hκ hn' hticked (fun hne => ?_) hv⟩
    -- The node below has finished and left the stack as it was.
    have hne' : s.turned (!b) ≠ .running := by simpa [hinvert] using hne
    have hstack := hticked.stack.symm.trans ((hstays hne').trans Traversal.stack_begin)
    exact List.map_eq_nil_iff.1 (List.append_left_eq_self.1 hstack)

include hbase

/-- What mirrors a node answers as often inverted as there are inverters added above it. -/
theorem Node.Mirrors.echoes (h : n.Mirrors κ b n') (hn : n ∈ root.nodes) (hn' : n' ∈ root'.nodes)
    (hmoved : ∀ i ∈ n.ids, i ∉ moved) :
    Echoes (Alike κ moved e) e fuel root root' base base' b n n' := by
  induction h with
  | @peer b n n' hid hlike hlength _ ih =>
      have hstep : InStep κ (Alike κ moved e) e root root' base base' b n n' :=
        .of_alike hkin hbase hbase' hn hn' hlike hid (hmoved n.id (id_mem_ids n.mem_nodes_self))
      refine echoes_of_inStep hkin hbase hbase' hn hn' (fun _ _ h => h.stack) hstep hlike
        (List.forall₂_iff_zip.2 ⟨hlength, fun {c c'} hc => ?_⟩)
      obtain ⟨hc₁, hc₂⟩ := List.of_mem_zip hc
      exact ih (c, c') hc (mem_nodes_trans hn (mem_nodes_of_kid hc₁ c.mem_nodes_self))
        (mem_nodes_trans hn' (mem_nodes_of_kid hc₂ c'.mem_nodes_self))
        fun i hi => hmoved i (ids_subset_of_kid hc₁ hi)
  | @inverted b n m y hid _ ih =>
      refine echoes_of_inverted hkin hbase' hid hn' (ih hn ?_ hmoved)
      exact mem_nodes_trans hn' (mem_nodes_of_kid (by simp [kids]) m.mem_nodes_self)

/-- A node that the two trees share echoes itself. -/
theorem Node.echoes_self (hn : n ∈ root.nodes) (hn' : n ∈ root'.nodes)
    (hκ : ∀ i ∈ n.ids, κ i = some i) (hmoved : ∀ i ∈ n.ids, i ∉ moved) :
    Echoes (Alike κ moved e) e fuel root root' base base' false n n := by
  have hlibrary : ∀ m ∈ n.nodes, m.script? = none := fun m hm =>
    (hkin.orderly m (mem_nodes_trans hn hm)).script?
  exact (mirrors_self hlibrary hκ).echoes hkin hbase hbase' hn hn' hmoved

end

end BehaviorTrees
