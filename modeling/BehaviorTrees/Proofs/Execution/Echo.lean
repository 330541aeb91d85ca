import BehaviorTrees.Proofs.Execution.Alike

/-!
# Turns that echo

Two trees are kindred if every node of the second one stands for a node of the first one and is
like it, or was added and has no hooks.  A turn of a node of the second tree echoes that of a node
of the first one if, in states that are related, both answer the same, or the inverse, and leave
related states behind.  So it is with nodes that hold as many others each, where the turns of these
echo and the steps of their own lives keep the states related.
-/

namespace BehaviorTrees

variable {σ : Type} {κ : Origin} {moved : List NodeId} {b : Bool}

theorem Node.Likewise.eq_or_default {n n' : Node σ} (h : n.Likewise b n') :
    n' = n ∨ (n.hooks = {} ∧ n'.hooks = {} ∧ ∀ t, n'.Standard t) := by
  cases h with
  | composite hk l l' cs cs' =>
      cases hk <;> cases b <;> exact .inr ⟨rfl, rfl, fun _ => trivial⟩
  | decorator hk l l' c c' =>
      cases hk with
      | repeatUntilSuccess b m => cases b <;> exact .inr ⟨rfl, rfl, fun _ => trivial⟩
      | repeatUntilFailure b m => cases b <;> exact .inr ⟨rfl, rfl, fun _ => trivial⟩
      | _ => exact .inr ⟨rfl, rfl, fun _ => trivial⟩
  | leaf l k => exact .inl rfl

/-- Two orderly trees with leaves that do not look at the records of the runs, of which the second
one is made of nodes like those of the first one and of nodes that were added. -/
structure Kindred (κ : Origin) (t : TreeId) (root root' : Node σ) : Prop where
  distinct : κ.Distinct
  nodup : root.ids.Nodup
  nodup' : root'.ids.Nodup
  orderly : root.Orderly t
  unaware : ∀ m ∈ root.nodes, m.Unaware t
  origin : ∀ m' ∈ root'.nodes, (κ m'.id = none ∧ m'.hooks = {} ∧ m'.Standard t) ∨
    ∃ m ∈ root.nodes, κ m'.id = some m.id ∧ ∃ b, m.Likewise b m'

namespace Kindred

variable {t : TreeId} {root root' m m' : Node σ}

theorem orderly' (h : Kindred κ t root root') : root'.Orderly t := by
  intro m' hm'
  rcases h.origin m' hm' with ⟨-, -, hstandard⟩ | ⟨m, hm, -, b, hlike⟩
  · exact hstandard
  · rcases hlike.eq_or_default with rfl | ⟨-, -, hstandard⟩
    · exact h.orderly m' hm
    · exact hstandard t

theorem peers (h : Kindred κ t root root') (hm : m ∈ root.nodes) (hm' : m' ∈ root'.nodes)
    (hκ : κ m'.id = some m.id) : m.Peers κ m' := by
  rcases h.origin m' hm' with ⟨hnone, -⟩ | ⟨d, hd, hd', b, hlike⟩
  · cases hnone.symm.trans hκ
  · obtain rfl : d = m :=
      Node.eq_of_id_eq h.nodup hd hm (Option.some.inj (hd'.symm.trans hκ))
    exact ⟨hκ, hlike.eq_or_default.imp_right fun hd => ⟨hd.1, hd.2.1⟩⟩

theorem hooks_of_added (h : Kindred κ t root root') (hm' : m' ∈ root'.nodes)
    (hκ : κ m'.id = none) : m'.hooks = {} := by
  rcases h.origin m' hm' with ⟨-, hdefault, -⟩ | ⟨d, -, hd', -⟩
  · exact hdefault
  · cases hκ.symm.trans hd'

end Kindred

/-! ## In the middle of a turn -/

variable {e : Setting σ} {fuel : Nat} {root root' n n' c : Node σ}
  {base base' u v v' w w' : Traversal σ} {H H' : List Entry} {s : Status}
  {above above' : List (Node σ)} {below below' : List NodeId}
  {L : Traversal σ → Traversal σ → Prop}

/-- A node has been entered, and nothing of what it holds is on the stack. -/
def Midway (e : Setting σ) (root : Node σ) (base : Traversal σ) (n : Node σ) (w : Traversal σ) :
    Prop :=
  ∃ H, Settled e root base H w ∧ Entered n.id H ∧ ∀ c ∈ n.kids, ∀ i ∈ c.ids, i ∉ w.stack

/-- A node has ticked, and lies on the stack between nodes of its own tree, each of them once, and
others. -/
structure Ticked (e : Setting σ) (root : Node σ) (base : Traversal σ) (n : Node σ)
    (above : List (Node σ)) (below : List NodeId) (v : Traversal σ) : Prop where
  settled : ∃ H, Settled e root base H v
  stack : v.stack = above.map Node.id ++ n.id :: below
  subset : above ⊆ n.nodes
  nodup : (n.id :: above.map Node.id).Nodup
  free : ∀ i ∈ n.ids, i ∉ below

section

variable (hroot : root.ids.Nodup) (ho : root.Orderly e.tree)

include hroot ho

theorem Midway.of_begin (hn : n ∈ root.nodes) (hw : Settled e root base H w)
    (hfree : ∀ i ∈ n.ids, i ∉ w.stack) : Midway e root base n (w.begin e n) := by
  obtain ⟨H', hbegin, hentered⟩ := hw.begin hn (ho n hn)
  have hkids := Traversal.notMem_stack_begin (e := e) (Node.nodup_ids_of_mem hroot hn) hfree
  exact ⟨_, hbegin, by simp [hentered], hkids⟩

/-- It is so again after a run of a node it holds, if that finished. -/
theorem Midway.after (h : Midway e root base n w) (hbase : ∀ i ∈ root.ids, i ∉ base.stack)
    (hn : n ∈ root.nodes) (hc : c ∈ n.kids) (hrun : c.execute e fuel w = some (s, u))
    (hs : s ≠ .running) : Midway e root base n u := by
  obtain ⟨H, hw, hentered, hfree⟩ := h
  have hcroot := Node.mem_nodes_trans hn (Node.mem_nodes_of_kid hc c.mem_nodes_self)
  obtain ⟨H', hu, hstays, -⟩ :=
    Node.execute_settles hroot ho hbase hcroot hw (hfree c hc) hrun
  refine ⟨_, hu, by simp [hentered], ?_⟩
  rw [hstays hs]
  exact hfree

omit hroot ho in
theorem Midway.quiet (h : Midway e root base n w) (hn : n ∈ root.nodes) (hq : Quiet e n.id w u) :
    Midway e root base n u := by
  obtain ⟨H, hw, hentered, hfree⟩ := h
  obtain ⟨H', hu⟩ := hw.quiet hn hentered hq
  exact ⟨_, hu, by simp [hentered], hq.stack ▸ hfree⟩

theorem Settled.exists_ticked (hw : Settled e root base H w)
    (hbase : ∀ i ∈ root.ids, i ∉ base.stack) (hn : n ∈ root.nodes)
    (hfree : ∀ i ∈ n.ids, i ∉ w.stack)
    (htick : n.tickWith e fuel (n.kids.map (Node.execute e fuel)) (w.begin e n) = some (s, v)) :
    ∃ above, Ticked e root base n above w.stack v := by
  obtain ⟨H', above, hv, hsubset, hnodup, hstack⟩ :=
    hw.exists_above_of_tick hroot ho hbase hn hfree htick
  exact ⟨above, ⟨_, hv⟩, hstack, hsubset, hnodup, hfree⟩

theorem Ticked.release (h : Ticked e root base n above below v)
    (hbase : ∀ i ∈ root.ids, i ∉ base.stack) (hn : n ∈ root.nodes) :
    v.release e n = ({ v with stack := below } : Traversal σ).closeAll e (above ++ [n]) := by
  obtain ⟨H, hv⟩ := h.settled
  exact hv.release_eq_closeAll hroot ho hbase hn h.stack h.subset h.nodup h.free

end

theorem Ticked.subset_nodes (h : Ticked e root base n above below v) (hn : n ∈ root.nodes) :
    above ++ [n] ⊆ root.nodes := fun m hm => by
  rcases List.mem_append.1 hm with hm | hm
  · exact Node.mem_nodes_trans hn (h.subset hm)
  · exact List.mem_singleton.1 hm ▸ hn

theorem Ticked.above_eq_nil (h : Ticked e root base n above below v)
    (hfree : ∀ c ∈ n.kids, ∀ i ∈ c.ids, i ∉ v.stack) : above = [] := by
  refine List.eq_nil_iff_forall_not_mem.2 fun d hd => ?_
  have hmem : d.id ∈ above.map Node.id := List.mem_map_of_mem hd
  rcases Node.mem_nodes.1 (h.subset hd) with rfl | ⟨c, hc, hdc⟩
  · exact (List.nodup_cons.1 h.nodup).1 hmem
  · refine hfree c hc d.id (Node.id_mem_ids hdc) ?_
    rw [h.stack]
    exact List.mem_append_left _ hmem

/-- Two nodes that have been entered, in states that are related. -/
structure Abreast (L : Traversal σ → Traversal σ → Prop) (e : Setting σ) (root root' : Node σ)
    (base base' : Traversal σ) (n n' : Node σ) (w w' : Traversal σ) : Prop where
  related : L w w'
  left : Midway e root base n w
  right : Midway e root' base' n' w'

theorem Abreast.tied (h : Tied e e n.id n'.id L) (hn : n ∈ root.nodes) (hn' : n' ∈ root'.nodes) :
    Tied e e n.id n'.id (Abreast L e root root' base base' n n') where
  remembered hw key hkey := h.remembered hw.related key hkey
  remember hw key hkey hne value :=
    ⟨h.remember hw.related key hkey hne value, hw.left.quiet hn (.remember _ hne value),
      hw.right.quiet hn' (.remember _ hne value)⟩
  now hw := h.now hw.related
  readClock hw :=
    ⟨h.readClock hw.related, hw.left.quiet hn (.readClock _), hw.right.quiet hn' (.readClock _)⟩

/-! ## Turns -/

/-- In related states a turn of the one node answers as a turn of the other one does, or the
inverse, and leaves the states related. -/
def Echoes (L : Traversal σ → Traversal σ → Prop) (e : Setting σ) (fuel : Nat)
    (root root' : Node σ) (base base' : Traversal σ) (b : Bool) (n n' : Node σ) : Prop :=
  ∀ ⦃H H' : List Entry⦄ ⦃w w' : Traversal σ⦄, Settled e root base H w →
    Settled e root' base' H' w' → (∀ i ∈ n.ids, i ∉ w.stack) → (∀ i ∈ n'.ids, i ∉ w'.stack) →
      L w w' →
        Option.Rel (fun a a' => a'.1 = a.1.turned b ∧ L a.2 a'.2)
          (n.execute e fuel w) (n'.execute e fuel w')

/-- The steps of the lives of two nodes keep the states related. -/
structure InStep (κ : Origin) (L : Traversal σ → Traversal σ → Prop) (e : Setting σ)
    (root root' : Node σ) (base base' : Traversal σ) (b : Bool) (n n' : Node σ) : Prop where
  tied : Tied e e n.id n'.id L
  begin : ∀ {w w'}, L w w' → L (w.begin e n) (w'.begin e n')
  leaf : ∀ l k, n = .leaf l k → ∀ {w w'}, L w w' →
    (k.tick e n.info w').1 = (k.tick e n.info w).1 ∧
      L (k.tick e n.info w).2 (k.tick e n.info w').2
  finish : ∀ {above above' below below' v v'}, Ticked e root base n above below v →
    Ticked e root' base' n' above' below' v' → below'.filterMap κ = below → L v v' →
      ∀ s : Status, L (v.finish e n s) (v'.finish e n' (s.turned b))

section

variable (hkin : Kindred κ e.tree root root') (hbase : ∀ i ∈ root.ids, i ∉ base.stack)
  (hbase' : ∀ i ∈ root'.ids, i ∉ base'.stack) (hn : n ∈ root.nodes) (hn' : n' ∈ root'.nodes)

include hkin hbase hbase' hn hn'

theorem Echoes.matches {d d' : Node σ} (h : Echoes L e fuel root root' base base' b d d')
    (hd : d ∈ n.kids) (hd' : d' ∈ n'.kids) :
    Exec.Matches (Abreast L e root root' base base' n n') L b (d.execute e fuel)
      (d'.execute e fuel) := by
  rintro w w' ⟨hL, hleft, hright⟩
  obtain ⟨H, hw, -, hfree⟩ := id hleft
  obtain ⟨H', hw', -, hfree'⟩ := id hright
  rcases eq_none_or_exists_of_rel (h hw hw' (hfree d hd) (hfree' d' hd') hL) with
    ⟨hnone, hnone'⟩ | ⟨⟨s, v⟩, ⟨s', v'⟩, hsome, hsome', hs, hv⟩
  · rw [hnone, hnone']
    exact .none
  · obtain rfl : s' = s.turned b := hs
    rw [hsome, hsome']
    refine .some ⟨rfl, hv, fun hne => ⟨hv, ?_, ?_⟩⟩
    · exact hleft.after hkin.nodup hkin.orderly hbase hn hd hsome hne
    · exact hright.after hkin.nodup' hkin.orderly' hbase' hn' hd' hsome' (by simpa using hne)

theorem echoes_of_inStep (hL : ∀ w w', L w w' → w'.stack.filterMap κ = w.stack)
    (hstep : InStep κ L e root root' base base' b n n') (hlike : n.Likewise b n')
    (ih : List.Forall₂ (Echoes L e fuel root root' base base' b) n.kids n'.kids) :
    Echoes L e fuel root root' base base' b n n' := by
  intro H H' w w' hw hw' hfree hfree' hwL
  have hbegin : Abreast L e root root' base base' n n' (w.begin e n) (w'.begin e n') :=
    ⟨hstep.begin hwL, .of_begin hkin.nodup hkin.orderly hn hw hfree,
      .of_begin hkin.nodup' hkin.orderly' hn' hw' hfree'⟩
  -- A run that stays running may leave nodes on the stacks, so after it the two are only related.
  have hruns : List.Forall₂ (Exec.Matches (Abreast L e root root' base base' n n') L b)
      (n.kids.map (Node.execute e fuel)) (n'.kids.map (Node.execute e fuel)) := by
    obtain ⟨hlength, hzip⟩ := List.forall₂_iff_zip.1 ih
    rw [List.forall₂_map_left_iff, List.forall₂_map_right_iff, List.forall₂_iff_zip]
    refine ⟨hlength, fun {c c'} hc => ?_⟩
    obtain ⟨hc₁, hc₂⟩ := List.of_mem_zip hc
    exact Echoes.matches hkin hbase hbase' hn hn' (hzip hc) hc₁ hc₂
  rcases eq_none_or_exists_of_rel (hlike.tickWith_ends (Abreast.tied hstep.tied hn hn') hstep.tied
      (fun _ _ h => h.related) (fun l k hleaf _ _ h => hstep.leaf l k hleaf h.related) fuel hruns
      _ _ hbegin) with
    ⟨hnone, hnone'⟩ | ⟨⟨s, v⟩, ⟨s', v'⟩, hsome, hsome', hs, hv⟩
  · rw [Node.execute_eq_none hnone, Node.execute_eq_none hnone']
    exact .none
  · obtain rfl : s' = s.turned b := hs
    rw [Node.execute_eq_some_iff.2 ⟨v, hsome, rfl⟩, Node.execute_eq_some_iff.2 ⟨v', hsome', rfl⟩]
    obtain ⟨above, hticked⟩ := hw.exists_ticked hkin.nodup hkin.orderly hbase hn hfree hsome
    obtain ⟨above', hticked'⟩ :=
      hw'.exists_ticked hkin.nodup' hkin.orderly' hbase' hn' hfree' hsome'
    exact .some ⟨rfl, hstep.finish hticked hticked' (hL _ _ hwL) hv s⟩

/-- Nodes that stand for one another close what lies above them, and themselves, in step. -/
theorem Alike.finish (hp : n.Peers κ n') (hv : Ticked e root base n above below v)
    (hv' : Ticked e root' base' n' above' below' v') (hbelow : below'.filterMap κ = below)
    (h : Alike κ moved e v v') (s : Status) :
    Alike κ moved e (v.finish e n s) (v'.finish e n' (s.turned b)) := by
  have hk := hkin.orderly n hn
  have hu := hkin.unaware n hn
  -- What is below on the two stacks corresponds, so what is above does.
  have hids : (above'.map Node.id).filterMap κ = above.map Node.id := by
    have hwhole := h.stack
    rw [hv.stack, hv'.stack, List.filterMap_append, List.filterMap_cons_some hp.id, hbelow]
      at hwhole
    exact List.append_cancel_right hwhole
  rw [Traversal.finish, Traversal.finish]
  simp only [Status.turned_eq_running_iff]
  split
  · exact h.exit hp hk hu s _
  · have hclosed := hv.subset_nodes hn
    have hclosed' := hv'.subset_nodes hn'
    rw [hv.release hkin.nodup hkin.orderly hbase hn,
      hv'.release hkin.nodup' hkin.orderly' hbase' hn']
    refine Alike.exit hp hk hu ((h.cut hbelow).closeAll hkin.distinct ?_ ?_ ?_ ?_) s _
    · exact fun m hm => ⟨hkin.orderly m (hclosed hm), hkin.unaware m (hclosed hm)⟩
    · exact fun m' hm' => hkin.hooks_of_added (hclosed' hm')
    · exact fun m hm m' hm' => hkin.peers (hclosed hm) (hclosed' hm')
    · simp [List.filterMap_append, hids, hp.id]

theorem InStep.of_alike (hlike : n.Likewise b n') (hκ : κ n'.id = some n.id)
    (hmoved : n.id ∉ moved) :
    InStep κ (Alike κ moved e) e root root' base base' b n n' := by
  have hp := hkin.peers hn hn' hκ
  have hk := hkin.orderly n hn
  have hu := hkin.unaware n hn
  have htied : Tied e e n.id n'.id (Alike κ moved e) := Alike.tied hkin.distinct hκ hmoved
  constructor
  case tied => exact htied
  case begin => exact Alike.begin hp hk hu hkin.distinct fun h => hlike.renew htied h
  case leaf =>
    rintro l k rfl w w' h
    cases hlike
    exact h.leaf hkin.distinct hk hu hκ hmoved
  case finish =>
    exact fun hv hv' hbelow h => Alike.finish hkin hbase hbase' hn hn' hp hv hv' hbelow h

omit hbase hn hn' in
/-- An added node that has nothing above it on the stack when it finishes closes but itself. -/
theorem Alike.finish_added (hκ : κ n'.id = none) (hn' : n' ∈ root'.nodes)
    (hv' : Ticked e root' base' n' above' below' v') (habove : s ≠ .running → above' = [])
    (h : Alike κ moved e v v') : Alike κ moved e v (v'.finish e n' s) := by
  have hdefault := hkin.hooks_of_added hn' hκ
  rw [Traversal.finish]
  split
  · exact h.exit_added hκ hdefault _
  · rename_i hne
    obtain rfl := habove hne
    have hcut : Alike κ moved e v { v' with stack := below' } := by
      have hbelow := h.stack
      rw [hv'.stack, List.map_nil, List.nil_append, List.filterMap_cons_none hκ] at hbelow
      exact h.cut hbelow
    rw [hv'.release hkin.nodup' hkin.orderly' hbase' hn']
    exact (hcut.close_added hκ hdefault).exit_added hκ hdefault _

end
end BehaviorTrees
