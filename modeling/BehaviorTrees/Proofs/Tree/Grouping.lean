import BehaviorTrees.Proofs.Execution.Flatten
import BehaviorTrees.Proofs.Execution.Swap
import BehaviorTrees.Proofs.Tree.Twins

/-!
# Grouping children

Children of a composite that stand next to one another can be put into a composite of the same kind,
and a composite within one of the same kind can be taken away, without a difference to any of the
other nodes.  Only the child at which the outer composite says it goes on has another number.
-/

namespace BehaviorTrees

variable {σ : Type} {t : TreeId}

/-! ## Two trees, one with the group -/

namespace Node

variable {n n' root root' : Node σ}

theorem Likewise.standard (h : n.Likewise false n') (hn : n.Standard t) : n'.Standard t := by
  rcases h.eq_or_default with rfl | ⟨-, -, hstandard⟩
  · exact hn
  · exact hstandard t

theorem Likewise.unaware (h : n.Likewise false n') (hn : n.Unaware t) : n'.Unaware t := by
  cases h with
  | composite hk l l' cs cs' => trivial
  | decorator hk l l' c c' => trivial
  | leaf l k => exact hn

theorem Likewise.bounded (h : n.Likewise false n') (hn : n.Bounded) : n'.Bounded := by
  cases h with
  | composite hk l l' cs cs' => cases hk <;> trivial
  | decorator hk l l' c c' => cases hk <;> exact hn
  | leaf l k => exact hn

end Node

namespace Group

variable {g : Group σ} {root root' m' : Node σ}

theorem likewise (h : g.nested.script? = none) :
    g.nested.Likewise false g.flat ∧ g.flat.Likewise false g.nested := by
  cases Node.likewise_self h with
  | composite hk => exact ⟨.composite hk g.outer g.outer _ _, .composite hk g.outer g.outer _ _⟩

/-- The nodes of the flat composite are those of the other one without the core. -/
theorem mem_nodes_nested : m' ∈ g.nested.nodes ↔
    m' = g.nested ∨ m' = g.core ∨ ∃ c ∈ g.flat.kids, m' ∈ c.nodes := by
  rw [Node.mem_nodes]
  simp only [kids_nested, kids_flat, List.mem_append, List.mem_singleton]
  constructor
  · rintro (rfl | ⟨c, (hc | rfl) | hc, hm'⟩)
    · exact .inl rfl
    · exact .inr (.inr ⟨c, .inl (.inl hc), hm'⟩)
    · rcases Node.mem_nodes.1 hm' with rfl | ⟨d, hd, hm'⟩
      · exact .inr (.inl rfl)
      · exact .inr (.inr ⟨d, .inl (.inr hd), hm'⟩)
    · exact .inr (.inr ⟨c, .inr hc, hm'⟩)
  · rintro (rfl | rfl | ⟨c, (hc | hc) | hc, hm'⟩)
    · exact .inl rfl
    · exact .inr ⟨g.core, .inl (.inr rfl), g.core.mem_nodes_self⟩
    · exact .inr ⟨c, .inl (.inl hc), hm'⟩
    · exact .inr ⟨g.core, .inl (.inr rfl), Node.mem_nodes_of_kid hc hm'⟩
    · exact .inr ⟨c, .inr hc, hm'⟩

theorem ids_nested_perm (g : Group σ) : g.nested.ids.Perm (g.inner.id :: g.flat.ids) := by
  rw [Node.ids_eq, Node.ids_eq g.flat, id_nested, id_flat, kids_nested, kids_flat]
  have hcore : g.core.ids = g.inner.id :: g.members.flatMap Node.ids := Node.ids_eq g.core
  simp only [List.flatMap_append, List.flatMap_cons, List.flatMap_nil, hcore, List.append_assoc,
    List.cons_append]
  exact (List.perm_middle.cons _).trans (.swap _ _ _)

theorem ids_perm (h : g.nested.Swapped g.flat root root') :
    root.ids.Perm (g.inner.id :: root'.ids) := by
  obtain ⟨before, after, hids, hids'⟩ := h.exists_ids
  rw [hids, hids']
  have hmiddle := (g.ids_nested_perm.append_right after).append_left before
  exact hmiddle.trans List.perm_middle

/-- All but the core stand for themselves. -/
def origin (g : Group σ) : Origin := fun i => if i = g.inner.id then none else some i

theorem origin_inner : g.origin g.inner.id = none := if_pos rfl

theorem origin_eq_self {i : NodeId} (h : i ≠ g.inner.id) : g.origin i = some i := if_neg h

theorem origin_distinct : g.origin.Distinct := by
  intro i j j' hj hj'
  unfold origin at hj hj'
  split at hj
  · cases hj
  · split at hj'
    · cases hj'
    · exact (Option.some.inj hj).trans (Option.some.inj hj').symm

/-- With its group dissolved a tree has but nodes that are like those it had. -/
theorem exists_likewise_of_flat (h : g.nested.Swapped g.flat root root')
    (hlibrary : ∀ m ∈ root.nodes, m.script? = none) :
    ∀ m' ∈ root'.nodes, ∃ m ∈ root.nodes, m'.id = m.id ∧ m.Likewise false m' := by
  refine h.forall_nodes hlibrary (fun m hm m' hid hlike => ⟨m, hm, hid, hlike⟩) ?_
  intro m' hm'
  rcases Node.mem_nodes.1 hm' with rfl | ⟨c, hc, hm'⟩
  · exact ⟨g.nested, h.mem, rfl, (likewise (hlibrary _ h.mem)).1⟩
  · have hm := Node.mem_nodes_trans h.mem (mem_nodes_nested.2 (.inr (.inr ⟨c, hc, hm'⟩)))
    exact ⟨m', hm, rfl, Node.likewise_self (hlibrary m' hm)⟩

/-- The tree it was has but the core besides. -/
theorem exists_likewise_of_nested (h : g.nested.Swapped g.flat root root')
    (hlibrary : ∀ m ∈ root.nodes, m.script? = none)
    (hlibrary' : ∀ m ∈ root'.nodes, m.script? = none) :
    ∀ m' ∈ root.nodes,
      m' = g.core ∨ ∃ m ∈ root'.nodes, m'.id = m.id ∧ m.Likewise false m' := by
  refine h.symm.forall_nodes hlibrary' (fun m hm m' hid hlike => .inr ⟨m, hm, hid, hlike⟩) ?_
  intro m' hm'
  rcases mem_nodes_nested.1 hm' with rfl | rfl | ⟨c, hc, hm'⟩
  · exact .inr ⟨g.flat, h.symm.mem, rfl, (likewise (hlibrary _ h.mem)).2⟩
  · exact .inl rfl
  · have hm := Node.mem_nodes_trans h.symm.mem (Node.mem_nodes_of_kid hc hm')
    exact .inr ⟨m', hm, rfl, Node.likewise_self (hlibrary' m' hm)⟩

theorem kindred (h : g.nested.Swapped g.flat root root') (hroot : root.ids.Nodup)
    (ho : root.Orderly t) (hu : ∀ m ∈ root.nodes, m.Unaware t) :
    Kindred g.origin t root' root := by
  have hlibrary : ∀ m ∈ root.nodes, m.script? = none := fun m hm => Node.Standard.script? (ho m hm)
  obtain ⟨hinner, hroot'⟩ := List.nodup_cons.1 ((ids_perm h).nodup_iff.1 hroot)
  have ho' : root'.Orderly t := fun m' hm' => by
    obtain ⟨m, hm, -, hlike⟩ := exists_likewise_of_flat h hlibrary m' hm'
    exact hlike.standard (ho m hm)
  constructor
  case distinct => exact origin_distinct
  case nodup => exact hroot'
  case nodup' => exact hroot
  case orderly => exact ho'
  case unaware =>
    intro m' hm'
    obtain ⟨m, hm, -, hlike⟩ := exists_likewise_of_flat h hlibrary m' hm'
    exact hlike.unaware (hu m hm)
  case origin =>
    intro m' hm'
    rcases exists_likewise_of_nested h hlibrary (fun m hm => (ho' m hm).script?) m' hm' with
      rfl | ⟨m, hm, hid, hlike⟩
    · refine .inl ⟨origin_inner, ?_, ho _ hm'⟩
      rcases Node.hooks_eq_default_or_custom (hlibrary _ hm') with hdefault | ⟨l, design, hleaf⟩
      · exact hdefault
      · cases hleaf
    · refine .inr ⟨m, hm, ?_, false, hlike⟩
      rw [hid]
      exact origin_eq_self fun heq => hinner (heq ▸ Node.id_mem_ids hm)

/-! ## The way up -/

section

variable {κ : Origin} {e : Setting σ} {fuel : Nat} {n n' c c' : Node σ} {base base' : Traversal σ}
  (hkin : Kindred κ e.tree root root') (hbase : ∀ i ∈ root.ids, i ∉ base.stack)
  (hbase' : ∀ i ∈ root'.ids, i ∉ base'.stack) (hκ : ∀ i ∈ root.ids, κ i = some i)
  (hadded : κ g.inner.id = none)

include hkin hbase hbase' hκ hadded

theorem inStep_above_swapped (hn : n ∈ root.nodes) (hn' : n' ∈ root'.nodes)
    (habove : Node.Above c c' n n') (h : g.flat.Swapped g.nested c c') :
    InStep κ (g.Aligned κ e) e root root' base base' false n n' := by
  have houter : g.outer.id ∈ c.ids := Node.ids_subset h.mem (Node.id_mem_ids g.flat.mem_nodes_self)
  have houter' : g.outer.id ∈ c'.ids :=
    Node.ids_subset h.symm.mem (Node.id_mem_ids g.nested.mem_nodes_self)
  have hinner' : g.inner.id ∈ c'.ids := Node.ids_subset h.symm.mem inner_mem_ids
  have hroot := Node.ids_subset hn
  have hself := hκ n.id (hroot (Node.id_mem_ids n.mem_nodes_self))
  have hne : g.outer.id ≠ n.id := fun heq =>
    Node.id_notMem_ids_of_kid (Node.nodup_ids_of_mem hkin.nodup hn) habove.mem (heq ▸ houter)
  refine inStep_above hkin hbase hbase' hn hn' habove.likewise (habove.id ▸ hself)
    (hκ _ (hroot (Node.ids_subset_of_kid habove.mem houter)))
    (Node.ids_subset_of_kid habove.mem houter) (Node.ids_subset_of_kid habove.mem' houter')
    (Node.ids_subset_of_kid habove.mem' hinner') hne (habove.id ▸ hne) fun heq => ?_
  cases hadded.symm.trans ((congrArg κ (heq.trans habove.id)).trans hself)

/-- Wherever the group is in a tree, a turn of the tree echoes one of the tree without it. -/
theorem echoes_of_swapped (h : g.flat.Swapped g.nested root root') :
    Echoes (g.Aligned κ e) e fuel root root' base base' false root root' := by
  have hlibrary : ∀ m ∈ root.nodes, m.script? = none := fun m hm => (hkin.orderly m hm).script?
  refine h.induct_above hlibrary ?_ fun {c c' m m'} hm hm' habove hswap ih => ?_
  · have hids := Node.ids_subset h.mem
    exact Site.echoes ⟨hkin, hbase, hbase', h.mem, h.symm.mem, fun i hi => hκ i (hids hi), hadded⟩
  · have houter : g.outer.id ∈ c.ids :=
      Node.ids_subset hswap.mem (Node.id_mem_ids g.flat.mem_nodes_self)
    refine echoes_of_inStep hkin hbase hbase' hm hm' (fun _ _ h => h.alike.stack)
      (inStep_above_swapped hkin hbase hbase' hκ hadded hm hm' habove hswap) habove.likewise
      (habove.forall₂ (Node.nodup_ids_of_mem hkin.nodup hm) ih fun d hd hd' hfree => ?_)
    have hdroot := Node.mem_nodes_trans hm (Node.mem_nodes_of_kid hd d.mem_nodes_self)
    have hdroot' := Node.mem_nodes_trans hm' (Node.mem_nodes_of_kid hd' d.mem_nodes_self)
    have hself : ∀ i ∈ d.ids, κ i = some i := fun i hi => hκ i (Node.ids_subset hdroot hi)
    refine echoes_aside hkin hbase hbase' hdroot hdroot' hself (fun hin => hfree _ hin houter)
      fun hin => ?_
    cases hadded.symm.trans (hself _ hin)

end
end Group

namespace Tree

variable {t : Tree σ} {g : Group σ} {root root' : Node σ} {fuel : Nat} {traced : Bool} {target : σ}
  {b b' : Blackboard} {s : Status} {w w' : Traversal σ} {r r' : TickResult σ}

/-! ## Ticks -/

/-- After the turn of the root those composites that are not on the stack begin anew. -/
theorem AtRest.place_afterDiff (hrest : AtRest t root b) (hroot : root.ids.Nodup)
    (ho : root.Orderly t.id)
    (hrun : root.execute (t.setting traced) fuel { target, board := b } = some (s, w))
    (k : CompositeKind σ) (i : NodeId) :
    (t.afterDiff root traced b w).place (t.setting traced) k i =
      if i ∉ w.stack then 0 else w.place (t.setting traced) k i := by
  have hcurrent := openNodes_eq_nil_or_path (e := t.setting traced) hroot ho hrun
  obtain ⟨hw, -⟩ := execute_settled_of_empty (e := t.setting traced) hroot ho hrun
  split
  · rename_i hi
    apply Traversal.place_eq_zero
    rw [← Bool.not_eq_true, hrest.isOpen_afterDiff_iff hroot ho hcurrent hw]
    exact fun hopen => hi (List.mem_reverse.1 hopen)
  · rename_i hi
    have hentered : Entered i w.history :=
      hw.entered_of_mem_openNodes rfl (List.mem_reverse.2 (not_not.1 hi))
    obtain ⟨stale, hstale, hids, hclosed⟩ := hrest.afterDiff_eq_closeAll hroot ho hcurrent hw
    rw [hclosed, Traversal.place_closeAll fun m hm => (ho m (hstale hm)).hooks.close, hids,
      if_neg]
    simp [hentered]

theorem place_outcome (hrest : AtRest t root b) (hroot : root.ids.Nodup) (ho : root.Orderly t.id)
    (hrun : root.execute (t.setting traced) fuel { target, board := b } = some (s, w))
    (k : CompositeKind σ) (i : NodeId) (traced' : Bool) (target' : σ) :
    ({ target := target', board := (t.outcome root traced b s w).board } : Traversal σ).place
        (t.setting traced') k i =
      if i ∉ w.stack then 0 else w.place (t.setting traced) k i := by
  refine Eq.trans (Traversal.place_congr fun key _ => ?_)
    (hrest.place_afterDiff hroot ho hrun k i)
  exact get_keepRecord (t.setting traced) _ _ key (by simp [Scope.ofNode, Scope.address])

/-- The blackboards that a tree and one with a group in it left behind. -/
structure GroupLevel (g : Group σ) (t : Tree σ) (root root' : Node σ) (b b' : Blackboard) :
    Prop extends Level g.origin [g.outer.id] t (t.withRoot root') root root' b b' where
  inPlace : ∀ (traced : Bool) (target : σ),
    g.InPlace (t.setting traced) { target, board := b } { target, board := b' }

theorem GroupLevel.of_hasTree_eq_false (h : b.hasTree t.id = false) :
    GroupLevel g t root root' b b where
  toLevel := .of_hasTree_eq_false h
  inPlace traced target := by
    have hzero (i : NodeId) : ({ target, board := b } : Traversal σ).place (t.setting traced)
        g.kind i = 0 :=
      Traversal.place_eq_zero (Blackboard.flagged_of_hasTree_eq_false h i)
    exact .of_places_eq_zero (hzero _) (hzero _) (hzero _)

/-- A tree with a group ticks as the flat one does. -/
theorem exists_tick_of_swapped (hkin : Kindred g.origin t.id root root')
    (hκ : ∀ i ∈ root.ids, g.origin i = some i) (h : g.flat.Swapped g.nested root root')
    (ht : t.root = some root) (hlevel : GroupLevel g t root root' b b')
    (htick : t.tick fuel traced target b = .ok r) :
    ∃ r', (t.withRoot root').tick fuel traced target b' = .ok r' ∧ r.Alike g.origin r' ∧
      GroupLevel g t root root' r.board r'.board := by
  obtain ⟨s, w, hrun, rfl⟩ := (tick_eq_ok_iff ht).1 htick
  obtain ⟨w', hrun', hw⟩ := exists_execute_of_echoes
    (Group.echoes_of_swapped (e := t.setting traced) hkin (fun _ _ => by simp) (fun _ _ => by simp)
      hκ Group.origin_inner h)
    ⟨hlevel.start, hlevel.inPlace traced target⟩ hrun
  have htick' := (tick_eq_ok_iff (t := t.withRoot root') rfl).2 ⟨s, w', hrun', rfl⟩
  obtain ⟨hsame, hnext⟩ := hlevel.outcome hkin ht hrun hrun' hw.alike
  refine ⟨_, htick', hsame, hnext, fun traced' target' => ?_⟩
  have hplace := place_outcome hlevel.rest hkin.nodup hkin.orderly hrun g.kind g.outer.id
  have hplace' := place_outcome (t := t.withRoot root') hlevel.rest' hkin.nodup' hkin.orderly'
    hrun' g.kind
  have hstack := hw.alike.mem_stack_iff hkin.distinct
    (hκ _ (Node.ids_subset h.mem (Node.id_mem_ids g.flat.mem_nodes_self)))
  refine hw.inPlace.of_given_up (hplace traced' target') ?_ (hplace' g.inner.id traced' target')
    (fun hne => ?_) (by simp)
  · exact (hplace' g.outer.id traced' target').trans (if_congr (not_congr hstack.symm) rfl rfl)
  · exact not_congr ((hw.inPlace.together hne).trans hstack.symm)

/-! ## Sessions -/

theorem exists_play_of_swapped (hkin : Kindred g.origin t.id root root')
    (hκ : ∀ i ∈ root.ids, g.origin i = some i) (h : g.flat.Swapped g.nested root root')
    (ht : t.root = some root) {moves : List (Move σ)} {rs : List (TickResult σ)}
    (hlevel : GroupLevel g t root root' b b') (hplay : t.play fuel moves target b = .ok rs) :
    ∃ rs', (t.withRoot root').play fuel moves target b' = .ok rs' ∧
      List.Forall₂ (fun r r' => r.Alike g.origin r' ∧ GroupLevel g t root root' r.board r'.board)
        rs rs' :=
  exists_play_of_tick (fun _ _ h => h.target)
    (fun _ _ _ _ _ hlevel htick => exists_tick_of_swapped hkin hκ h ht hlevel htick) hlevel hplay

/-- Two ticks that differ at most in what concerns other nodes than those given, and in where one
of these goes on. -/
structure TickResult.SameBut (t : TreeId) (kept : List NodeId) (moved : NodeId)
    (r r' : TickResult σ) : Prop where
  status : r'.status = r.status
  target : r'.target = r.target
  calls : r'.callsAmong kept = r.callsAmong kept
  memory : ∀ i ∈ kept, ∀ key, (i = moved → key ≠ Key.runningChild) →
    r'.board.get key (.ofNode t i) = r.board.get key (.ofNode t i)

def stages : Group (List Status) where
  outer := { id := "m", title := "MemSequence" }
  inner := { id := "n", title := "MemSequence" }
  kind := .memSequence
  before := [answering "a"]
  members := [answering "b", answering "c"]
  after := [answering "d"]

def triedTwice (n : Node (List Status)) : Node (List Status) :=
  .decorator { id := "r", title := "RepeatUntilSuccess" } (.repeatUntilSuccess (some 2)) (some n)

theorem triedTwice_swapped (n n' : Node (List Status)) :
    n.Swapped n' (triedTwice n) (triedTwice n') :=
  .decorator _ _ .here

theorem triedTwice_stages_admissible {m : Node (List Status)}
    (hm : m ∈ (triedTwice stages.nested).nodes) :
    m.Standard "t" ∧ m.Unaware "t" ∧ m.Bounded := by
  rcases Node.mem_nodes.1 hm with rfl | ⟨c, hc, hm⟩
  · exact ⟨trivial, trivial, rfl⟩
  · obtain rfl : c = stages.nested := by simpa [triedTwice, Node.kids] using hc
    rcases Group.mem_nodes_nested.1 hm with rfl | rfl | ⟨c, hc, hm⟩
    · exact ⟨trivial, trivial, trivial⟩
    · exact ⟨trivial, trivial, trivial⟩
    · obtain ⟨id, rfl⟩ : ∃ id, c = answering id := by
        simp only [Group.kids_flat, stages, List.mem_append, List.mem_cons, List.not_mem_nil,
          or_false] at hc
        rcases hc with (rfl | rfl | rfl) | rfl <;> exact ⟨_, rfl⟩
      obtain rfl : m = answering id := by simpa [answering, Node.nodes] using hm
      exact answering_admissible "t" id

end Tree
end BehaviorTrees
