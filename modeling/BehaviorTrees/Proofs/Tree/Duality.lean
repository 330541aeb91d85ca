import BehaviorTrees.Proofs.Execution.Seclusion
import BehaviorTrees.Proofs.Execution.Swap
import BehaviorTrees.Proofs.Tree.Twins

/-!
# Inverters and duals

A priority is a sequence of the inverted children, inverted.  The same holds of the composites with
a memory, and of repetitions until success and until failure.  Where in a tree a node is replaced by
its dual in this sense, whatever surrounds it, none of the other nodes can tell the difference.
-/

namespace BehaviorTrees

variable {σ : Type} {κ : Origin} {n n' root root' : Node σ}

namespace Node

/-- A node below an inverter. -/
def inverted (y : Label) (n : Node σ) : Node σ := .decorator y .inverter (some n)

/-- A node and its dual below an inverter. -/
inductive Dual : Node σ → Node σ → Prop
  | priority (l x q : Label) {cs cs' : List (Node σ)}
      (h : List.Forall₂ (fun c c' => ∃ y, c' = inverted y c) cs cs') :
      Dual (.composite l .priority cs) (inverted x (.composite q .sequence cs'))
  | memPriority (l x q : Label) {cs cs' : List (Node σ)}
      (h : List.Forall₂ (fun c c' => ∃ y, c' = inverted y c) cs cs') :
      Dual (.composite l .memPriority cs) (inverted x (.composite q .memSequence cs'))
  | repeatUntilSuccess (l x q y : Label) (m : Bound) (c : Node σ) :
      Dual (.decorator l (.repeatUntilSuccess m) (some c))
        (inverted x (.decorator q (.repeatUntilFailure m) (some (inverted y c))))

/-! ## Replacing a node -/

namespace Swapped

/-- What is around the node replaced mirrors itself. -/
theorem mirrors (h : Swapped n n' root root') (hroot : root.ids.Nodup)
    (hlibrary : ∀ m ∈ root.nodes, m.script? = none)
    (hκ : ∀ i ∈ root.ids, i ∉ n.ids → κ i = some i) (hn : n.Mirrors κ false n') :
    root.Mirrors κ false root' := by
  refine h.induct_above hlibrary hn fun {c c' m m'} hm _ habove hswap ih => ?_
  have hnodup := nodup_ids_of_mem hroot hm
  have hsub := ids_subset hswap.mem
  have hself : κ m.id = some m.id := hκ m.id (ids_subset hm (id_mem_ids m.mem_nodes_self))
    fun hin => id_notMem_ids_of_kid hnodup habove.mem (hsub hin)
  refine .of_forall₂ (habove.id ▸ hself) habove.likewise
    (habove.forall₂ hnodup ih fun d hd _ hfree => ?_)
  have hdroot := mem_nodes_trans hm (mem_nodes_of_kid hd d.mem_nodes_self)
  exact mirrors_self (fun x hx => hlibrary x (mem_nodes_trans hdroot hx)) fun i hi =>
    hκ i (ids_subset hdroot hi) fun hin => hfree i hi (hsub hin)

end Swapped

/-! ## The origins of a dual -/

/-- A node stands for itself, but for one that stands for the node replaced, and for those added. -/
def originOf (replaced core : NodeId) (added : List NodeId) : Origin := fun j =>
  if j = core then some replaced else if j = replaced ∨ j ∈ added then none else some j

theorem originOf_eq_self {replaced core i : NodeId} {added : List NodeId} (hcore : i ≠ core)
    (hreplaced : i ≠ replaced) (hadded : i ∉ added) : originOf replaced core added i = some i := by
  simp [originOf, hcore, hreplaced, hadded]

theorem originOf_added {replaced core i : NodeId} {added : List NodeId} (hcore : i ≠ core)
    (hadded : i ∈ added) : originOf replaced core added i = none := by
  simp [originOf, hcore, hadded]

/-- Of the nodes of a dual, the one below the outer inverter stands for the node replaced. -/
def dualOrigin (x : Label) (n m : Node σ) : Origin :=
  originOf n.id m.id (x.id :: m.kids.map Node.id)

section

variable {x y : Label} {m c c' : Node σ} {i : NodeId}

theorem dualOrigin_distinct : (dualOrigin x n m).Distinct := by
  intro i j j' hj hj'
  simp only [dualOrigin, originOf] at hj hj'
  split at hj <;> split at hj' <;> grind

theorem dualOrigin_core : dualOrigin x n m m.id = some n.id := if_pos rfl

theorem mem_inverted_kids : n ∈ (inverted y n).kids := by simp [inverted, kids]

theorem dualOrigin_outside (hi : i ≠ n.id) (hi' : i ∉ (inverted x m).ids) :
    dualOrigin x n m i = some i := by
  have hm : ∀ j ∈ m.ids, j ∈ (inverted x m).ids := fun _ hj =>
    ids_subset_of_kid mem_inverted_kids hj
  refine originOf_eq_self ?_ hi ?_
  · rintro rfl
    exact hi' (hm _ (id_mem_ids m.mem_nodes_self))
  · rintro (_ | ⟨_, hmem⟩)
    · exact hi' (id_mem_ids (inverted x m).mem_nodes_self)
    · obtain ⟨d, hd, rfl⟩ := List.mem_map.1 hmem
      exact hi' (hm _ (ids_subset_of_kid hd (id_mem_ids d.mem_nodes_self)))

variable (hn' : (inverted x m).ids.Nodup)

include hn'

theorem dualOrigin_outer : dualOrigin x n m x.id = none := by
  have hx : x.id ∉ m.ids := id_notMem_ids_of_kid hn' mem_inverted_kids
  exact originOf_added (fun heq => hx (heq ▸ id_mem_ids m.mem_nodes_self)) List.mem_cons_self

theorem dualOrigin_inner (hc' : c' ∈ m.kids) : dualOrigin x n m c'.id = none := by
  have hm : m.id ∉ c'.ids := id_notMem_ids_of_kid (nodup_ids_of_kid hn' mem_inverted_kids) hc'
  refine originOf_added (fun heq => ?_) (List.mem_cons_of_mem _ (List.mem_map.2 ⟨c', hc', rfl⟩))
  exact hm (heq ▸ id_mem_ids c'.mem_nodes_self)

/-- What lies below an inverter that was added is none of the nodes added. -/
theorem dualOrigin_below (hn : n.ids.Nodup) (hc : c ∈ n.kids) (hc' : inverted y c ∈ m.kids)
    (hi : i ∈ c.ids) : dualOrigin x n m i = some i := by
  have hm := nodup_ids_of_kid hn' mem_inverted_kids
  have hi' : i ∈ (inverted y c).ids := ids_subset_of_kid mem_inverted_kids hi
  refine originOf_eq_self ?_ ?_ ?_
  · rintro rfl
    exact id_notMem_ids_of_kid hm hc' hi'
  · rintro rfl
    exact id_notMem_ids_of_kid hn hc hi
  · rintro (_ | ⟨_, hmem⟩)
    · exact id_notMem_ids_of_kid hn' mem_inverted_kids (ids_subset_of_kid hc' hi')
    · obtain ⟨d, hd, rfl⟩ := List.mem_map.1 hmem
      obtain rfl := kid_eq_of_mem_ids hm hd hc' (id_mem_ids d.mem_nodes_self) hi'
      exact id_notMem_ids_of_kid (nodup_ids_of_kid hm hc') mem_inverted_kids hi

end

theorem Dual.exists_core (h : n.Dual n') :
    ∃ x m, n' = inverted x m ∧ n.Likewise true m ∧
      List.Forall₂ (fun c c' => ∃ y, c' = inverted y c) n.kids m.kids := by
  cases h with
  | priority l x q h => exact ⟨x, _, rfl, .composite .priority l q _ _, h⟩
  | memPriority l x q h => exact ⟨x, _, rfl, .composite .memPriority l q _ _, h⟩
  | repeatUntilSuccess l x q y m c =>
      exact ⟨x, _, rfl, .decorator (.repeatUntilSuccess true m) l q _ _, .cons ⟨y, rfl⟩ .nil⟩

/-- A dual mirrors the node it is put in the place of, with all that lies below that node. -/
theorem Dual.exists_origin (h : n.Dual n') (hn : n.ids.Nodup) (hn' : n'.ids.Nodup)
    (hlibrary : ∀ m ∈ n.nodes, m.script? = none) :
    ∃ κ : Origin, κ.Distinct ∧ (∀ i, i ≠ n.id → i ∉ n'.ids → κ i = some i) ∧
      (∀ c ∈ n.kids, ∀ i ∈ c.ids, κ i = some i) ∧ n.Mirrors κ false n' := by
  obtain ⟨x, m, rfl, hlike, hkids⟩ := h.exists_core
  obtain ⟨hlength, hzip⟩ := List.forall₂_iff_zip.1 hkids
  refine ⟨dualOrigin x n m, dualOrigin_distinct, fun _ => dualOrigin_outside, ?_, ?_⟩
  · intro c hc i hi
    rw [← List.map_fst_zip hlength.le] at hc
    obtain ⟨⟨c, c'⟩, hpair, rfl⟩ := List.mem_map.1 hc
    obtain ⟨hmem, hmem'⟩ := List.of_mem_zip hpair
    obtain ⟨y, rfl⟩ := hzip hpair
    exact dualOrigin_below hn' hn hmem hmem' hi
  · refine .inverted (dualOrigin_outer hn') (.peer dualOrigin_core hlike hlength ?_)
    rintro ⟨c, c'⟩ hpair
    obtain ⟨hc, hc'⟩ := List.of_mem_zip hpair
    obtain ⟨y, rfl⟩ := hzip hpair
    exact .inverted (dualOrigin_inner hn' hc') <|
      mirrors_self (fun d hd => hlibrary d (mem_nodes_of_kid hc hd))
        fun i => dualOrigin_below hn' hn hc hc'

/-- With a node replaced by its dual, a tree mirrors the one it was. -/
theorem Swapped.exists_twins {t : TreeId} (h : Swapped n n' root root') (hdual : n.Dual n')
    (hroot : root.ids.Nodup) (hroot' : root'.ids.Nodup) (ho : root.Orderly t)
    (hu : ∀ m ∈ root.nodes, m.Unaware t) :
    ∃ κ, Twins κ t root root' ∧ ∀ i ∈ root.ids, i ≠ n.id → κ i = some i := by
  have hlibrary : ∀ m ∈ root.nodes, m.script? = none := fun m hm =>
    Standard.script? (ho m hm)
  obtain ⟨κ, hdistinct, houtside, hbelow, hmirrors⟩ := hdual.exists_origin
    (nodup_ids_of_mem hroot h.mem) (h.nodup_ids hroot') fun m hm =>
      hlibrary m (mem_nodes_trans h.mem hm)
  have hκ : ∀ i ∈ root.ids, i ≠ n.id → κ i = some i := by
    intro i hi hne
    -- The origins were chosen to suit the node replaced; what is around it keeps its own ids.
    by_cases hin : i ∈ n.ids
    · rw [ids_eq, List.mem_cons, List.mem_flatMap] at hin
      obtain ⟨c, hc, hic⟩ := hin.resolve_left hne
      exact hbelow c hc i hic
    · exact houtside i hne (h.notMem_ids hroot' hi hin)
  have hswapped := h.mirrors hroot hlibrary
    (fun i hi hin => hκ i hi fun heq => hin (heq ▸ id_mem_ids n.mem_nodes_self)) hmirrors
  exact ⟨κ, ⟨hdistinct, hroot, hroot', ho, hu, hswapped⟩, hκ⟩

end Node

namespace Tree

variable {t : Tree σ} {b b' : Blackboard}

/-- Two ticks that differ at most in what concerns other nodes than those given. -/
structure TickResult.SameOn (t : TreeId) (kept : List NodeId) (r r' : TickResult σ) : Prop where
  status : r'.status = r.status
  target : r'.target = r.target
  calls : r'.callsAmong kept = r.callsAmong kept
  memory : ∀ i ∈ kept, r.board.SameMemory t i r'.board

theorem Level.sameMemory (h : Level κ [] t (t.withRoot root') root root' b b') {i : NodeId}
    (hκ : κ i = some i) : b.SameMemory t.id i b' :=
  fun _ => h.get_eq hκ fun hi => (List.not_mem_nil hi).elim

def backup : Node (List Status) :=
  .composite { id := "p", title := "MemPriority" } .memPriority [answering "a", answering "b"]

def dualBackup : Node (List Status) :=
  .inverted { id := "x", title := "Inverter" }
    (.composite { id := "q", title := "MemSequence" } .memSequence
      [.inverted { id := "y", title := "Inverter" } (answering "a"),
        .inverted { id := "z", title := "Inverter" } (answering "b")])

def planWith (n : Node (List Status)) : Node (List Status) :=
  .composite { id := "s", title := "Sequence" } .sequence [n, answering "c"]

theorem backup_dual : backup.Dual dualBackup :=
  .memPriority _ _ _ (.cons ⟨_, rfl⟩ (.cons ⟨_, rfl⟩ .nil))

theorem planWith_swapped (n n' : Node (List Status)) : n.Swapped n' (planWith n) (planWith n') :=
  .composite _ _ [] [answering "c"] .here

theorem planWith_backup_admissible {m : Node (List Status)} (hm : m ∈ (planWith backup).nodes) :
    m.Standard "t" ∧ m.Unaware "t" ∧ m.Bounded := by
  simp only [planWith, backup, Node.nodes, Node.nodesOf, answering, List.mem_cons, List.mem_append,
    List.not_mem_nil, or_false] at hm
  rcases hm with rfl | (rfl | rfl | rfl) | rfl
  · exact ⟨trivial, trivial, trivial⟩
  · exact ⟨trivial, trivial, trivial⟩
  · exact answering_admissible "t" "a"
  · exact answering_admissible "t" "b"
  · exact answering_admissible "t" "c"

end Tree
end BehaviorTrees
