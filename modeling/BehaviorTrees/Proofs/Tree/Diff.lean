import BehaviorTrees.Proofs.Execution.Reach
import BehaviorTrees.Tree

/-!
# The diff of open nodes

After the turn of the root a tick releases what the tick before left open, as far as it lies beyond
the part that the old and the new list of open nodes have in common.  This makes no difference
between a node that was not reached and one that was reached in another place.
-/

namespace BehaviorTrees.Tree

variable {σ : Type} {t : Tree σ} {root : Node σ} {fuel : Nat} {traced : Bool} {target : σ}
  {board : Blackboard} {s : Status} {w : Traversal σ} {r : TickResult σ}

/-! ## What is left after the common part -/

theorem beyondCommon_subset (last current : List NodeId) : beyondCommon last current ⊆ last := by
  induction last generalizing current with
  | nil => simp [beyondCommon]
  | cons a last ih =>
      cases current with
      | nil => exact List.Subset.refl _
      | cons b current =>
          rw [beyondCommon]
          split
          · exact List.subset_cons_of_subset a (ih current)
          · exact List.Subset.refl _

theorem mem_beyondCommon_or_mem {last : List NodeId} {i : NodeId} (h : i ∈ last)
    (current : List NodeId) : i ∈ beyondCommon last current ∨ i ∈ current := by
  induction last generalizing current with
  | nil => simp at h
  | cons a last ih =>
      cases current with
      | nil => exact .inl h
      | cons b current =>
          rw [beyondCommon]
          split
          · rename_i hab
            rcases List.mem_cons.1 h with rfl | h
            · exact .inr (by simp [hab])
            · exact (ih h current).imp_right (List.mem_cons_of_mem b)
          · exact .inl h

/-! ## Ticks -/

/-- The state after the diff that follows the turn of the root. -/
def afterDiff (t : Tree σ) (root : Node σ) (traced : Bool) (board : Blackboard)
    (w : Traversal σ) : Traversal σ :=
  closeStale (t.setting traced) root (beyondCommon (t.openNodes board) w.openNodes) w

theorem tick_eq_ok_iff (ht : t.root = some root) :
    t.tick fuel traced target board = .ok r ↔
      ∃ s w, root.execute (t.setting traced) fuel { target, board } = some (s, w) ∧
        r = ⟨s, (t.afterDiff root traced board w).target,
          keepRecord (t.setting traced) w.openNodes (t.afterDiff root traced board w),
          (t.afterDiff root traced board w).history⟩ := by
  simp only [tick, ht]
  cases root.execute (t.setting traced) fuel { target, board } with
  | none => simp
  | some answer =>
      obtain ⟨s, w⟩ := answer
      constructor
      · intro h
        exact ⟨s, w, rfl, (Except.ok.inj h).symm⟩
      · rintro ⟨s', w', heq, rfl⟩
        obtain ⟨rfl, rfl⟩ : s = s' ∧ w = w' := by simpa using heq
        rfl

theorem exists_root_of_tick (h : t.tick fuel traced target board = .ok r) :
    ∃ root, t.root = some root := by
  cases ht : t.root with
  | none => simp [tick, ht] at h
  | some root => exact ⟨root, rfl⟩

theorem tick_eq_ok_of_mem_toOption
    (h : r ∈ (t.tick fuel traced target board).toOption) :
    t.tick fuel traced target board = .ok r := by
  cases htick : t.tick fuel traced target board with
  | error fault => simp [htick, Except.toOption] at h
  | ok r' => simpa [htick, Except.toOption] using h

/-- The record of a tick stands in the memory of the tree and nowhere else. -/
theorem get_keepRecord (e : Setting σ) (current : List NodeId) (w : Traversal σ) (key : String)
    {scope : Scope} (h : scope.address ≠ .tree e.tree) :
    (keepRecord e current w).get key scope = w.board.get key scope := by
  have haddress : (Scope.ofTree e.tree).address = .tree e.tree := rfl
  simp [keepRecord, Blackboard.get_set, haddress, h]

theorem flagged_keepRecord (e : Setting σ) (current : List NodeId) (w : Traversal σ)
    (id : NodeId) : (keepRecord e current w).flagged e.tree id = w.isOpen e id := by
  rw [Blackboard.flagged, get_keepRecord e current w _ (by simp [Scope.ofNode, Scope.address])]
  rfl

/-- The diff closes what it comes upon, and what lies above that on the stack; it leaves nothing of
the rest open. -/
theorem afterDiff_closes (hroot : root.ids.Nodup)
    (hk : ∀ m ∈ root.nodes, m.hooks.close.KeepsFlags t.id) (traced : Bool) (board : Blackboard)
    (w : Traversal σ) :
    ∃ ns, Closes (t.setting traced) w ns (t.afterDiff root traced board w) ∧
      (∀ d ∈ ns, SweptBy (t.setting traced) root
        (beyondCommon (t.openNodes board) w.openNodes).reverse w d) ∧
      ∀ id ∈ beyondCommon (t.openNodes board) w.openNodes, w.board.flagged t.id id = true →
        id ∈ root.ids → ∃ n ∈ ns, n.id = id := by
  have hfree : ∀ m ∈ root.nodes,
      Frees (t.setting traced) (fun m w => w.release (t.setting traced) m) m := fun m hm =>
    Traversal.release_frees (Node.nodup_ids_of_mem hroot hm)
      fun d hd => hk d (Node.mem_nodes_trans hm hd)
  obtain ⟨ns, hcloses, hswept, hoff⟩ := sweep_closes hfree hk
    (beyondCommon (t.openNodes board) w.openNodes).reverse w
  refine ⟨ns, hcloses, hswept, ?_⟩
  intro id hid hopen hroot
  by_contra hnone
  have hother : ∀ n ∈ ns, n.id ≠ id := fun n hn heq => hnone ⟨n, hn, heq⟩
  have hnow := (hcloses.isOpen_iff (fun d hd => hk d (hswept d hd).mem) id).2 ⟨hopen, hother⟩
  rw [hoff id (List.mem_reverse.2 hid) hroot] at hnow
  cases hnow

theorem execute_footprint_of_empty {e : Setting σ}
    (h : root.execute e fuel { target, board } = some (s, w)) :
    Footprint root.ids ({ target, board } : Traversal σ) w.history w := by
  obtain ⟨H, hw⟩ := Node.execute_footprint rfl h
  have hhist : w.history = H := by simpa [Traversal.history] using hw.history
  exact hhist ▸ hw

/-- What lasts through the steps of the lives of the nodes of a tree, of which the stored ones may
be closed in any case, lasts through its ticks. -/
theorem tick_kept {quiet : NodeId → Traversal σ → Traversal σ → Prop} {I : Traversal σ → Prop}
    (hI : Lasting (t.setting traced) root (· ∈ t.openNodes board) quiet I)
    (hcalm : ∀ {i u v}, quiet i u v → Calm i u v)
    (hcourse : ∀ m ∈ root.nodes, ∀ {w w' s},
      m.tickWith (t.setting traced) fuel (m.kids.map (Node.execute (t.setting traced) fuel)) w =
          some (s, w') →
        ∃ rs, Course (Node.execute (t.setting traced) fuel) m.kids (quiet m.id) (fun _ => True)
          w rs w')
    (ht : t.root = some root) (hstart : I { target, board })
    (htick : t.tick fuel traced target board = .ok r) :
    ∃ (w : Traversal σ) (current : List NodeId),
      Kept root I ({ target, board } : Traversal σ) w.history w ∧ r.target = w.target ∧
      r.board = keepRecord (t.setting traced) current w ∧ r.history = w.history ∧
      ∀ i ∈ current, Entered i w.history := by
  obtain ⟨s, w, hrun, rfl⟩ := (tick_eq_ok_iff ht).1 htick
  have hbase : Kept root I { target, board } [] { target, board } :=
    ⟨.refl root.ids _, rfl, hstart⟩
  obtain ⟨H₁, hw⟩ := Node.execute_kept hI hcalm hcourse root.mem_nodes_self hbase hrun
  have hstale : ∀ i ∈ (beyondCommon (t.openNodes board) w.openNodes).reverse, i ∈ root.ids →
      Entered i w.history ∨ i ∈ t.openNodes board := fun i hi _ =>
    .inr (beyondCommon_subset _ _ (List.mem_reverse.1 hi))
  obtain ⟨H₂, hafter⟩ : ∃ H₂, Kept root I { target, board } ([] ++ H₁ ++ H₂)
      (t.afterDiff root traced board w) :=
    hw.sweep _ (fun m hm _ v hmay hv => hv.releaseWithin hI hm hmay v.stack.length) hstale
  have hhist : (t.afterDiff root traced board w).history = [] ++ H₁ ++ H₂ := by
    simpa [Traversal.history] using hafter.history
  exact ⟨_, w.openNodes, hhist ▸ hafter, rfl, rfl, rfl, fun i hi =>
    hw.entered_mono hafter (hw.entered_of_mem_stack (List.mem_reverse.1 hi))⟩

theorem mem_ids_of_entered (ht : t.root = some root)
    (htick : t.tick fuel traced target board = .ok r) {i : NodeId} (hi : Entered i r.history) :
    i ∈ root.ids := by
  obtain ⟨w, current, hw, -, -, hhist, -⟩ := tick_kept (lasting_true (t.setting traced) root _ Calm)
    (fun hq => hq) (fun m _ _ _ _ h => Node.course h) ht trivial htick
  exact hw.mem_ids_of_entered (hhist ▸ hi)

/-- After the turn of the root a tick only closes the nodes its diff releases. -/
theorem tick_releases (hroot : root.ids.Nodup)
    (hk : ∀ m ∈ root.nodes, m.hooks.close.KeepsFlags t.id) (ht : t.root = some root)
    (hrun : root.execute (t.setting traced) fuel { target, board } = some (s, w))
    (htick : t.tick fuel traced target board = .ok r) :
    ∃ released : List (Node σ), (released.map Node.id).Nodup ∧
      r.events = w.events ++ closings t.id released ∧
      (∀ id, r.board.flagged t.id id = true ↔
        w.board.flagged t.id id = true ∧ ∀ n ∈ released, n.id ≠ id) ∧
      (∀ n ∈ released, SweptBy (t.setting traced) root
        (beyondCommon (t.openNodes board) w.openNodes).reverse w n) ∧
      ∀ id ∈ beyondCommon (t.openNodes board) w.openNodes, w.board.flagged t.id id = true →
        id ∈ root.ids → ∃ n ∈ released, n.id = id := by
  obtain ⟨s', w', hrun', rfl⟩ := (tick_eq_ok_iff ht).1 htick
  obtain ⟨rfl, rfl⟩ : s = s' ∧ w = w' := by simpa [hrun] using hrun'
  obtain ⟨released, hcloses, hswept, hrest⟩ := afterDiff_closes hroot hk traced board w
  have hkeeps : ∀ n ∈ released, n.hooks.close.KeepsFlags t.id := fun n hn =>
    hk n (hswept n hn).mem
  obtain ⟨H, hclosed, hevents⟩ := hcloses.tracks hkeeps
    (fun n hn => Node.id_mem_ids (hswept n hn).mem) (Tracks.refl (t.setting traced) root.ids w)
  have hhist : (t.afterDiff root traced board w).history = w.history ++ H := by
    simpa using hclosed.history
  refine ⟨released, hcloses.nodup hkeeps, ?_, ?_, hswept, hrest⟩
  · rw [TickResult.events, hhist, List.filterMap_append, hevents]
    rfl
  · intro id
    have hiff := hcloses.isOpen_iff hkeeps id
    rw [← flagged_keepRecord _ w.openNodes] at hiff
    exact hiff

/-! ## What the diff releases -/

/-- A node was left open by the tick before, is open after the turn of the root, and was not
entered in it. -/
def Unreached (t : Tree σ) (root : Node σ) (board : Blackboard) (w : Traversal σ) (n : Node σ) :
    Prop :=
  n ∈ root.nodes ∧ n.id ∈ t.openNodes board ∧ w.board.flagged t.id n.id = true ∧
    ¬Entered n.id w.history

/-- The diff releases all nodes that were not reached.  It releases no others if and only if what
is left of the old list after the common part has no open node that was entered in this tick; and
it closes no node of the new list if and only if that rest has no open node of the new list. -/
theorem diff_releases_unreached_iff (hroot : root.ids.Nodup)
    (hk : ∀ m ∈ root.nodes, m.hooks.close.KeepsFlags t.id) (ht : t.root = some root)
    (hrun : root.execute (t.setting traced) fuel { target, board } = some (s, w))
    (htick : t.tick fuel traced target board = .ok r) :
    ∃ released : List (Node σ), (released.map Node.id).Nodup ∧
      r.events = w.events ++ closings t.id released ∧
      (∀ id, r.board.flagged t.id id = true ↔
        w.board.flagged t.id id = true ∧ ∀ n ∈ released, n.id ≠ id) ∧
      (∀ n, t.Unreached root board w n → n ∈ released) ∧
      ((∀ n, n ∈ released ↔ t.Unreached root board w n) ↔
        ∀ id ∈ beyondCommon (t.openNodes board) w.openNodes,
          w.board.flagged t.id id = true → ¬Entered id w.history) ∧
      ((∀ id ∈ w.openNodes, w.board.flagged t.id id = true → r.board.flagged t.id id = true) ↔
        ∀ id ∈ beyondCommon (t.openNodes board) w.openNodes,
          w.board.flagged t.id id = true → id ∉ w.openNodes) := by
  obtain ⟨released, hnodup, hevents, hflag, hswept, hrest⟩ :=
    tick_releases hroot hk ht hrun htick
  have hreach := execute_footprint_of_empty hrun
  have hentered : ∀ id ∈ w.openNodes, Entered id w.history := fun id hid =>
    hreach.entered_of_mem_openNodes rfl hid
  -- a node that was not reached is part of the rest, as all of the new list was entered
  have hunreached : ∀ n, t.Unreached root board w n → n ∈ released := by
    rintro n ⟨hn, hlast, hopen, hnot⟩
    have hstale := (mem_beyondCommon_or_mem hlast w.openNodes).resolve_right
      fun h => hnot (hentered n.id h)
    obtain ⟨m, hm, hid⟩ := hrest n.id hstale hopen (Node.id_mem_ids hn)
    exact Node.eq_of_id_eq hroot (hswept m hm).mem hn hid ▸ hm
  refine ⟨released, hnodup, hevents, hflag, hunreached, ?_, ?_⟩
  · constructor
    · intro heq id hstale hopen hid
      obtain ⟨n, hn, rfl⟩ := hrest id hstale hopen (hreach.mem_ids_of_entered hid)
      exact ((heq n).1 hn).2.2.2 hid
    · intro hnot n
      refine ⟨fun hn => ?_, hunreached n⟩
      obtain ⟨m, hm, hstale, hopen, -, hcase⟩ := hswept n hn
      have hfresh := hnot m.id (List.mem_reverse.1 hstale) hopen
      rcases hcase with rfl | ⟨-, hstack⟩
      · exact ⟨hm, beyondCommon_subset _ _ (List.mem_reverse.1 hstale), hopen, hfresh⟩
      · exact (hfresh (hentered m.id (List.mem_reverse.2 hstack))).elim
  · constructor
    · intro hkept id hstale hopen hid
      obtain ⟨n, hn, rfl⟩ := hrest id hstale hopen (hreach.mem_ids_of_entered (hentered id hid))
      exact ((hflag n.id).1 (hkept n.id hid hopen)).2 n hn rfl
    · intro hnot id hid hopen
      refine (hflag id).2 ⟨hopen, ?_⟩
      rintro n hn rfl
      obtain ⟨m, -, hstale, hopenm, -, hcase⟩ := hswept n hn
      have hfresh := hnot m.id (List.mem_reverse.1 hstale) hopenm
      rcases hcase with rfl | ⟨-, hstack⟩
      · exact hfresh hid
      · exact hfresh (List.mem_reverse.2 hstack)

/-! ## A sequence that is put below an inverter -/

/-- A tree whose clock stands still. -/
def ofRoot (root : Node σ) : Tree σ :=
  { id := "t", clock := .showing fun _ => 0, root := some root }

def runningSequence : Node Unit :=
  .composite { id := "a", title := "Sequence" } .sequence
    [.leaf { id := "b", title := "Runner" } .runner]

def invertedSequence : Node Unit :=
  .decorator { id := "x", title := "Inverter" } .inverter (some runningSequence)

/-- The new list of open nodes begins with the inverter, so all of the old one counts as left
behind, and a leaf that has just been entered and is running gets closed. -/
theorem diff_releases_entered_node :
    ∃ r r', (ofRoot runningSequence).tick 0 false () ∅ = .ok r ∧
      (ofRoot invertedSequence).tick 0 false () r.board = .ok r' ∧
      invertedSequence.ids.Nodup ∧ r'.status = .running ∧
      (ofRoot invertedSequence).openNodes r'.board = ["x", "a", "b"] ∧
      Entered "b" r'.history ∧ r'.board.flagged "t" "b" = false := by
  refine ⟨_, _, rfl, rfl, ?_, ?_, ?_, ?_, ?_⟩ <;> decide

theorem diff_releases_unreached_iff_inverted :
    ∃ r s w r', (ofRoot runningSequence).tick 0 false () ∅ = .ok r ∧
      invertedSequence.execute ((ofRoot invertedSequence).setting false) 0
        { target := (), board := r.board } = some (s, w) ∧
      (ofRoot invertedSequence).tick 0 false () r.board = .ok r' ∧
      ∃ released, r'.events = w.events ++ closings "t" released ∧
        ¬∀ n, n ∈ released ↔
          (ofRoot invertedSequence).Unreached invertedSequence r.board w n := by
  have hhooks : ∀ m ∈ invertedSequence.nodes, m.hooks.close.KeepsFlags "t" := by
    simp [invertedSequence, runningSequence, Node.nodes, Node.nodesOf, Node.hooks,
      Hook.KeepsFlags, Scene.unchanged]
  obtain ⟨r, s, w, r', hr, hrun, htick, hstale, hopen, hentered⟩ :
      ∃ r s w r', (ofRoot runningSequence).tick 0 false () ∅ = .ok r ∧
        invertedSequence.execute ((ofRoot invertedSequence).setting false) 0
          { target := (), board := r.board } = some (s, w) ∧
        (ofRoot invertedSequence).tick 0 false () r.board = .ok r' ∧
        "b" ∈ beyondCommon ((ofRoot invertedSequence).openNodes r.board) w.openNodes ∧
        w.board.flagged "t" "b" = true ∧ Entered "b" w.history := by
    refine ⟨_, _, _, _, rfl, rfl, rfl, ?_, ?_, ?_⟩ <;> decide
  obtain ⟨released, -, hevents, -, -, hiff, -⟩ :=
    diff_releases_unreached_iff (t := ofRoot invertedSequence) (by decide) hhooks rfl hrun htick
  exact ⟨r, s, w, r', hr, hrun, htick, released, hevents, fun heq =>
    hiff.1 heq "b" hstale hopen hentered⟩

end BehaviorTrees.Tree
