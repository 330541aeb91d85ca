import BehaviorTrees.Proofs.Execution.Logging
import BehaviorTrees.Proofs.Execution.Turn
import BehaviorTrees.Proofs.Tree.OpenNodes

/-!
# The shape of a trace

What a tick of an orderly tree reports is the turn of the root, followed by the closings of those
nodes of the list before that were not entered in it.  Leaves that keep a log find in it what was
reported of them.
-/

namespace BehaviorTrees.Tree

variable {σ : Type} {t : Tree σ} {root : Node σ} {fuel : Nat} {traced : Bool} {target : σ}
  {b : Blackboard} {s : Status} {w : Traversal σ} {r : TickResult σ}

/-! ## What is left of the list before -/

theorem exists_append_beyondCommon (last current : List NodeId) :
    ∃ common ⊆ current, last = common ++ beyondCommon last current := by
  induction last generalizing current with
  | nil => exact ⟨[], by simp, rfl⟩
  | cons a last ih =>
      cases current with
      | nil => exact ⟨[], by simp, rfl⟩
      | cons b current =>
          rw [beyondCommon]
          split
          · rename_i hab
            obtain ⟨common, hcommon, hlast⟩ := ih current
            exact ⟨a :: common, hab ▸ List.cons_subset_cons a hcommon,
              congrArg (List.cons a) hlast⟩
          · exact ⟨[], by simp, rfl⟩

theorem AtRest.nodup_openNodes (hrest : AtRest t root b) (hroot : root.ids.Nodup) :
    (t.openNodes b).Nodup := by
  rcases hrest.path with hnone | ⟨ℓ, hp⟩
  · simp [hnone]
  · exact hp.nodup hroot

/-- Of the list before, those nodes are still open after the turn of the root that lie beyond the
common part and were not entered. -/
theorem AtRest.filter_isOpen_beyondCommon (hrest : AtRest t root b) (hroot : root.ids.Nodup)
    (hcurrent : w.openNodes = [] ∨ ∃ ℓ, root.LeafPath w.openNodes ℓ)
    (hw : Settled (t.setting traced) root ({ target, board := b } : Traversal σ) w.history w) :
    (beyondCommon (t.openNodes b) w.openNodes).filter (fun i => w.isOpen (t.setting traced) i) =
      (t.openNodes b).filter fun i => ¬Entered i w.history := by
  have hopen : ∀ i ∈ beyondCommon (t.openNodes b) w.openNodes,
      w.isOpen (t.setting traced) i = decide ¬Entered i w.history := by
    intro i hi
    -- what was entered is open only on the new path, and the rest of the old one does not meet it
    by_cases hentered : Entered i w.history
    · have hnot := hrest.notMem_of_mem_beyondCommon hroot hcurrent i hi
      have hclosed := (hw.open_iff i hentered).not.2 fun h => hnot (List.mem_reverse.2 h)
      simpa [hentered] using hclosed
    · have hflag := (hrest.flagged_iff i).2 (beyondCommon_subset _ _ hi)
      rw [hw.isOpen_of_not_entered hentered, decide_eq_true hentered]
      exact hflag
  obtain ⟨common, hcommon, hlast⟩ := exists_append_beyondCommon (t.openNodes b) w.openNodes
  have hnone : common.filter (fun i => ¬Entered i w.history) = [] := by
    rw [List.filter_eq_nil_iff]
    intro i hi
    have hentered := hw.entered_of_mem_openNodes rfl (hcommon hi)
    simp [hentered]
  rw [List.filter_congr hopen]
  conv_rhs => rw [hlast, List.filter_append, hnone, List.nil_append]

/-! ## Ticks -/

theorem nodeCount_keepRecord (t : Tree σ) (traced : Bool) (current : List NodeId)
    (w : Traversal σ) : t.nodeCount (keepRecord (t.setting traced) current w) = w.count := by
  simp [nodeCount, keepRecord, setting, Blackboard.get_set, Scope.address, Scope.ofTree]

/-- After the turn of the root a tick closes, the deepest one first, what is left of the list
before. -/
theorem AtRest.afterDiff_eq_closeAll (hrest : AtRest t root b) (hroot : root.ids.Nodup)
    (ho : root.Orderly t.id) (hcurrent : w.openNodes = [] ∨ ∃ ℓ, root.LeafPath w.openNodes ℓ)
    (hw : Settled (t.setting traced) root ({ target, board := b } : Traversal σ) w.history w) :
    ∃ stale ⊆ root.nodes,
      stale.map Node.id = ((t.openNodes b).filter fun i => ¬Entered i w.history).reverse ∧
      t.afterDiff root traced b w = w.closeAll (t.setting traced) stale := by
  have hnodup : (beyondCommon (t.openNodes b) w.openNodes).reverse.Nodup := by
    obtain ⟨common, -, hlast⟩ := exists_append_beyondCommon (t.openNodes b) w.openNodes
    have hsuffix : (common ++ beyondCommon (t.openNodes b) w.openNodes).Nodup :=
      hlast ▸ hrest.nodup_openNodes hroot
    exact List.nodup_reverse.2 hsuffix.of_append_right
  have hoff : ∀ i ∈ (beyondCommon (t.openNodes b) w.openNodes).reverse,
      w.isOpen (t.setting traced) i = true → i ∈ root.ids ∧ i ∉ w.stack := by
    intro i hi _
    have hstale := List.mem_reverse.1 hi
    refine ⟨hrest.subset_ids (beyondCommon_subset _ _ hstale), fun hstack => ?_⟩
    apply hrest.notMem_of_mem_beyondCommon hroot hcurrent i hstale
    exact List.mem_reverse.2 hstack
  have hkeep : ∀ m ∈ root.nodes, m.hooks.close.KeepsFlags t.id :=
    fun m hm => (ho m hm).hooks.close.keepsFlags
  have hrelease : ∀ (m : Node σ) (u : Traversal σ), m.id ∉ u.stack →
      u.release (t.setting traced) m = u.close (t.setting traced) m :=
    fun _ _ hm => Traversal.releaseWithin_of_notMem hm
  obtain ⟨stale, hstale, hids, hclosed⟩ :=
    sweep_eq_closeAll (e := t.setting traced) hkeep hrelease hnodup hoff
  refine ⟨stale, hstale, ?_, hclosed⟩
  rw [hids, List.filter_reverse, hrest.filter_isOpen_beyondCommon hroot hcurrent hw]

/-- What leaves of the caller's own write down in a tick are the calls that are noted of them. -/
theorem log_tick {log : σ → List (NodeId × Phase)} {keeps : NodeId → Bool}
    (hlog : root.KeepsLog t.clock log keeps) (hn : ∀ m ∈ root.nodes, m.script? = none)
    (ht : t.root = some root) (htick : t.tick fuel traced target b = .ok r) :
    log r.target = log target ++ keptCalls keeps r.history := by
  obtain ⟨s, w, hexec, rfl⟩ := (tick_eq_ok_iff ht).1 htick
  have hsustains := Node.KeepsLog.sustains (e := t.setting traced) hlog hn (log target)
  have hstart : LogsCalls log keeps (log target) ({ target, board := b } : Traversal σ) :=
    (List.append_nil _).symm
  have hturn := hsustains.execute root.mem_nodes_self hstart hexec
  exact hsustains.closeStale (beyondCommon (t.openNodes b) w.openNodes) hturn

/-- A tick reports the turn of the root and then the closings of those nodes of the list before
that it did not enter, the deepest one first.  Each report is followed by the call of its hook, and
the number of nodes stored is that of the nodes entered.  Leaves that write each of their hooks down
where it is run have written down what was reported of them. -/
theorem events_eq_turn_append_closings (hroot : root.ids.Nodup) (ho : root.Orderly t.id)
    (ht : t.root = some root) {b₀ : Blackboard} (hb₀ : b₀.hasTree t.id = false)
    {rs : List (TickResult σ)} (hrun : t.Run b₀ rs b)
    (htick : t.tick fuel traced target b = .ok r) :
    ∃ (w : Traversal σ) (E : List Event) (stale : List (Node σ)),
      Turn (t.setting traced) fuel root { target, board := b } r.status w E ∧
      r.events = E ++ closings t.id stale ∧ stale ⊆ root.nodes ∧
      stale.map Node.id = ((t.openNodes b).filter fun i => ¬Entered i r.history).reverse ∧
      Paired r.history ∧
      (∀ (log : σ → List (NodeId × Phase)) (keeps : NodeId → Bool),
        root.KeepsLog t.clock log keeps → log r.target = log target ++
          (r.events.filter fun x => keeps x.node).map fun x => (x.node, x.phase)) ∧
      t.nodeCount r.board = (Event.ofPhase .enter r.events).length := by
  have hrest := hrun.atRest hroot ho ht (.of_hasTree_eq_false hb₀)
  have hscript : ∀ m ∈ root.nodes, m.script? = none := fun m hm => (ho m hm).script?
  have hlogged {log : σ → List (NodeId × Phase)} {keeps : NodeId → Bool}
      (hlog : root.KeepsLog t.clock log keeps) := log_tick hlog hscript ht htick
  obtain ⟨s, w, hexec, rfl⟩ := (tick_eq_ok_iff ht).1 htick
  obtain ⟨hw, -⟩ := execute_settled_of_empty (e := t.setting traced) hroot ho hexec
  have hcurrent := openNodes_eq_nil_or_path (e := t.setting traced) hroot ho hexec
  obtain ⟨E, hturn, hwrites⟩ := Node.execute_takesTurns hroot ho (fun _ _ => by simp)
    root.mem_nodes_self (Settled.refl (t.setting traced) root _) (fun _ _ => by simp) hexec
  obtain ⟨stale, hstale, hids, hclosed⟩ := hrest.afterDiff_eq_closeAll hroot ho hcurrent hw
  have hdiff : Writes w (t.afterDiff root traced b w) (closings t.id stale) :=
    hclosed ▸ .closeAll stale
  obtain ⟨⟨L, hL, hhist, hevents⟩, hcount⟩ := hwrites.trans hdiff
  obtain ⟨L', -, hhist', hclosings⟩ := hdiff.history
  have hentered (i : NodeId) :
      Entered i (t.afterDiff root traced b w).history ↔ Entered i w.history := by
    rw [hhist', entered_append]
    exact or_iff_left (not_entered_of_events_eq_closings hclosings i)
  have hall : (t.afterDiff root traced b w).history = L := hhist
  have hreported : (t.afterDiff root traced b w).history.filterMap Entry.event? =
      E ++ closings t.id stale := by rw [hall, hevents]
  have hpaired : Paired (t.afterDiff root traced b w).history := hall ▸ hL
  refine ⟨w, E, stale, hturn, hreported, hstale, ?_, hpaired, fun log keeps hlog => ?_, ?_⟩
  · simp only [hentered]
    exact hids
  · rw [hlogged hlog, hpaired.callsAsTold.keptCalls_eq]
    rfl
  · rw [nodeCount_keepRecord, hcount, TickResult.events, hreported]
    exact Nat.zero_add _

/-! ## Leaves that keep a diary -/

/-- Answers still to be given, and what was written down. -/
abbrev Diary : Type := List Status × List (NodeId × Phase)

def writeDown (phase : Phase) : Hook Diary := fun s =>
  ⟨(s.target.1, s.target.2 ++ [(s.self.id, phase)]), s.board⟩

/-- Writes down whatever it is called for, and answers by the list. -/
def keepingDiary : LeafDesign Diary where
  name := "Diarist"
  hooks := ⟨writeDown .enter, writeDown .opening, writeDown .close, writeDown .exit⟩
  tick s := (s.target.1.headD .success,
    ⟨(s.target.1.tail, s.target.2 ++ [(s.self.id, .tick)]), s.board⟩)

def diarist (id : NodeId) : Node Diary :=
  .leaf { id, title := "Diarist" } (.custom keepingDiary)

def diarySequence : Node Diary :=
  .composite { id := "s", title := "Sequence" } .sequence [diarist "a", diarist "b"]

def retriedDiary : Node Diary :=
  .decorator { id := "r", title := "RepeatUntilSuccess" } (.repeatUntilSuccess none)
    (some diarySequence)

theorem mem_nodes_retriedDiary {m : Node Diary} (hm : m ∈ retriedDiary.nodes) :
    m = retriedDiary ∨ m = diarySequence ∨ m = diarist "a" ∨ m = diarist "b" := by
  simpa [retriedDiary, diarySequence, diarist, Node.nodes, Node.nodesOf] using hm

theorem retriedDiary_orderly : retriedDiary.Orderly "t" := by
  have hdiarist (id : NodeId) : (diarist id).Standard "t" :=
    ⟨⟨fun s _ => .refl _ s.board, fun s _ => .refl _ s.board, fun s _ => .refl _ s.board,
      fun s _ => .refl _ s.board⟩, fun s _ => .refl _ s.board⟩
  intro m hm
  rcases mem_nodes_retriedDiary hm with rfl | rfl | rfl | rfl
  · trivial
  · trivial
  · exact hdiarist "a"
  · exact hdiarist "b"

theorem retriedDiary_keepsLog :
    retriedDiary.KeepsLog (ofRoot retriedDiary).clock Prod.snd fun i => i = "a" ∨ i = "b" where
  clock _ := rfl
  action l name act hm := by
    rcases mem_nodes_retriedDiary hm with h | h | h | h <;> cases h
  custom l design hm := by
    have hcustom : (l.id = "a" ∨ l.id = "b") ∧ design = keepingDiary := by
      rcases mem_nodes_retriedDiary hm with h | h | h | h <;> cases h <;> simp
    obtain ⟨hid, rfl⟩ := hcustom
    constructor
    · rw [Hooks.forall_mem_calls]
      simp [keepingDiary, writeDown, logged, hid]
    · rintro s hs
      simp [keepingDiary, logged, hid, hs]
  others m hm hkeeps := by
    rcases mem_nodes_retriedDiary hm with rfl | rfl | rfl | rfl
    · cases hkeeps
    · cases hkeeps
    · exact ⟨_, _, rfl⟩
    · exact ⟨_, _, rfl⟩

/-- In the second tick `a` fails, is run again and errs, and `b` is closed without being reached. -/
theorem events_eq_turn_append_closings_retried :
    ∃ rs b r w E, ∃ stale : List (Node Diary), (ofRoot retriedDiary).Run ∅ rs b ∧
      (ofRoot retriedDiary).tick 2 true ([.failure, .error], []) b = .ok r ∧
      Turn ((ofRoot retriedDiary).setting true) 2 retriedDiary
        { target := ([.failure, .error], []), board := b } .error w E ∧
      r.events = E ++ closings "t" stale ∧ stale.map Node.id = ["b"] ∧ Paired r.history ∧
      r.target.2 =
        [("a", .enter), ("a", .opening), ("a", .tick), ("a", .close), ("a", .exit),
          ("a", .enter), ("a", .opening), ("a", .tick), ("a", .close), ("a", .exit),
          ("b", .close)] ∧
      ((r.events.filter fun x => x.node = "a" ∨ x.node = "b").map fun x => (x.node, x.phase)) =
        r.target.2 ∧
      (ofRoot retriedDiary).nodeCount r.board = 5 := by
  obtain ⟨⟨rs, b⟩, hticks, r, hr, hstatus, hids, hdiary, hcount⟩ :
      ∃ x ∈ (ofRoot retriedDiary).ticks 2 true [([.success, .running], [])] ∅,
        ∃ r ∈ ((ofRoot retriedDiary).tick 2 true ([.failure, .error], []) x.2).toOption,
          r.status = .error ∧
            (((ofRoot retriedDiary).openNodes x.2).filter fun i => ¬Entered i r.history) =
              ["b"] ∧
            r.target.2 =
              [("a", .enter), ("a", .opening), ("a", .tick), ("a", .close), ("a", .exit),
                ("a", .enter), ("a", .opening), ("a", .tick), ("a", .close), ("a", .exit),
                ("b", .close)] ∧
            (Event.ofPhase .enter r.events).length = 5 := by
    decide +kernel
  have hrun : (ofRoot retriedDiary).Run ∅ rs b := Run.nil.ticks hticks
  have htick : (ofRoot retriedDiary).tick 2 true ([.failure, .error], []) b = .ok r :=
    tick_eq_ok_of_mem_toOption hr
  obtain ⟨w, E, stale, hturn, hevents, -, hstale, hpaired, hlog, hnodes⟩ :=
    events_eq_turn_append_closings (by decide) retriedDiary_orderly rfl (by decide) hrun htick
  rw [hids] at hstale
  rw [hstatus] at hturn
  have hsame := hlog Prod.snd _ retriedDiary_keepsLog
  simp only [List.nil_append] at hsame
  exact ⟨rs, b, r, w, E, stale, hrun, htick, hturn, hevents, hstale, hpaired, hdiary, hsame.symm,
    hnodes.trans hcount⟩

end BehaviorTrees.Tree
