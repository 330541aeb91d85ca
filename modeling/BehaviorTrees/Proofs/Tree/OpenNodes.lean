import BehaviorTrees.Proofs.Execution.Settled
import BehaviorTrees.Proofs.Tree.Diff

/-!
# The list of open nodes

Between the ticks of an orderly tree exactly the nodes of the stored list are open, and the list is
empty or a path from the root down to a leaf that is running.  A blackboard of this kind is
`AtRest`, every tick leaves it so, and a tree that never ran begins with one.
-/

namespace BehaviorTrees

variable {σ : Type}

/-! ## Paths that part -/

/-- What is left of a path after the part it has in common with another one does not meet the
other one again. -/
theorem Node.LeafPath.notMem_of_mem_beyondCommon {n ℓ ℓ' : Node σ} {p q : List NodeId}
    (h : n.LeafPath p ℓ) (h' : n.LeafPath q ℓ') (hn : n.ids.Nodup) :
    ∀ i ∈ Tree.beyondCommon p q, i ∉ q := by
  induction h generalizing q ℓ' with
  | leaf l k =>
      obtain ⟨q, rfl⟩ := h'.exists_cons
      simp [Tree.beyondCommon, Node.id, Node.label]
  | @down n c ℓ p hc hp ih =>
      cases h' with
      | leaf l k => simp [Node.kids] at hc
      | @down _ c' _ q hc' hq =>
          rw [Tree.beyondCommon, if_pos rfl]
          intro i hi hmem
          have hic : i ∈ c.ids := hp.subset_ids (Tree.beyondCommon_subset p q hi)
          rcases List.mem_cons.1 hmem with rfl | hmem
          · exact Node.id_notMem_ids_of_kid hn hc hic
          · obtain rfl := Node.kid_eq_of_mem_ids hn hc hc' hic (hq.subset_ids hmem)
            exact ih hq (Node.nodup_ids_of_kid hn hc) i hi hmem

namespace Tree

variable {t : Tree σ} {root : Node σ} {fuel : Nat} {traced : Bool} {target : σ}
  {b : Blackboard} {s : Status} {w : Traversal σ} {r : TickResult σ}

theorem openNodes_keepRecord (t : Tree σ) (traced : Bool) (current : List NodeId)
    (w : Traversal σ) : t.openNodes (keepRecord (t.setting traced) current w) = current := by
  have hstrings : (current.map Json.string).filterMap Json.string? = current := by
    induction current with
    | nil => rfl
    | cons a current ih => simpa [Json.string?] using ih
  have hkey : Key.openNodes ≠ Key.nodeCount := by decide
  simp [openNodes, keepRecord, setting, Blackboard.get_set, Scope.address, Scope.ofTree, hkey,
    Json.ofStrings, Json.array?, hstrings]

/-! ## Ticks -/

/-- Exactly the nodes of the stored list are open, and the list is empty or a path from the root
down to a leaf. -/
structure AtRest (t : Tree σ) (root : Node σ) (b : Blackboard) : Prop where
  flagged_iff : ∀ id, b.flagged t.id id = true ↔ id ∈ t.openNodes b
  path : t.openNodes b = [] ∨ ∃ ℓ, root.LeafPath (t.openNodes b) ℓ

theorem AtRest.of_hasTree_eq_false (h : b.hasTree t.id = false) : AtRest t root b := by
  have hnone : t.openNodes b = [] := by
    simp [openNodes, Scope.ofTree, Blackboard.get_of_hasTree_eq_false h]
  refine ⟨fun id => ?_, .inl hnone⟩
  simp [hnone, Blackboard.flagged_of_hasTree_eq_false h]

theorem AtRest.subset_ids (h : AtRest t root b) : t.openNodes b ⊆ root.ids := by
  rcases h.path with hnone | ⟨ℓ, hp⟩
  · simp [hnone]
  · exact hp.subset_ids

/-- What a tick of an orderly tree makes of a blackboard at rest. -/
structure Tidy (t : Tree σ) (root : Node σ) (b : Blackboard) (r : TickResult σ) : Prop extends
    Recorded t.id b r.board r.history where
  flagged_iff : ∀ id, r.board.flagged t.id id = true ↔ id ∈ t.openNodes r.board
  finished : r.status ≠ .running → t.openNodes r.board = []
  running : r.status = .running → ∃ ℓ, root.LeafPath (t.openNodes r.board) ℓ ∧
    Event.lastStatus ℓ.id r.events = some .running
  entered : ∀ id ∈ t.openNodes r.board, Entered id r.history
  clean : EachReport (Clean t.id root (b.flagged t.id)) [] r.history

theorem Tidy.atRest (h : Tidy t root b r) : AtRest t root r.board where
  flagged_iff := h.flagged_iff
  path := by
    by_cases hs : r.status = .running
    · obtain ⟨ℓ, hp, -⟩ := h.running hs
      exact .inr ⟨ℓ, hp⟩
    · exact .inl (h.finished hs)

theorem execute_settled_of_empty {e : Setting σ} (hroot : root.ids.Nodup)
    (ho : root.Orderly e.tree) (h : root.execute e fuel { target, board := b } = some (s, w)) :
    Settled e root ({ target, board := b } : Traversal σ) w.history w ∧
      (s ≠ .running → w.openNodes = []) ∧
      (s = .running → ∃ ℓ, root.LeafPath w.openNodes ℓ ∧
        Event.lastStatus ℓ.id w.events = some .running) := by
  obtain ⟨H, hw, hstays, hdown⟩ := Node.execute_settles hroot ho (fun _ _ => by simp)
    root.mem_nodes_self (Settled.refl e root _) (fun _ _ => by simp) h
  have hhist : w.history = H := by simpa [Traversal.history] using hw.history
  rw [List.nil_append] at hw
  refine ⟨hhist ▸ hw, ?_, ?_⟩
  · intro hs
    simp [Traversal.openNodes, hstays hs]
  · intro hs
    obtain ⟨p, ℓ, hp, hstack, hlast⟩ := hdown hs
    have hopen : w.openNodes = p := by simp [Traversal.openNodes, hstack]
    exact ⟨ℓ, hopen ▸ hp, hlast⟩

theorem openNodes_eq_nil_or_path {e : Setting σ} (hroot : root.ids.Nodup)
    (ho : root.Orderly e.tree) (h : root.execute e fuel { target, board := b } = some (s, w)) :
    w.openNodes = [] ∨ ∃ ℓ, root.LeafPath w.openNodes ℓ := by
  obtain ⟨-, hstays, hdown⟩ := execute_settled_of_empty hroot ho h
  by_cases hs : s = .running
  · obtain ⟨ℓ, hp, -⟩ := hdown hs
    exact .inr ⟨ℓ, hp⟩
  · exact .inl (hstays hs)

/-! ## The diff of an orderly tree -/

/-- The rest of the old list does not meet the new one. -/
theorem AtRest.notMem_of_mem_beyondCommon (hrest : AtRest t root b) (hroot : root.ids.Nodup)
    {current : List NodeId} (hcurrent : current = [] ∨ ∃ ℓ, root.LeafPath current ℓ) :
    ∀ i ∈ beyondCommon (t.openNodes b) current, i ∉ current := by
  rcases hcurrent with rfl | ⟨ℓ, hq⟩
  · simp
  · rcases hrest.path with hlast | ⟨ℓ', hp⟩
    · simp [hlast, beyondCommon]
    · exact hp.notMem_of_mem_beyondCommon hq hroot

/-- So the diff closes no node of the new list. -/
theorem AtRest.afterDiff_closes (hrest : AtRest t root b) (hroot : root.ids.Nodup)
    (ho : root.Orderly t.id) (traced : Bool)
    (hcurrent : w.openNodes = [] ∨ ∃ ℓ, root.LeafPath w.openNodes ℓ) :
    ∃ ns, Closes (t.setting traced) w ns (t.afterDiff root traced b w) ∧
      (∀ d ∈ ns, d ∈ root.nodes ∧ d.id ∉ w.openNodes) ∧
      ∀ id ∈ beyondCommon (t.openNodes b) w.openNodes, w.board.flagged t.id id = true →
        id ∈ root.ids → ∃ d ∈ ns, d.id = id := by
  have hkeeps : ∀ m ∈ root.nodes, m.hooks.close.KeepsFlags t.id := fun m hm =>
    (ho m hm).hooks.close.keepsFlags
  obtain ⟨ns, hcloses, hswept, hclosed⟩ := Tree.afterDiff_closes hroot hkeeps traced b w
  refine ⟨ns, hcloses, ?_, hclosed⟩
  intro d hd
  obtain ⟨m, hm, hstale, -, -, hcase⟩ := hswept d hd
  have hnot := hrest.notMem_of_mem_beyondCommon hroot hcurrent m.id (List.mem_reverse.1 hstale)
  rcases hcase with rfl | ⟨-, hstack⟩
  · exact ⟨hm, hnot⟩
  · exact (hnot (List.mem_reverse.2 hstack)).elim

theorem AtRest.isOpen_afterDiff_iff (hrest : AtRest t root b) (hroot : root.ids.Nodup)
    (ho : root.Orderly t.id) (hcurrent : w.openNodes = [] ∨ ∃ ℓ, root.LeafPath w.openNodes ℓ)
    (hw : Settled (t.setting traced) root ({ target, board := b } : Traversal σ) w.history w)
    (id : NodeId) :
    (t.afterDiff root traced b w).isOpen (t.setting traced) id = true ↔ id ∈ w.openNodes := by
  obtain ⟨ns, hcloses, hns, hclosed⟩ := hrest.afterDiff_closes hroot ho traced hcurrent
  rw [hcloses.isOpen_iff fun d hd => (ho d (hns d hd).1).hooks.close.keepsFlags]
  by_cases hid : Entered id w.history
  · rw [hw.open_iff id hid, ← List.mem_reverse]
    refine ⟨fun h => h.1, fun h => ⟨h, ?_⟩⟩
    rintro d hd rfl
    exact (hns d hd).2 h
  · -- a node that was not entered is open only if it is in the old list, and then it is closed
    have hnot : id ∉ w.openNodes := fun h => hid (hw.entered_of_mem_openNodes rfl h)
    refine ⟨fun ⟨hwas, hother⟩ => ?_, fun h => (hnot h).elim⟩
    have hlast : id ∈ t.openNodes b := by
      rw [hw.isOpen_of_not_entered hid] at hwas
      exact (hrest.flagged_iff id).1 hwas
    have hstale := (mem_beyondCommon_or_mem hlast w.openNodes).resolve_right hnot
    obtain ⟨d, hd, heq⟩ := hclosed id hstale hwas (hrest.subset_ids hlast)
    exact (hother d hd heq).elim

theorem AtRest.tracks_afterDiff (hrest : AtRest t root b) (hroot : root.ids.Nodup)
    (ho : root.Orderly t.id) (hcurrent : w.openNodes = [] ∨ ∃ ℓ, root.LeafPath w.openNodes ℓ)
    {base : Traversal σ} {H : List Entry} (hw : Tracks (t.setting traced) root.ids base H w) :
    ∃ H', Tracks (t.setting traced) root.ids base (H ++ H') (t.afterDiff root traced b w) ∧
      ∀ event ∈ H'.filterMap Entry.event?, event.phase = .close := by
  obtain ⟨ns, hcloses, hns, -⟩ := hrest.afterDiff_closes hroot ho traced hcurrent
  obtain ⟨H', hafter, hevents⟩ := hcloses.tracks
    (fun d hd => (ho d (hns d hd).1).hooks.close.keepsFlags)
    (fun d hd => Node.id_mem_ids (hns d hd).1) hw
  exact ⟨H', hafter, phase_of_events_eq_closings hevents⟩

/-- A tick of an orderly tree closes exactly what it did not reach again. -/
theorem tick_tidy (hroot : root.ids.Nodup) (ho : root.Orderly t.id) (ht : t.root = some root)
    (hrest : AtRest t root b) (htick : t.tick fuel traced target b = .ok r) :
    Tidy t root b r := by
  obtain ⟨s, w, hrun, rfl⟩ := (tick_eq_ok_iff ht).1 htick
  obtain ⟨hw, hstays, hdown⟩ := execute_settled_of_empty (e := t.setting traced) hroot ho hrun
  have hcurrent := openNodes_eq_nil_or_path (e := t.setting traced) hroot ho hrun
  have hiff := hrest.isOpen_afterDiff_iff hroot ho hcurrent hw
  obtain ⟨H, hafter, hphase⟩ := hrest.tracks_afterDiff hroot ho hcurrent hw.toTracks
  have hhist : (t.afterDiff root traced b w).history = w.history ++ H := by
    simpa [Traversal.history] using hafter.history
  have hflag (id : NodeId) := flagged_keepRecord (t.setting traced) w.openNodes
    (t.afterDiff root traced b w) id
  have hopen := openNodes_keepRecord t traced w.openNodes (t.afterDiff root traced b w)
  constructor
  case flagged_iff =>
    intro id
    rw [hopen, ← hiff id]
    exact Bool.eq_iff_iff.1 (hflag id)
  case finished => exact fun hs => hopen.trans (hstays hs)
  case running =>
    intro hs
    obtain ⟨ℓ, hp, hlast⟩ := hdown hs
    refine ⟨ℓ, by rw [hopen]; exact hp, ?_⟩
    rw [TickResult.events, hhist, List.filterMap_append]
    refine (Event.lastStatus_append_of_forall w.events ?_).trans hlast
    intro event hevent hexit
    simp [hphase event hevent] at hexit
  case entered =>
    intro id hid
    rw [hopen] at hid
    rw [hhist]
    exact entered_append.2 (.inl (hw.entered_of_mem_openNodes rfl hid))
  case toRecorded =>
    rw [hhist]
    refine ⟨hafter.calls, hafter.chronicle, fun id => (hflag id).trans (hafter.isOpen id), ?_⟩
    exact prompt_append hw.prompt (prompt_of_phase_eq_close hphase)
  case clean =>
    rw [hhist]
    exact hw.clean.append_clean (clean_of_phase_eq_close hphase)

/-! ## Runs -/

/-- Ticks one after the other, each on the blackboard that the one before left behind, and each
with a target of its own. -/
inductive Run (t : Tree σ) (b₀ : Blackboard) : List (TickResult σ) → Blackboard → Prop
  | nil : Run t b₀ [] b₀
  | snoc {rs : List (TickResult σ)} {b : Blackboard} {fuel : Nat} {traced : Bool} {target : σ}
      {r : TickResult σ} (h : Run t b₀ rs b) (htick : t.tick fuel traced target b = .ok r) :
      Run t b₀ (rs ++ [r]) r.board

theorem Run.atRest (hroot : root.ids.Nodup) (ho : root.Orderly t.id) (ht : t.root = some root)
    {b₀ : Blackboard} {rs : List (TickResult σ)} (h : t.Run b₀ rs b) (h₀ : AtRest t root b₀) :
    AtRest t root b := by
  induction h with
  | nil => exact h₀
  | snoc _ htick ih => exact (tick_tidy hroot ho ht ih htick).atRest

theorem Run.recorded (hroot : root.ids.Nodup) (ho : root.Orderly t.id) (ht : t.root = some root)
    {b₀ : Blackboard} {rs : List (TickResult σ)} (h : t.Run b₀ rs b) (h₀ : AtRest t root b₀) :
    Recorded t.id b₀ b (rs.flatMap TickResult.history) := by
  induction h with
  | nil => exact .refl t.id b₀
  | snoc h htick ih =>
      have htidy := tick_tidy hroot ho ht (h.atRest hroot ho ht h₀) htick
      simpa using ih.trans htidy.toRecorded

theorem Run.exists_tidy (hroot : root.ids.Nodup) (ho : root.Orderly t.id)
    (ht : t.root = some root) {b₀ : Blackboard} {rs : List (TickResult σ)} (h : t.Run b₀ rs b)
    (h₀ : AtRest t root b₀) : ∀ r ∈ rs, ∃ b', AtRest t root b' ∧ Tidy t root b' r := by
  induction h with
  | nil => simp
  | @snoc rs b _ _ _ r' h htick ih =>
      have hrest := h.atRest hroot ho ht h₀
      intro r hr
      rcases List.mem_append.1 hr with hr | hr
      · exact ih r hr
      · obtain rfl := List.mem_singleton.1 hr
        exact ⟨b, hrest, tick_tidy hroot ho ht hrest htick⟩

/-- Ticks with the targets given, one after the other. -/
def ticks (t : Tree σ) (fuel : Nat) (traced : Bool) :
    List σ → Blackboard → Option (List (TickResult σ) × Blackboard)
  | [], b => some ([], b)
  | target :: targets, b =>
      match t.tick fuel traced target b with
      | .error _ => none
      | .ok r => (t.ticks fuel traced targets r.board).map fun (rs, b) => (r :: rs, b)

theorem Run.ticks {targets : List σ} {b₀ b' : Blackboard} {rs rs' : List (TickResult σ)}
    (h : t.Run b₀ rs b) (hticks : t.ticks fuel traced targets b = some (rs', b')) :
    t.Run b₀ (rs ++ rs') b' := by
  induction targets generalizing rs rs' b with
  | nil =>
      obtain ⟨rfl, rfl⟩ : [] = rs' ∧ b = b' := by simpa [Tree.ticks] using hticks
      simpa using h
  | cons target targets ih =>
      rw [Tree.ticks] at hticks
      split at hticks
      · cases hticks
      · rename_i r htick
        obtain ⟨⟨later, b''⟩, hlater, heq⟩ := Option.map_eq_some_iff.1 hticks
        obtain ⟨rfl, rfl⟩ : r :: later = rs' ∧ b'' = b' := by simpa using heq
        have hrun := ih (h.snoc htick) hlater
        rwa [List.append_assoc, List.singleton_append] at hrun

/-- After every tick of an orderly tree exactly the nodes of the stored list are open; the list is
empty or a path from the root down to a leaf that was running when it was left; and it is not
empty if and only if the tick answered that it is running. -/
theorem openNodes_of_mem_run (hroot : root.ids.Nodup) (ho : root.Orderly t.id)
    (ht : t.root = some root) {b₀ : Blackboard} (hb₀ : b₀.hasTree t.id = false)
    {rs : List (TickResult σ)} (hrun : t.Run b₀ rs b) (hr : r ∈ rs) :
    (∀ n ∈ root.nodes, r.board.flagged t.id n.id = true ↔ n.id ∈ t.openNodes r.board) ∧
      (t.openNodes r.board).Nodup ∧
      (t.openNodes r.board = [] ∨ ∃ ℓ, root.LeafPath (t.openNodes r.board) ℓ ∧
        Event.lastStatus ℓ.id r.events = some .running) ∧
      (t.openNodes r.board ≠ [] ↔ r.status = .running) := by
  have h₀ : AtRest t root b₀ := .of_hasTree_eq_false hb₀
  obtain ⟨b', -, htidy⟩ := hrun.exists_tidy hroot ho ht h₀ r hr
  refine ⟨fun n _ => htidy.flagged_iff n.id, ?_⟩
  by_cases hs : r.status = .running
  · obtain ⟨ℓ, hp, hlast⟩ := htidy.running hs
    obtain ⟨q, hq⟩ := hp.exists_cons
    exact ⟨hp.nodup hroot, .inr ⟨ℓ, hp, hlast⟩, by simp [hq, hs]⟩
  · have hnone := htidy.finished hs
    exact ⟨by simp [hnone], .inl hnone, by simp [hnone, hs]⟩

/-! ## A sequence that is tried again -/

/-- Answers as the target says, and with success when that has nothing more to say. -/
def answering (id : NodeId) : Node (List Status) :=
  .leaf { id, title := "Answering" } (.runAction "Answering" fun answers b =>
    match answers with
    | [] => (.success, ⟨[], b⟩)
    | s :: rest => (s, ⟨rest, b⟩))

theorem answering_standard (t : TreeId) (id : NodeId) : (answering id).Standard t := by
  intro answers b
  cases answers <;> exact .refl t b

def answeringSequence : Node (List Status) :=
  .composite { id := "s", title := "Sequence" } .sequence
    [answering "a", .leaf { id := "b", title := "Runner" } .runner]

def retriedSequence : Node (List Status) :=
  .decorator { id := "r", title := "RepeatUntilSuccess" } (.repeatUntilSuccess none)
    (some answeringSequence)

theorem retriedSequence_orderly : retriedSequence.Orderly "t" := by
  intro m hm
  have hmem : m = retriedSequence ∨ m = answeringSequence ∨ m = answering "a" ∨
      m = .leaf { id := "b", title := "Runner" } .runner := by
    simpa [retriedSequence, answeringSequence, answering, Node.nodes, Node.nodesOf] using hm
  rcases hmem with rfl | rfl | rfl | rfl
  · trivial
  · trivial
  · exact answering_standard "t" "a"
  · trivial

theorem openNodes_of_mem_run_retried :
    ∃ r r' b, (ofRoot retriedSequence).Run ∅ [r, r'] b ∧ r'.status = .running ∧
      (ofRoot retriedSequence).openNodes r'.board = ["r", "s", "b"] ∧
      ∀ n ∈ retriedSequence.nodes, r'.board.flagged "t" n.id = true ↔
        n.id ∈ (ofRoot retriedSequence).openNodes r'.board := by
  obtain ⟨⟨rs, b⟩, hticks, hshape⟩ :
      ∃ x ∈ (ofRoot retriedSequence).ticks 2 true [[.success], [.failure, .success]] ∅,
        x.1.map (fun r => (r.status, (ofRoot retriedSequence).openNodes r.board)) =
          [(.running, ["r", "s", "b"]), (.running, ["r", "s", "b"])] := by
    decide +kernel
  obtain ⟨r, r', rfl⟩ := List.length_eq_two.1 (by simpa using congrArg List.length hshape)
  obtain ⟨-, hstatus, hopen⟩ : _ ∧ r'.status = .running ∧
      (ofRoot retriedSequence).openNodes r'.board = ["r", "s", "b"] := by
    simpa using hshape
  have hrun : (ofRoot retriedSequence).Run ∅ [r, r'] b := Run.nil.ticks hticks
  obtain ⟨hflags, -⟩ := openNodes_of_mem_run (by decide) retriedSequence_orderly rfl (by decide)
    hrun (r := r') (by simp)
  exact ⟨r, r', b, hrun, hstatus, hopen, hflags⟩

end Tree
end BehaviorTrees
