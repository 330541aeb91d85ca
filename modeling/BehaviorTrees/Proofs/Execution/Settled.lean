import BehaviorTrees.Proofs.Execution.Release

/-!
# What a run of an orderly node leaves behind

Between two turns a run that started at `base` is `Settled`: of the nodes entered since then exactly
those on the stack are open, and nothing changed in the records of the others.  A turn of an
orderly node keeps it so.  If the node finishes, the stack is as it was before; if it is running,
the ids on a path down to a leaf that is running lie on top.
-/

namespace BehaviorTrees

variable {σ : Type} {e : Setting σ} {fuel : Nat} {root n : Node σ} {base w w' u : Traversal σ}
  {H : List Entry} {s : Status}

/-- When a node is left and is not running, those nodes below it are open that were open at first
and have not been entered since. -/
def Clean (t : TreeId) (root : Node σ) (before : NodeId → Bool) (pre : List Entry) (event : Event)
    (board : Blackboard) (_ : List Entry) : Prop :=
  event.phase = .exit → event.status ≠ some .running →
    ∀ n ∈ root.nodes, n.id = event.node → ∀ i ∈ n.ids,
      (board.flagged t i = true ↔ before i = true ∧ ¬Entered i pre)

theorem clean_of_phase_ne_exit {t : TreeId} {before : NodeId → Bool} {pre : List Entry}
    (h : ∀ event ∈ H.filterMap Entry.event?, event.phase ≠ .exit) :
    EachReport (Clean t root before) pre H :=
  EachReport.of_forall fun event hevent _ _ _ hexit => (h event hevent hexit).elim

theorem clean_of_phase_eq_close {t : TreeId} {before : NodeId → Bool} {pre : List Entry}
    (h : ∀ event ∈ H.filterMap Entry.event?, event.phase = .close) :
    EachReport (Clean t root before) pre H :=
  clean_of_phase_ne_exit fun event hevent => by simp [h event hevent]

theorem EachReport.append_clean {t : TreeId} {before : NodeId → Bool} {H' : List Entry}
    (h : EachReport (Clean t root before) [] H) (h' : EachReport (Clean t root before) H H') :
    EachReport (Clean t root before) [] (H ++ H') :=
  h.append (fun _ _ _ _ hclean => hclean) h'

structure Settled (e : Setting σ) (root : Node σ) (base : Traversal σ) (H : List Entry)
    (w : Traversal σ) : Prop extends Tracks e root.ids base H w where
  ofTree : ∀ key ∈ Key.ofTree,
    w.board.get key (.ofTree e.tree) = base.board.get key (.ofTree e.tree)
  ofNode : ∀ i, ¬Entered i H → ∀ key ∈ Key.ofNode, w.remembered e i key = base.remembered e i key
  open_iff : ∀ i, Entered i H → (w.isOpen e i = true ↔ i ∈ w.stack)
  prompt : EachReport (Prompt e.tree) [] H
  clean : EachReport (Clean e.tree root fun id => base.isOpen e id) [] H

/-- A path from a node down to a leaf that is running was put on the stack. -/
def RunsDown (n : Node σ) (w w' : Traversal σ) : Prop :=
  ∃ p ℓ, n.LeafPath p ℓ ∧ w'.stack = p.reverse ++ w.stack ∧
    Event.lastStatus ℓ.id w'.events = some .running

theorem events_eq_of_history {L : List Entry} (h : w'.history = w.history ++ L) :
    w'.events = w.events ++ L.filterMap Entry.event? := by
  rw [Traversal.events, h, List.filterMap_append, Traversal.events]

theorem RunsDown.calm {id : NodeId} (h : RunsDown n w u) (hcalm : Calm id u w') :
    RunsDown n w w' := by
  obtain ⟨p, ℓ, hp, hstack, hlast⟩ := h
  obtain ⟨R, hR, hhist⟩ := hcalm.history
  refine ⟨p, ℓ, hp, hcalm.stack.trans hstack, ?_⟩
  rw [events_eq_of_history hhist, events_readings hR, List.append_nil]
  exact hlast

theorem events_exit {v : Traversal σ} :
    (v.exit e n s).events = v.events ++ [⟨e.tree, n.id, n.name, .exit, some s⟩] :=
  events_eq_of_history Traversal.history_exit

theorem runsDown_exit_leaf {l : Label} {k : LeafKind σ} {v : Traversal σ}
    (h : v.stack = l.id :: w.stack) :
    RunsDown (.leaf l k) w (v.exit e (.leaf l k) .running) := by
  refine ⟨[l.id], .leaf l k, .leaf l k, h, ?_⟩
  rw [events_exit]
  exact Event.lastStatus_append_exit v.events (x := ⟨_, l.id, _, .exit, _⟩) rfl

/-- The path from a node that is running goes on in a node it holds. -/
theorem RunsDown.exit {c : Node σ} {v : Traversal σ} (h : RunsDown c u v) (hn : n.ids.Nodup)
    (hc : c ∈ n.kids) (hu : u.stack = n.id :: w.stack) :
    RunsDown n w (v.exit e n .running) := by
  obtain ⟨p, ℓ, hp, hstack, hstatus⟩ := h
  have hne : n.id ≠ ℓ.id := fun heq =>
    Node.id_notMem_ids_of_kid hn hc (heq ▸ Node.id_mem_ids hp.leaf_mem)
  refine ⟨n.id :: p, ℓ, .down hc hp, ?_, ?_⟩
  · rw [Traversal.stack_exit, hstack, hu]
    simp
  · rw [events_exit, Event.lastStatus_append_of_forall, hstatus]
    intro x hx _
    obtain rfl := List.mem_singleton.1 hx
    exact hne

namespace Settled

theorem refl (e : Setting σ) (root : Node σ) (w : Traversal σ) : Settled e root w [] w where
  toTracks := .refl e root.ids w
  ofTree _ _ := rfl
  ofNode _ _ _ _ := rfl
  open_iff i hi := (not_entered_nil i hi).elim
  prompt := trivial
  clean := trivial

theorem isOpen_of_not_entered (hw : Settled e root base H w) {i : NodeId} (hi : ¬Entered i H) :
    w.isOpen e i = base.isOpen e i := by
  simp only [Traversal.isOpen, hw.ofNode i hi Key.isOpen (by simp [Key.ofNode])]

theorem entered_of_mem_stack (hw : Settled e root base H w)
    (hbase : ∀ i ∈ root.ids, i ∉ base.stack) {i : NodeId} (hi : i ∈ root.ids)
    (hstack : i ∈ w.stack) : Entered i H :=
  (hw.stack i hstack).resolve_left (hbase i hi)

theorem begin (hw : Settled e root base H w) (hn : n ∈ root.nodes) (hk : n.Standard e.tree) :
    ∃ H', Settled e root base (H ++ H') (w.begin e n) ∧ Entered n.id H' := by
  obtain ⟨H', htracks, hentrance⟩ := hw.toTracks.begin (Node.id_mem_ids hn) hk.hooks
  have hothers : KeepsOthers e n.id w (w.begin e n) := .begin hk.hooks
  refine ⟨H', ⟨htracks, ?_, ?_, ?_, prompt_append hw.prompt hentrance.prompt, ?_⟩,
    (hentrance.entered n.id).2 rfl⟩
  · intro key hkey
    exact (hothers.ofTree key hkey).trans (hw.ofTree key hkey)
  · intro i hi key hkey
    rw [entered_append, hentrance.entered, not_or] at hi
    rw [hothers.ofNode key hkey i (Ne.symm hi.2)]
    exact hw.ofNode i hi.1 key hkey
  · intro i hi
    rw [Traversal.isOpen_begin hk.hooks, Traversal.stack_begin, List.mem_cons]
    by_cases hid : i = n.id
    · simp [hid]
    · rw [entered_append, hentrance.entered] at hi
      simp only [hid, false_or]
      exact hw.open_iff i (hi.resolve_right (Ne.symm hid))
  · exact hw.clean.append_clean (clean_of_phase_ne_exit hentrance.phase_ne_exit)

theorem quiet (hw : Settled e root base H w) (hn : n ∈ root.nodes) (hentered : Entered n.id H)
    (hq : Quiet e n.id w u) : ∃ H', Settled e root base (H ++ H') u := by
  obtain ⟨R, hR, htracks⟩ := hw.toTracks.calm (Node.id_mem_ids hn) hq.toCalm hq.isOpen
  have hnone (i : NodeId) : ¬Entered i R := not_entered_readings hR
  have hevents : R.filterMap Entry.event? = [] := events_readings hR
  refine ⟨R, htracks, ?_, ?_, ?_, prompt_append hw.prompt ?_, ?_⟩
  · intro key hkey
    exact (hq.ofTree key hkey).trans (hw.ofTree key hkey)
  · intro i hi key hkey
    rw [entered_append, not_or] at hi
    have hne : i ≠ n.id := fun heq => hi.1 (heq ▸ hentered)
    rw [hq.ofNode key hkey i (.inr hne)]
    exact hw.ofNode i hi.1 key hkey
  · intro i hi
    rw [hq.isOpen, hq.stack]
    exact hw.open_iff i ((entered_append.1 hi).resolve_right (hnone i))
  · exact EachReport.of_forall (by simp [hevents])
  · exact hw.clean.append_clean (clean_of_phase_ne_exit (by simp [hevents]))

/-- Closing nodes that have been entered changes nothing for the others. -/
theorem closes (ho : root.Orderly e.tree) (hw : Settled e root base H w) {ns : List (Node σ)}
    (hcloses : Closes e w ns w') (hns : ∀ d ∈ ns, d ∈ root.nodes ∧ Entered d.id H)
    (hopen : ∀ i, Entered i H → (w'.isOpen e i = true ↔ i ∈ w'.stack)) :
    ∃ H', Settled e root base (H ++ H') w' := by
  have hrecords : ∀ d ∈ ns, d.hooks.close.KeepsRecords e.tree := fun d hd =>
    (ho d (hns d hd).1).hooks.close
  obtain ⟨H', htracks, hevents⟩ := hcloses.tracks (fun d hd => (hrecords d hd).keepsFlags)
    (fun d hd => Node.id_mem_ids (hns d hd).1) hw.toTracks
  obtain ⟨htree, hnode⟩ := hcloses.records hrecords
  have hnone := not_entered_of_events_eq_closings hevents
  have hphase := phase_of_events_eq_closings hevents
  refine ⟨H', htracks, ?_, ?_, ?_, prompt_append hw.prompt ?_, ?_⟩
  · intro key hkey
    exact (htree key hkey).trans (hw.ofTree key hkey)
  · intro i hi key hkey
    rw [entered_append, not_or] at hi
    rw [hnode key hkey i]
    · exact hw.ofNode i hi.1 key hkey
    · rintro d hd rfl
      exact hi.1 (hns d hd).2
  · intro i hi
    exact hopen i ((entered_append.1 hi).resolve_right (hnone i))
  · exact prompt_of_phase_eq_close hphase
  · exact hw.clean.append_clean (clean_of_phase_eq_close hphase)

theorem release (hroot : root.ids.Nodup) (ho : root.Orderly e.tree)
    (hbase : ∀ i ∈ root.ids, i ∉ base.stack) (hw : Settled e root base H w) (hn : n ∈ root.nodes)
    {above below : List NodeId} (hstack : w.stack = above ++ n.id :: below) (habove : above ⊆ n.ids)
    (hnot : n.id ∉ above) (hbelow : ∀ i ∈ n.ids, i ∉ below) :
    ∃ H', Settled e root base (H ++ H') (w.release e n) ∧ (w.release e n).stack = below := by
  have hnodup := Node.nodup_ids_of_mem hroot hn
  have hflags : ∀ m ∈ n.nodes, m.hooks.close.KeepsFlags e.tree := fun m hm =>
    (ho m (Node.mem_nodes_trans hn hm)).hooks.close.keepsFlags
  have hentered : ∀ d ∈ n.nodes, d.id ∈ w.stack → d ∈ root.nodes ∧ Entered d.id H := by
    intro d hd hmem
    have hroot := Node.mem_nodes_trans hn hd
    exact ⟨hroot, hw.entered_of_mem_stack hbase (Node.id_mem_ids hroot) hmem⟩
  have hself : n.id ∈ w.stack := by simp [hstack]
  have hopen : w.isOpen e n.id = true :=
    (hw.open_iff n.id (hentered n n.mem_nodes_self hself).2).2 hself
  have hafter := Traversal.stack_release (e := e) hstack hnot hbelow
  have hiff : ∀ i, Entered i H →
      ((w.release e n).isOpen e i = true ↔ i ∈ (w.release e n).stack) := by
    intro i hi
    rw [hafter]
    apply Traversal.isOpen_release_iff hnodup hflags hopen hstack habove hnot hbelow
    exact hw.open_iff i hi
  obtain ⟨ns, hcloses, -, hns⟩ := Traversal.release_frees hnodup hflags w hopen
  have hmem : ∀ d ∈ ns, d ∈ root.nodes ∧ Entered d.id H := by
    intro d hd
    apply hentered d (hns d hd).1
    rcases (hns d hd).2 with rfl | ⟨hon, -⟩
    · exact hself
    · exact hon
  obtain ⟨H', hsettled⟩ := hw.closes ho hcloses hmem hiff
  exact ⟨H', hsettled, hafter⟩

theorem exit (hroot : root.ids.Nodup) (hw : Settled e root base H w) (hn : n ∈ root.nodes)
    (hk : n.Standard e.tree) (hentered : Entered n.id H)
    (hoff : s ≠ .running → ∀ i ∈ n.ids, i ∉ w.stack) :
    Settled e root base (H ++ told e n .exit (some s) w.board) (w.exit e n s) := by
  have hothers : KeepsOthers e n.id w (w.exit e n s) := .exit hk.hooks.exit
  have hopen (i : NodeId) : (w.exit e n s).isOpen e i = w.isOpen e i :=
    Traversal.isOpen_exit hk.hooks.exit.keepsFlags i
  refine ⟨hw.toTracks.exit (Node.id_mem_ids hn) hk.hooks.exit.keepsFlags, ?_, ?_, ?_,
    prompt_append hw.prompt ⟨.of_phase (by simp) (by simp), trivial⟩, ?_⟩
  · intro key hkey
    exact (hothers.ofTree key hkey).trans (hw.ofTree key hkey)
  · intro i hi key hkey
    rw [entered_append, not_or] at hi
    have hne : i ≠ n.id := fun heq => hi.1 (heq ▸ hentered)
    rw [hothers.ofNode key hkey i hne]
    exact hw.ofNode i hi.1 key hkey
  · intro i hi
    rw [entered_append, entered_told] at hi
    rw [hopen, Traversal.stack_exit]
    exact hw.open_iff i (hi.resolve_right (by simp))
  · refine hw.clean.append_clean ⟨?_, trivial⟩
    intro _ hstatus m hm hid i hi
    obtain rfl : m = n := Node.eq_of_id_eq hroot hm hn hid
    have hs : s ≠ .running := fun heq => hstatus (by rw [heq])
    change w.isOpen e i = true ↔ _
    by_cases hin : Entered i H
    · simp [hw.open_iff i hin, hoff hs i hi, hin]
    · simp [hw.isOpen_of_not_entered hin, hin]

/-- A node that finishes is taken off the stack together with what lies above it. -/
theorem finish (hroot : root.ids.Nodup) (ho : root.Orderly e.tree)
    (hbase : ∀ i ∈ root.ids, i ∉ base.stack) (hw : Settled e root base H w) (hn : n ∈ root.nodes)
    (hs : s ≠ .running) {above below : List NodeId} (hstack : w.stack = above ++ n.id :: below)
    (habove : above ⊆ n.ids) (hnot : n.id ∉ above) (hbelow : ∀ i ∈ n.ids, i ∉ below) :
    ∃ H', Settled e root base (H ++ H') (w.finish e n s) ∧ (w.finish e n s).stack = below := by
  have hself := Node.id_mem_ids n.mem_nodes_self
  have hentered : Entered n.id H :=
    hw.entered_of_mem_stack hbase (Node.id_mem_ids hn) (by simp [hstack])
  obtain ⟨H₁, hreleased, hafter⟩ := hw.release hroot ho hbase hn hstack habove hnot hbelow
  have hexit := hreleased.exit (s := s) hroot hn (ho n hn) (by simp [hentered])
    fun _ i hi => by rw [hafter]; exact hbelow i hi
  rw [List.append_assoc] at hexit
  rw [Traversal.finish, if_neg hs]
  exact ⟨_, hexit, hafter⟩

end Settled

/-! ## Turns -/

/-- What a turn of a node does to a settled state. -/
def Settles (e : Setting σ) (fuel : Nat) (root : Node σ) (base : Traversal σ) (n : Node σ) :
    Prop :=
  ∀ {H : List Entry} {w w' : Traversal σ} {s : Status}, Settled e root base H w →
    (∀ i ∈ n.ids, i ∉ w.stack) → n.execute e fuel w = some (s, w') →
      ∃ H', Settled e root base (H ++ H') w' ∧ (s ≠ .running → w'.stack = w.stack) ∧
        (s = .running → RunsDown n w w')

/-- The runs of the nodes a node holds keep the stack, but for the last one if it is running. -/
theorem Settled.course (ih : ∀ c ∈ n.kids, Settles e fuel root base c) (hn : n ∈ root.nodes)
    {rs : List (Node σ × Status)}
    (hcourse : StandardCourse e n.id (Node.execute e fuel) n.kids w rs w')
    (hw : Settled e root base H w) (hentered : Entered n.id H)
    (hfree : ∀ c ∈ n.kids, ∀ i ∈ c.ids, i ∉ w.stack) :
    ∃ H', Settled e root base (H ++ H') w' ∧ (¬EndsRunning rs → w'.stack = w.stack) ∧
      (EndsRunning rs → ∃ c ∈ n.kids, RunsDown c w w') := by
  induction hcourse generalizing H with
  | done hq =>
      obtain ⟨H', hsettled⟩ := hw.quiet hn hentered hq
      exact ⟨H', hsettled, fun _ => hq.stack, fun ⟨c, hc⟩ => by simp at hc⟩
  | @next w u v w' c s rs hq hc hrun hmore hrest ihrest =>
      obtain ⟨H₁, hu⟩ := hw.quiet hn hentered hq
      obtain ⟨H₂, hv, hstays, hdown⟩ := ih c hc hu (by rw [hq.stack]; exact hfree c hc) hrun
      have hentered' : Entered n.id (H ++ H₁ ++ H₂) := by simp [hentered]
      by_cases hrs : rs = []
      · subst hrs
        cases hrest with
        | done hq' =>
            obtain ⟨H₃, hw'⟩ := hv.quiet hn hentered' hq'
            simp only [List.append_assoc] at hw'
            refine ⟨_, hw', ?_, ?_⟩
            · intro hends
              have hs : s ≠ .running := fun heq => hends (heq ▸ endsRunning_single c)
              rw [hq'.stack, hstays hs, hq.stack]
            · rintro ⟨d, hd⟩
              obtain ⟨rfl, rfl⟩ : c = d ∧ s = .running := by simpa using hd
              have hdown' := (hdown rfl).calm hq'.toCalm
              rw [RunsDown, hq.stack] at hdown'
              exact ⟨c, hc, hdown'⟩
      · have hs : s ≠ .running := by
          rintro rfl
          simpa [Status.isTerminal] using hmore hrs
        have hstack : v.stack = w.stack := (hstays hs).trans hq.stack
        obtain ⟨H₃, hw', hkeeps, hends⟩ := ihrest hv hentered' (by rw [hstack]; exact hfree)
        have hiff : EndsRunning ((c, s) :: rs) ↔ EndsRunning rs := by
          obtain ⟨r, rest, rfl⟩ := List.exists_cons_of_ne_nil hrs
          simp only [EndsRunning, List.getLast?_cons_cons]
        simp only [List.append_assoc] at hw'
        simp only [RunsDown, hstack] at hkeeps hends
        rw [hiff]
        exact ⟨_, hw', hkeeps, hends⟩

/-- When a node has run others, there is nothing above it on the stack but a path that goes on from
it, with no node twice. -/
theorem exists_above {rs : List (Node σ × Status)} (hn : n.ids.Nodup)
    (hu : u.stack = n.id :: w.stack) (hstays : ¬EndsRunning rs → v.stack = u.stack)
    (hdown : EndsRunning rs → ∃ c ∈ n.kids, RunsDown c u v) :
    ∃ above ⊆ n.nodes, (n.id :: above.map Node.id).Nodup ∧
      v.stack = above.map Node.id ++ n.id :: w.stack := by
  by_cases hends : EndsRunning rs
  · obtain ⟨c, hc, p, ℓ, hp, hstack, -⟩ := hdown hends
    obtain ⟨ms, hms, rfl⟩ := hp.exists_nodes
    refine ⟨ms.reverse, ?_, ?_, by rw [hstack, hu, List.map_reverse]⟩
    · exact fun m hm => Node.mem_nodes_of_kid hc (hms (List.mem_reverse.1 hm))
    · rw [List.map_reverse, List.nodup_cons, List.nodup_reverse, List.mem_reverse]
      exact ⟨fun hi => Node.id_notMem_ids_of_kid hn hc (hp.subset_ids hi),
        hp.nodup (Node.nodup_ids_of_kid hn hc)⟩
  · exact ⟨[], by simp, by simp, by rw [hstays hends, hu]; rfl⟩

theorem Traversal.notMem_stack_begin (hn : n.ids.Nodup) (hfree : ∀ i ∈ n.ids, i ∉ w.stack) :
    ∀ c ∈ n.kids, ∀ i ∈ c.ids, i ∉ (w.begin e n).stack := by
  intro c hc i hi hin
  rcases List.mem_cons.1 (stack_begin ▸ hin) with rfl | hin
  · exact Node.id_notMem_ids_of_kid hn hc hi
  · exact hfree i (Node.ids_subset_of_kid hc hi) hin

/-- A turn of an orderly node leaves the stack as it was, or puts a path down to a leaf that is
running on it, by whether the node is running. -/
theorem Node.execute_settles (hroot : root.ids.Nodup) (ho : root.Orderly e.tree)
    (hbase : ∀ i ∈ root.ids, i ∉ base.stack) (hn : n ∈ root.nodes) :
    Settles e fuel root base n := by
  induction n using Node.induct with
  | step n ih =>
      intro H w w' s hw hfree h
      have hnodup := Node.nodup_ids_of_mem hroot hn
      have hk := ho n hn
      have hself := n.id_mem_ids n.mem_nodes_self
      obtain ⟨v, htick, rfl⟩ := Node.execute_eq_some_iff.1 h
      obtain ⟨H₁, hbegin, hentered⟩ := hw.begin hn hk
      obtain ⟨rs, hcourse, hlast⟩ := hk.course htick
      have hkids := Traversal.notMem_stack_begin (e := e) hnodup hfree
      have ihkids : ∀ c ∈ n.kids, Settles e fuel root base c := fun c hc =>
        ih c hc (mem_nodes_trans hn (mem_nodes_of_kid hc c.mem_nodes_self))
      obtain ⟨H₂, hv, hstays, hdown⟩ :=
        hbegin.course ihkids hn hcourse (by simp [hentered]) hkids
      have henteredv : Entered n.id (H ++ H₁ ++ H₂) := by simp [hentered]
      by_cases hs : s = .running
      · subst hs
        have hexit := hv.exit (s := .running) hroot hn hk henteredv fun hne => (hne rfl).elim
        simp only [List.append_assoc] at hexit
        refine ⟨_, hexit, fun hne => (hne rfl).elim, fun _ => ?_⟩
        change RunsDown n w (v.exit e n .running)
        rcases hlast rfl with ⟨l, k, rfl⟩ | hends
        · have hnone : ¬EndsRunning rs := fun hends => by
            obtain ⟨c, hc, -⟩ := hdown hends
            simp [kids] at hc
          exact runsDown_exit_leaf ((hstays hnone).trans Traversal.stack_begin)
        · obtain ⟨c, hc, hruns⟩ := hdown hends
          exact hruns.exit hnodup hc Traversal.stack_begin
      · obtain ⟨above, habove, hdistinct, hstack⟩ :=
          exists_above hnodup Traversal.stack_begin hstays hdown
        have hids : above.map id ⊆ n.ids := List.map_subset id habove
        obtain ⟨H₃, hfinish, hafter⟩ := hv.finish hroot ho hbase hn hs hstack hids
          (List.nodup_cons.1 hdistinct).1 hfree
        simp only [List.append_assoc] at hfinish
        exact ⟨_, hfinish, fun _ => hafter, fun hrunning => (hs hrunning).elim⟩

end BehaviorTrees
