import BehaviorTrees.Proofs.Execution.Settled

/-!
# The shape of a turn

A `Turn` says what a turn of a node reports: that it is entered, that it is opened if it was closed,
that it is ticked, then the turns of the nodes it runs, one after the other, then, if it is not
running, that what it left open is closed and that it is closed itself, and at last that it is left.
Every turn of an orderly node is of this shape.
-/

namespace BehaviorTrees

variable {σ : Type} {e : Setting σ} {fuel : Nat} {root n m : Node σ} {base u v w w' : Traversal σ}
  {H : List Entry} {s : Status} {E E' : List Event}

/-! ## Reports and calls -/

/-- Every report is immediately followed by the call of the hook of the same name, and no hook is
called without a report. -/
inductive Paired : List Entry → Prop
  | nil : Paired []
  | told {event : Event} {b : Blackboard} {H : List Entry} (h : Paired H) :
      Paired (.report event b :: .call event.node event.phase :: H)
  | reading {id : NodeId} {now : Nat} {H : List Entry} (h : Paired H) :
      Paired (.reading id now :: H)

theorem Paired.append (h : Paired H) {H' : List Entry} (h' : Paired H') : Paired (H ++ H') := by
  induction h with
  | nil => exact h'
  | told _ ih => exact .told ih
  | reading _ ih => exact .reading ih

theorem paired_readings {id : NodeId} {R : List Entry}
    (hR : ∀ x ∈ R, ∃ now, x = Entry.reading id now) : Paired R := by
  induction R with
  | nil => exact .nil
  | cons x R ih =>
      obtain ⟨now, rfl⟩ := hR x List.mem_cons_self
      exact .reading (ih fun y hy => hR y (List.mem_cons_of_mem _ hy))

theorem Paired.callsAsTold (h : Paired H) : CallsAsTold H := by
  induction h with
  | nil => rfl
  | told _ ih => exact congrArg _ ih
  | reading _ ih => exact ih

/-- From one state to another the events listed are reported, each with a call of its hook, and as
many nodes are counted as events tell of a node that is entered. -/
structure Writes (w w' : Traversal σ) (E : List Event) : Prop where
  history : ∃ L, Paired L ∧ w'.history = w.history ++ L ∧ L.filterMap Entry.event? = E
  count : w'.count = w.count + (Event.ofPhase .enter E).length

namespace Writes

theorem refl (w : Traversal σ) : Writes w w [] :=
  ⟨⟨[], .nil, by simp, rfl⟩, rfl⟩

theorem trans (h : Writes u v E) (h' : Writes v w E') : Writes u w (E ++ E') := by
  obtain ⟨⟨L, hL, hv, rfl⟩, hcount⟩ := h
  obtain ⟨⟨L', hL', hw, rfl⟩, hcount'⟩ := h'
  refine ⟨⟨L ++ L', hL.append hL', ?_, List.filterMap_append⟩, ?_⟩
  · rw [hw, hv, List.append_assoc]
  · rw [hcount', hcount, Event.ofPhase, Event.ofPhase, Event.ofPhase, List.filter_append,
      List.length_append]
    omega

theorem events (h : Writes w w' E) : w'.events = w.events ++ E := by
  obtain ⟨L, -, hw, rfl⟩ := h.history
  exact events_eq_of_history hw

theorem of_calm {id : NodeId} (h : Calm id w w') : Writes w w' [] := by
  obtain ⟨R, hR, hw⟩ := h.history
  exact ⟨⟨R, paired_readings hR, hw, events_readings hR⟩, h.count⟩

theorem of_told {phase : Phase} {status : Option Status} {b : Blackboard}
    (hhist : w'.history = w.history ++ told e n phase status b)
    (hcount : w'.count = w.count + if phase = .enter then 1 else 0) :
    Writes w w' [⟨e.tree, n.id, n.name, phase, status⟩] := by
  refine ⟨⟨_, .told .nil, hhist, rfl⟩, ?_⟩
  rw [hcount, Event.ofPhase]
  by_cases hphase : phase = .enter <;> simp [hphase]

end Writes

/-! ## What a turn reports -/

/-- What a node reports before it runs others. -/
def beginning (e : Setting σ) (n : Node σ) (w : Traversal σ) : List Event :=
  ⟨e.tree, n.id, n.name, .enter, none⟩ ::
    ((if w.isOpen e n.id then [] else [⟨e.tree, n.id, n.name, .opening, none⟩]) ++
      [⟨e.tree, n.id, n.name, .tick, none⟩])

/-- What a node reports afterwards, where it has left others above itself on the stack. -/
def ending (e : Setting σ) (n : Node σ) (s : Status) (above : List (Node σ)) : List Event :=
  (if s = .running then [] else closings e.tree (above ++ [n])) ++
    [⟨e.tree, n.id, n.name, .exit, some s⟩]

mutual

/-- A turn of a node, with its answer and all that is reported in it. -/
inductive Turn (e : Setting σ) (fuel : Nat) :
    Node σ → Traversal σ → Status → Traversal σ → List Event → Prop
  | intro {n : Node σ} {w v : Traversal σ} {s : Status} {above : List (Node σ)} {E : List Event}
      (htick : n.tickWith e fuel (n.kids.map (Node.execute e fuel)) (w.begin e n) = some (s, v))
      (hkids : Turns e fuel n (w.begin e n) v E) (habove : above ⊆ n.nodes)
      (hstack : v.stack = above.map Node.id ++ n.id :: w.stack) :
      Turn e fuel n w s (v.finish e n s) (beginning e n w ++ E ++ ending e n s above)

/-- Turns of the nodes a node holds, in the order in which they are taken; in between nothing
happens but that the clock is read. -/
inductive Turns (e : Setting σ) (fuel : Nat) :
    Node σ → Traversal σ → Traversal σ → List Event → Prop
  | done {n : Node σ} {w w' : Traversal σ} (hcalm : Calm n.id w w') : Turns e fuel n w w' []
  | next {n c : Node σ} {w u v w' : Traversal σ} {s : Status} {E E' : List Event}
      (hcalm : Calm n.id w u) (hc : c ∈ n.kids) (hturn : Turn e fuel c u s v E)
      (hrest : Turns e fuel n v w' E') : Turns e fuel n w w' (E ++ E')

end

/-! ## The steps of a turn -/

namespace Writes

theorem begin (hk : n.hooks.KeepRecords e.tree) : Writes w (w.begin e n) (beginning e n w) := by
  have henter : Writes w (w.enter e n) [⟨e.tree, n.id, n.name, .enter, none⟩] :=
    .of_told Traversal.history_enter rfl
  have htick (u : Traversal σ) :
      Writes u (u.tell e n .tick none) [⟨e.tree, n.id, n.name, .tick, none⟩] :=
    .of_told history_tick rfl
  have hflag := Traversal.isOpen_enter (w := w) hk.enter.keepsFlags n.id
  rw [Traversal.begin, beginning]
  simp only [hflag]
  split
  · exact henter.trans (htick _)
  · have hopening : Writes (w.enter e n)
        (((w.enter e n).remember e n.id Key.isOpen (.bool true)).tell e n .opening none)
        [⟨e.tree, n.id, n.name, .opening, none⟩] :=
      .of_told (Traversal.history_tell e _ n .opening none) rfl
    have hstart := hopening.trans (.of_calm (Traversal.startUp_calm (w.enter e n) n))
    exact henter.trans (hstart.trans (htick _))

theorem exit : Writes w (w.exit e n s) [⟨e.tree, n.id, n.name, .exit, some s⟩] :=
  .of_told Traversal.history_exit rfl

theorem close : Writes w (w.close e n) (closings e.tree [n]) :=
  .of_told (Traversal.history_close (e := e)) rfl

end Writes

/-- Closes nodes one after the other. -/
def Traversal.closeAll (e : Setting σ) (ms : List (Node σ)) (w : Traversal σ) : Traversal σ :=
  ms.foldl (fun w m => w.close e m) w

theorem Traversal.closeAll_append (ms ms' : List (Node σ)) :
    w.closeAll e (ms ++ ms') = (w.closeAll e ms).closeAll e ms' :=
  List.foldl_append

theorem Writes.closeAll (ms : List (Node σ)) :
    Writes w (w.closeAll e ms) (closings e.tree ms) := by
  induction ms generalizing w with
  | nil => exact .refl w
  | cons m ms ih => exact Writes.close.trans ih

/-- Nodes that are not on the stack are closed in the order in which they are visited, as far as
they are open. -/
theorem sweep_eq_closeAll (hk : ∀ m ∈ root.nodes, m.hooks.close.KeepsFlags e.tree)
    {free : Node σ → Traversal σ → Traversal σ}
    (hfree : ∀ m w, m.id ∉ w.stack → free m w = w.close e m) {l : List NodeId} (hl : l.Nodup)
    (hmem : ∀ i ∈ l, w.isOpen e i = true → i ∈ root.ids ∧ i ∉ w.stack) :
    ∃ ms ⊆ root.nodes, ms.map Node.id = l.filter (fun i => w.isOpen e i) ∧
      sweep e root free l w = w.closeAll e ms := by
  induction l generalizing w with
  | nil => exact ⟨[], by simp, rfl, rfl⟩
  | cons i l ih =>
      obtain ⟨hi, hnodup⟩ := List.nodup_cons.1 hl
      have hrest := fun j hj => hmem j (List.mem_cons_of_mem i hj)
      rw [sweep_cons, visit]
      by_cases hopen : w.isOpen e i = true
      · obtain ⟨hiroot, hstack⟩ := hmem i List.mem_cons_self hopen
        obtain ⟨m, hfind⟩ := Option.isSome_iff_exists.1 (Node.find?_isSome hiroot)
        obtain ⟨hm, rfl⟩ := Node.mem_of_find?_eq_some hfind
        have hothers : ∀ j ∈ l, (w.close e m).isOpen e j = w.isOpen e j := by
          intro j hj
          rw [Traversal.isOpen_close (hk m hm), if_neg fun heq : j = m.id => hi (heq ▸ hj)]
        obtain ⟨ms, hms, hids, hclosed⟩ := ih (w := w.close e m) hnodup fun j hj hjopen =>
          hrest j hj (hothers j hj ▸ hjopen)
        refine ⟨m :: ms, List.cons_subset.2 ⟨hm, hms⟩, ?_, ?_⟩
        · rw [List.map_cons, hids, List.filter_cons, if_pos hopen]
          exact congrArg _ (List.filter_congr hothers)
        · rw [if_pos hopen, hfind]
          simp only [hfree m w hstack]
          exact hclosed
      · obtain ⟨ms, hms, hids, hclosed⟩ := ih hnodup hrest
        refine ⟨ms, hms, ?_, ?_⟩
        · rw [hids, List.filter_cons, if_neg hopen]
        · rw [if_neg hopen]
          exact hclosed

section

variable (hroot : root.ids.Nodup) (ho : root.Orderly e.tree)
  (hbase : ∀ i ∈ root.ids, i ∉ base.stack)

include hroot ho hbase

/-- A release closes what lies above the node on the stack, from the top on, and then the node. -/
theorem Settled.release_eq_closeAll (hw : Settled e root base H v) (hn : n ∈ root.nodes)
    {above : List (Node σ)} {below : List NodeId}
    (hstack : v.stack = above.map Node.id ++ n.id :: below) (habove : above ⊆ n.nodes)
    (hnodup : (n.id :: above.map Node.id).Nodup) (hbelow : ∀ i ∈ n.ids, i ∉ below) :
    v.release e n = ({ v with stack := below } : Traversal σ).closeAll e (above ++ [n]) := by
  obtain ⟨hnot, hdistinct⟩ := List.nodup_cons.1 hnodup
  obtain ⟨levels, hrelease⟩ := Traversal.release_of_stack (e := e) hstack hnot
  have hids : ∀ i ∈ above.map Node.id, i ∈ n.ids := by
    intro i hi
    obtain ⟨m, hm, rfl⟩ := List.mem_map.1 hi
    exact Node.id_mem_ids (habove hm)
  have hopen : ∀ i ∈ above.map Node.id, v.isOpen e i = true := by
    intro i hi
    have hon : i ∈ v.stack := by simp [hstack, hi]
    have hiroot := Node.ids_subset hn (hids i hi)
    exact (hw.open_iff i (hw.entered_of_mem_stack hbase hiroot hon)).2 hon
  have hkeep : ∀ m ∈ n.nodes, m.hooks.close.KeepsFlags e.tree :=
    fun m hm => (ho m (Node.mem_nodes_trans hn hm)).hooks.close.keepsFlags
  have hwithin : ∀ (m : Node σ) (u : Traversal σ), m.id ∉ u.stack →
      u.releaseWithin e levels m = u.close e m :=
    fun _ _ hm => Traversal.releaseWithin_of_notMem hm
  obtain ⟨ms, hms, hmids, hsweep⟩ := sweep_eq_closeAll (w := { v with stack := below }) hkeep
    hwithin hdistinct fun i hi _ => ⟨hids i hi, hbelow i (hids i hi)⟩
  obtain rfl : ms = above := by
    refine Node.eq_of_map_id_eq (Node.nodup_ids_of_mem hroot hn) hms habove (hmids.trans ?_)
    exact List.filter_eq_self.2 hopen
  rw [hrelease, Traversal.closeAll_append]
  exact congrArg (Traversal.close e n) hsweep

/-- When a node has ticked there is nothing above it on the stack but nodes of its own tree. -/
theorem Settled.exists_above_of_tick (hw : Settled e root base H w) (hn : n ∈ root.nodes)
    (hfree : ∀ i ∈ n.ids, i ∉ w.stack)
    (htick : n.tickWith e fuel (n.kids.map (Node.execute e fuel)) (w.begin e n) = some (s, v)) :
    ∃ H' above, Settled e root base (H ++ H') v ∧ above ⊆ n.nodes ∧
      (n.id :: above.map Node.id).Nodup ∧ v.stack = above.map Node.id ++ n.id :: w.stack := by
  have hnodup := Node.nodup_ids_of_mem hroot hn
  obtain ⟨H₁, hbegin, hentered⟩ := hw.begin hn (ho n hn)
  obtain ⟨rs, hcourse, -⟩ := (ho n hn).course htick
  have hsettles : ∀ c ∈ n.kids, Settles e fuel root base c := fun c hc =>
    Node.execute_settles hroot ho hbase
      (Node.mem_nodes_trans hn (Node.mem_nodes_of_kid hc c.mem_nodes_self))
  obtain ⟨H₂, hv, hstays, hdown⟩ := hbegin.course hsettles hn hcourse (by simp [hentered])
    (Traversal.notMem_stack_begin hnodup hfree)
  obtain ⟨above, habove, hdistinct, hstack⟩ :=
    exists_above hnodup Traversal.stack_begin hstays hdown
  rw [List.append_assoc] at hv
  exact ⟨_, above, hv, habove, hdistinct, hstack⟩

theorem Settled.finish_writes (hw : Settled e root base H v) (hn : n ∈ root.nodes)
    {above : List (Node σ)} {below : List NodeId}
    (hstack : v.stack = above.map Node.id ++ n.id :: below) (habove : above ⊆ n.nodes)
    (hnodup : (n.id :: above.map Node.id).Nodup) (hbelow : ∀ i ∈ n.ids, i ∉ below) :
    Writes v (v.finish e n s) (ending e n s above) := by
  rw [Traversal.finish, ending]
  split
  · exact (Writes.refl v).trans .exit
  · rw [hw.release_eq_closeAll hroot ho hbase hn hstack habove hnodup hbelow]
    have hcut : Writes v { v with stack := below } [] :=
      ⟨⟨[], .nil, (List.append_nil _).symm, rfl⟩, rfl⟩
    exact (hcut.trans (.closeAll _)).trans .exit

end

/-! ## Turns of orderly nodes -/

/-- From a settled state every turn of the node is of the shape described. -/
def TakesTurns (e : Setting σ) (fuel : Nat) (root : Node σ) (base : Traversal σ) (n : Node σ) :
    Prop :=
  ∀ {H : List Entry} {w w' : Traversal σ} {s : Status}, Settled e root base H w →
    (∀ i ∈ n.ids, i ∉ w.stack) → n.execute e fuel w = some (s, w') →
      ∃ E, Turn e fuel n w s w' E ∧ Writes w w' E

theorem Settled.turns (hsettles : ∀ c ∈ n.kids, Settles e fuel root base c)
    (ih : ∀ c ∈ n.kids, TakesTurns e fuel root base c) (hn : n ∈ root.nodes)
    {rs : List (Node σ × Status)}
    (hcourse : StandardCourse e n.id (Node.execute e fuel) n.kids w rs w')
    (hw : Settled e root base H w) (hentered : Entered n.id H)
    (hfree : rs ≠ [] → ∀ c ∈ n.kids, ∀ i ∈ c.ids, i ∉ w.stack) :
    ∃ E, Turns e fuel n w w' E ∧ Writes w w' E := by
  induction hcourse generalizing H with
  | done hq => exact ⟨[], .done hq.toCalm, .of_calm hq.toCalm⟩
  | @next w u v w' c s rs hq hc hrun hmore hrest ihrest =>
      obtain ⟨H₁, hu⟩ := hw.quiet hn hentered hq
      have hufree : ∀ c ∈ n.kids, ∀ i ∈ c.ids, i ∉ u.stack := by
        rw [hq.stack]
        exact hfree (by simp)
      obtain ⟨E, hturn, hwrites⟩ := ih c hc hu (hufree c hc) hrun
      obtain ⟨H₂, hv, hstays, -⟩ := hsettles c hc hu (hufree c hc) hrun
      -- there is another run only after one that finished and left the stack as it was
      have hvfree : rs ≠ [] → ∀ c ∈ n.kids, ∀ i ∈ c.ids, i ∉ v.stack := by
        intro hrs
        have hs : s ≠ .running := by
          rintro rfl
          simpa [Status.isTerminal] using hmore hrs
        rw [hstays hs]
        exact hufree
      obtain ⟨E', hturns, hwrites'⟩ := ihrest hv (by simp [hentered]) hvfree
      exact ⟨E ++ E', .next hq.toCalm hc hturn hturns,
        (Writes.of_calm hq.toCalm).trans (hwrites.trans hwrites')⟩

theorem Node.execute_takesTurns (hroot : root.ids.Nodup) (ho : root.Orderly e.tree)
    (hbase : ∀ i ∈ root.ids, i ∉ base.stack) (hn : n ∈ root.nodes) :
    TakesTurns e fuel root base n := by
  induction n using Node.induct with
  | step n ih =>
      intro H w w' s hw hfree h
      have hnodup := Node.nodup_ids_of_mem hroot hn
      have hk := ho n hn
      have hkid : ∀ c ∈ n.kids, c ∈ root.nodes := fun c hc =>
        mem_nodes_trans hn (mem_nodes_of_kid hc c.mem_nodes_self)
      have hsettles : ∀ c ∈ n.kids, Settles e fuel root base c := fun c hc =>
        execute_settles hroot ho hbase (hkid c hc)
      obtain ⟨v, htick, rfl⟩ := Node.execute_eq_some_iff.1 h
      obtain ⟨H₁, hbegin, hentered⟩ := hw.begin hn hk
      obtain ⟨rs, hcourse, -⟩ := hk.course htick
      have hkids := Traversal.notMem_stack_begin (e := e) hnodup hfree
      obtain ⟨E, hturns, hwrites⟩ := hbegin.turns hsettles (fun c hc => ih c hc (hkid c hc)) hn
        hcourse (by simp [hentered]) fun _ => hkids
      obtain ⟨H₂, above, hv, habove, hdistinct, hstack⟩ :=
        hw.exists_above_of_tick hroot ho hbase hn hfree htick
      have hfinish := hv.finish_writes (s := s) hroot ho hbase hn hstack habove hdistinct hfree
      exact ⟨_, .intro htick hturns habove hstack,
        ((Writes.begin hk.hooks).trans hwrites).trans hfinish⟩

end BehaviorTrees
