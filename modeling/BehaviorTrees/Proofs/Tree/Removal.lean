import BehaviorTrees.Proofs.Tree.OpenNodes
import BehaviorTrees.Tree.Load

/-!
# Removing a node that is open

The diff of a tick closes nodes of the tree as it is now.  A node that was taken out of the tree
while it was open is not found there any more, and as it is not in the new list either, no later
tick comes back to it.  Its records stay on the blackboard, and when a node of the same id is put
into the tree again, it goes on with them.
-/

namespace BehaviorTrees

variable {σ : Type} {e : Setting σ} {id : NodeId} {b b₀ b₁ : Blackboard}

/-- Two blackboards agree on the records of one node of a tree. -/
def Blackboard.SameRecordsOf (t : TreeId) (id : NodeId) (b b' : Blackboard) : Prop :=
  ∀ key ∈ Key.ofNode, b'.get key (.ofNode t id) = b.get key (.ofNode t id)

theorem Blackboard.SameRecordsOf.flagged_eq {t : TreeId} (h : b.SameRecordsOf t id b₁) :
    b₁.flagged t id = b.flagged t id := by
  rw [flagged, flagged, h Key.isOpen (by simp [Key.ofNode])]

/-- Where a node is entered for the first time, its records are those of the blackboard `b`; if it
is open there, it is ticked next, and if not, it is opened. -/
def GoesOn (t : TreeId) (id : NodeId) (b : Blackboard) (pre : List Entry) (event : Event)
    (board : Blackboard) (post : List Entry) : Prop :=
  event.phase = .enter → event.node = id → ¬Entered id pre →
    b.SameRecordsOf t id board ∧
      ∃ x post', x.Tells (if b.flagged t id then .tick else .opening) id ∧
        post = .call id .enter :: x :: post'

theorem GoesOn.append_right {t : TreeId} {pre post : List Entry} {event : Event}
    (h : GoesOn t id b pre event b₁ post) (later : List Entry) :
    GoesOn t id b pre event b₁ (post ++ later) := by
  intro hphase hnode hpre
  obtain ⟨hsame, x, post', hx, rfl⟩ := h hphase hnode hpre
  exact ⟨hsame, x, post' ++ later, hx, rfl⟩

theorem goesOn_of_phase_ne_enter {t : TreeId} {pre H : List Entry}
    (h : ∀ event ∈ H.filterMap Entry.event?, event.phase ≠ .enter) :
    EachReport (GoesOn t id b) pre H :=
  EachReport.of_forall fun event hevent _ _ _ hphase => (h event hevent hphase).elim

/-! ## A node that is not reached -/

/-- As long as the node was not entered its records are those of the blackboard `b`. -/
structure Untouched (e : Setting σ) (id : NodeId) (b : Blackboard) (w : Traversal σ) : Prop where
  records : ¬Entered id w.history → b.SameRecordsOf e.tree id w.board
  goesOn : EachReport (GoesOn e.tree id b) [] w.history

namespace Untouched

variable {root n : Node σ} {may : NodeId → Prop} {u w : Traversal σ}

theorem of_history (h : Untouched e id b w) {L : List Entry} (hhist : u.history = w.history ++ L)
    (hL : EachReport (GoesOn e.tree id b) w.history L)
    (hrecords : ¬Entered id (w.history ++ L) → ∀ key ∈ Key.ofNode,
      u.remembered e id key = w.remembered e id key) : Untouched e id b u where
  records hnot := by
    rw [hhist] at hnot
    intro key hkey
    have hw := h.records (fun hin => hnot (entered_append.2 (.inl hin))) key hkey
    exact (hrecords hnot key hkey).trans hw
  goesOn := by
    rw [hhist]
    exact h.goesOn.append (fun _ _ _ _ hP => hP.append_right L) hL

theorem begin (h : Untouched e id b w) (hk : n.hooks.KeepRecords e.tree) :
    Untouched e id b (w.begin e n) := by
  obtain ⟨L, htracks, hentrance⟩ :=
    (Tracks.refl e [n.id] w).begin (n := n) (List.mem_singleton_self _) hk
  refine h.of_history htracks.history ?_ ?_
  · obtain ⟨x, later, hx, rfl, hlater⟩ := hentrance.exists_next
    refine ⟨?_, goesOn_of_phase_ne_enter hlater⟩
    rintro - rfl hnot
    have hsame := h.records hnot
    rw [hsame.flagged_eq] at hx
    exact ⟨hsame, x, later, hx, rfl⟩
  · intro hnot key hkey
    have hne : id ≠ n.id := by
      rintro rfl
      exact hnot (entered_append.2 (.inr ((hentrance.entered n.id).2 rfl)))
    have hothers : KeepsOthers e n.id w (w.begin e n) := .begin hk
    exact hothers.ofNode key hkey id hne

theorem quiet (h : Untouched e id b w) (hentered : Entered n.id w.history)
    (hq : Quiet e n.id w u) : Untouched e id b u := by
  obtain ⟨R, hR, hhist⟩ := hq.history
  refine h.of_history hhist (goesOn_of_phase_ne_enter (by simp [events_readings hR])) ?_
  intro hnot key hkey
  refine hq.ofNode key hkey id (.inr ?_)
  rintro rfl
  exact hnot (entered_append.2 (.inl hentered))

theorem close (h : Untouched e id b w) (hk : n.hooks.close.KeepsRecords e.tree)
    (hn : Entered n.id w.history ∨ n.id ≠ id) : Untouched e id b (w.close e n) := by
  refine h.of_history Traversal.history_close
    (goesOn_of_phase_ne_enter (by simp [events_told])) ?_
  intro hnot key hkey
  have hothers : KeepsOthers e n.id w (w.close e n) := .close hk
  refine hothers.ofNode key hkey id ?_
  rintro rfl
  rcases hn with hentered | hne
  · exact hnot (entered_append.2 (.inl hentered))
  · exact hne rfl

theorem exit (h : Untouched e id b w) (hk : n.hooks.exit.KeepsRecords e.tree) {s : Status} :
    Untouched e id b (w.exit e n s) := by
  refine h.of_history Traversal.history_exit
    (goesOn_of_phase_ne_enter (by simp [events_told])) ?_
  intro _ key hkey
  exact (hk ((w.tell e n .exit (some s)).scene e n.info) rfl).ofNode key hkey id

end Untouched

/-- Nodes that keep the records touch those of another node only where it is closed. -/
theorem lasting_untouched {root : Node σ} {may : NodeId → Prop}
    (hk : ∀ m ∈ root.nodes, m.KeepsRecords e.tree) (hid : id ∈ root.ids → ¬may id) :
    Lasting e root may (Quiet e) (Untouched e id b) where
  begin hn h := h.begin (hk _ hn).hooks
  quiet _ hentered hq h := h.quiet hentered hq
  cut _ h := ⟨h.records, h.goesOn⟩
  close hn hmay h := by
    refine h.close (hk _ hn).hooks.close (hmay.imp_right fun hmay => ?_)
    rintro rfl
    exact hid (Node.id_mem_ids hn) hmay
  exit hn h := h.exit (hk _ hn).hooks.exit

namespace Tree

variable {t t' : Tree σ} {root : Node σ} {fuel fuel' : Nat} {traced traced' : Bool}
  {target target' : σ} {r r' : TickResult σ}

/-- The nodes of the tree, of whatever kind, leave its records alone. -/
def KeepsRecords (t : Tree σ) : Prop :=
  ∀ root, t.root = some root → ∀ m ∈ root.nodes, m.KeepsRecords t.id

/-- In a tick the records of a node stay as they are until it is entered, and if it is not, it is not
in the new list either. -/
theorem tick_untouched (hk : t.KeepsRecords)
    (hid : id ∉ t.openNodes b ∨ ∀ root, t.root = some root → id ∉ root.ids)
    (hsame : b₀.SameRecordsOf t.id id b) (htick : t.tick fuel traced target b = .ok r) :
    (¬Entered id r.history → b₀.SameRecordsOf t.id id r.board ∧ id ∉ t.openNodes r.board) ∧
      EachReport (GoesOn t.id id b₀) [] r.history := by
  obtain ⟨root, ht⟩ := exists_root_of_tick htick
  have hmay : id ∈ root.ids → ¬id ∈ t.openNodes b := fun hin =>
    hid.resolve_right fun hgone => hgone root ht hin
  have hlasts := lasting_untouched (e := t.setting traced) (b := b₀) (hk root ht) hmay
  have hstart : Untouched (t.setting traced) id b₀ ({ target, board := b } : Traversal σ) :=
    ⟨fun _ => hsame, trivial⟩
  obtain ⟨w, current, hw, -, hboard, hhist, hcurrent⟩ := tick_kept hlasts (fun hq => hq.toCalm)
    (fun m hm _ _ _ h => Node.KeepsRecords.course (hk root ht m hm) h) ht hstart htick
  rw [hhist]
  refine ⟨fun hnot => ⟨fun key hkey => ?_, fun hin => ?_⟩, hw.holds.goesOn⟩
  · rw [hboard]
    have hoff : (Scope.ofNode t.id id).address ≠ .tree t.id := by
      simp [Scope.ofNode, Scope.address]
    have hget := get_keepRecord (t.setting traced) current w key hoff
    exact hget.trans (hw.holds.records hnot key hkey)
  · rw [hboard, openNodes_keepRecord] at hin
    exact hnot (hcurrent id hin)

/-- Ticks in which the node `id` is not entered.  In between the tree may get another root or be
loaded, if only it keeps its own id. -/
inductive Away (id : NodeId) (t : Tree σ) (b : Blackboard) : Tree σ → Blackboard → Prop
  | nil : Away id t b t b
  | tick {t' : Tree σ} {b' : Blackboard} {fuel : Nat} {traced : Bool} {target : σ}
      {r : TickResult σ} (h : Away id t b t' b') (hk : t'.KeepsRecords)
      (htick : t'.tick fuel traced target b' = .ok r) (hnot : ¬Entered id r.history) :
      Away id t b t' r.board
  | setRoot {t' : Tree σ} {b' : Blackboard} (h : Away id t b t' b') (root : Node σ) :
      Away id t b { t' with root := some root } b'
  | load {t' t'' : Tree σ} {b' : Blackboard} (h : Away id t b t' b') {d : TreeRecord}
      {names : Catalog σ} (hload : t'.load d names = .ok t'') (hid : t''.id = t'.id) :
      Away id t b t'' b'

theorem Away.id_eq (h : Away id t b t' b₁) : t'.id = t.id := by
  induction h with
  | nil => rfl
  | tick _ _ _ _ ih => exact ih
  | setRoot _ _ ih => exact ih
  | load _ _ hid ih => exact hid.trans ih

/-- A node that is neither in the stored list nor entered keeps its records. -/
theorem Away.sameRecordsOf (h : Away id t b t' b₁) (hsame : b₀.SameRecordsOf t.id id b)
    (hid : id ∉ t.openNodes b) :
    b₀.SameRecordsOf t'.id id b₁ ∧ id ∉ t'.openNodes b₁ := by
  induction h with
  | nil => exact ⟨hsame, hid⟩
  | tick _ hk htick hnot ih => exact (tick_untouched hk (.inl ih.2) ih.1 htick).1 hnot
  | setRoot _ _ ih => exact ih
  | load _ _ hid ih =>
      rw [openNodes, hid]
      exact ih

/-- A tick was made on a tree that has no node `id`, and after it there may have been others, on
other roots, that did not enter such a node either.  When it is entered at last, its records are
those that it had before the removal, and it is opened only if it was closed then. -/
theorem opens_after_removal_iff (hk : t.KeepsRecords)
    (hgone : ∀ root, t.root = some root → id ∉ root.ids)
    (htick : t.tick fuel traced target b = .ok r) (haway : Away id t r.board t' b₁)
    (hk' : t'.KeepsRecords) (htick' : t'.tick fuel' traced' target' b₁ = .ok r')
    {pre post : List Entry} {event : Event} {board : Blackboard}
    (henter : r'.history = pre ++ .report event board :: post) (hphase : event.phase = .enter)
    (hnode : event.node = id) (hfirst : ¬Entered id pre) :
    b.SameRecordsOf t.id id board ∧
      ((∃ x post', x.Tells .opening id ∧ post = .call id .enter :: x :: post') ↔
        b.flagged t.id id = false) ∧
      ((∃ x post', x.Tells .tick id ∧ post = .call id .enter :: x :: post') ↔
        b.flagged t.id id = true) := by
  have hsame : b.SameRecordsOf t.id id b := fun _ _ => rfl
  -- The first tick drops the node from the stored list, which alone could have closed it later.
  obtain ⟨hremoved, -⟩ := tick_untouched hk (.inr hgone) hsame htick
  obtain ⟨root, ht⟩ := exists_root_of_tick htick
  obtain ⟨hstays, hlist⟩ := hremoved fun hin => hgone root ht (mem_ids_of_entered ht htick hin)
  obtain ⟨hback, hnot⟩ := haway.sameRecordsOf hstays hlist
  have hgoes := (tick_untouched hk' (.inl hnot) hback htick').2
  rw [henter] at hgoes
  obtain ⟨hrecords, x, post', hx, rfl⟩ := hgoes.report hphase hnode (by simpa using hfirst)
  rw [haway.id_eq] at hrecords hx
  have hnext : ∀ phase, (∃ y later, Entry.Tells phase id y ∧
      Entry.call id .enter :: x :: post' = .call id .enter :: y :: later) ↔ x.Tells phase id := by
    intro phase
    constructor
    · rintro ⟨y, later, hy, heq⟩
      obtain ⟨rfl, -⟩ : x = y ∧ post' = later := by simpa using heq
      exact hy
    · exact fun h => ⟨x, post', h, rfl⟩
  obtain ⟨event', board', rfl, hphase', hnode'⟩ := hx
  refine ⟨hrecords, ?_, ?_⟩
  all_goals
    rw [hnext]
    cases hflag : b.flagged t.id id <;> simp_all [Entry.Tells]

/-! ## A round that is interrupted -/

def round : Node Unit :=
  .composite { id := "m", title := "MemSequence" } .memSequence
    [.leaf { id := "a", title := "Succeeder" } .succeeder,
      .leaf { id := "b", title := "Runner" } .runner]

def interlude : Node Unit := .leaf { id := "z", title := "Succeeder" } .succeeder

/-- The round was taken out while it was open.  When it is put back it is not opened, and goes on
with its second child. -/
theorem removed_node_goes_on :
    ∃ r r₁ r₂, (ofRoot round).tick 0 false () ∅ = .ok r ∧ r.board.flagged "t" "m" = true ∧
      { ofRoot round with root := some interlude }.tick 0 false () r.board = .ok r₁ ∧
      round.ids.Nodup ∧ interlude.ids.Nodup ∧ "m" ∉ interlude.ids ∧
      (ofRoot round).tick 0 false () r₁.board = .ok r₂ ∧
      r₂.events.map (fun x => (x.node, x.phase)) =
        [("m", .enter), ("m", .tick), ("b", .enter), ("b", .tick), ("b", .exit),
          ("m", .exit)] := by
  obtain ⟨r, hr, hflag, r₁, hr₁, r₂, hr₂, hevents⟩ :
      ∃ r ∈ ((ofRoot round).tick 0 false () ∅).toOption, r.board.flagged "t" "m" = true ∧
        ∃ r₁ ∈ ((ofRoot interlude).tick 0 false () r.board).toOption,
          ∃ r₂ ∈ ((ofRoot round).tick 0 false () r₁.board).toOption,
            r₂.events.map (fun x => (x.node, x.phase)) =
              [("m", .enter), ("m", .tick), ("b", .enter), ("b", .tick), ("b", .exit),
                ("m", .exit)] := by
    decide +kernel
  exact ⟨r, r₁, r₂, tick_eq_ok_of_mem_toOption hr, hflag, tick_eq_ok_of_mem_toOption hr₁,
    by decide, by decide, by decide, tick_eq_ok_of_mem_toOption hr₂, hevents⟩

theorem round_keepsRecords : (ofRoot round).KeepsRecords := by
  rintro _ ⟨⟩ m hm
  apply Node.Standard.keepsRecords
  simp only [round, Node.nodes, Node.nodesOf, List.mem_cons, List.mem_append, List.not_mem_nil,
    or_false] at hm
  rcases hm with rfl | rfl | rfl <;> trivial

theorem interlude_keepsRecords : (ofRoot interlude).KeepsRecords := by
  rintro _ ⟨⟩ m hm
  obtain rfl := List.mem_singleton.1 hm
  exact Node.Standard.keepsRecords trivial

theorem exists_report_of_head? {H : List Entry} {event : Event}
    (h : event ∈ H.head?.bind Entry.event?) : ∃ board post, H = .report event board :: post := by
  match H, h with
  | .report event' board :: post, h =>
      obtain rfl : event' = event := Option.some.inj h
      exact ⟨board, post, rfl⟩

theorem opens_after_removal_iff_round :
    ∃ r r₁ r₂ event board post, (ofRoot round).tick 0 false () ∅ = .ok r ∧
      (ofRoot interlude).tick 0 false () r.board = .ok r₁ ∧
      (ofRoot round).tick 0 false () r₁.board = .ok r₂ ∧
      r₂.history = .report event board :: post ∧ event.phase = .enter ∧ event.node = "m" ∧
      r.board.flagged "t" "m" = true ∧
      ¬∃ x post', x.Tells .opening "m" ∧ post = .call "m" .enter :: x :: post' := by
  have hgone : ∀ root, (ofRoot interlude).root = some root → "m" ∉ root.ids := by
    rintro _ ⟨⟩
    decide
  obtain ⟨r, hr, hflag, r₁, hr₁, r₂, hr₂, event, hevent, hphase, hnode⟩ :
      ∃ r ∈ ((ofRoot round).tick 0 false () ∅).toOption, r.board.flagged "t" "m" = true ∧
        ∃ r₁ ∈ ((ofRoot interlude).tick 0 false () r.board).toOption,
          ∃ r₂ ∈ ((ofRoot round).tick 0 false () r₁.board).toOption,
            ∃ event ∈ r₂.history.head?.bind Entry.event?,
              event.phase = .enter ∧ event.node = "m" := by
    decide +kernel
  obtain ⟨board, post, hhist⟩ := exists_report_of_head? hevent
  have haway : Away "m" (ofRoot interlude) r₁.board (ofRoot round) r₁.board := .setRoot .nil round
  have htick := tick_eq_ok_of_mem_toOption hr₁
  have hback := tick_eq_ok_of_mem_toOption hr₂
  obtain ⟨-, hopens, -⟩ := opens_after_removal_iff interlude_keepsRecords hgone htick haway
    round_keepsRecords hback (hhist.trans (List.nil_append _).symm) hphase hnode
    (not_entered_nil "m")
  refine ⟨r, r₁, r₂, event, board, post, tick_eq_ok_of_mem_toOption hr, htick, hback, hhist,
    hphase, hnode, hflag, fun hopening => ?_⟩
  have hclosed : r.board.flagged "t" "m" = false := hopens.1 hopening
  simp [hflag] at hclosed

end Tree
end BehaviorTrees
