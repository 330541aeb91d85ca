import BehaviorTrees.Proofs.Execution.Course
import BehaviorTrees.Proofs.Trace.Chronicle

/-!
# Footprints

How the steps of a node's life show in the history, on the stack and in the records.  A `Footprint`
says how far a state has come from a base: which entries were added, of which nodes they speak, and
that only nodes entered since then were put on the stack.
-/

namespace BehaviorTrees

variable {σ : Type}

/-- What a step of a node's life adds to the history. -/
def told (e : Setting σ) (n : Node σ) (phase : Phase) (status : Option Status) (b : Blackboard) :
    List Entry :=
  [.report ⟨e.tree, n.id, n.name, phase, status⟩ b, .call n.id phase]

theorem entered_told {e : Setting σ} {n : Node σ} {phase : Phase} {status : Option Status}
    {b : Blackboard} {id : NodeId} :
    Entered id (told e n phase status b) ↔ phase = .enter ∧ n.id = id := by
  simp [told]

theorem events_told {e : Setting σ} {n : Node σ} {phase : Phase} {status : Option Status}
    {b : Blackboard} :
    (told e n phase status b).filterMap Entry.event? =
      [⟨e.tree, n.id, n.name, phase, status⟩] := rfl

theorem events_readings {id : NodeId} {R : List Entry}
    (hR : ∀ x ∈ R, ∃ now, x = Entry.reading id now) : R.filterMap Entry.event? = [] := by
  refine List.filterMap_eq_nil_iff.2 fun x hx => ?_
  obtain ⟨now, rfl⟩ := hR x hx
  rfl

theorem not_entered_readings {id i : NodeId} {R : List Entry}
    (hR : ∀ x ∈ R, ∃ now, x = Entry.reading id now) : ¬Entered i R := by
  simp [Entered, events_readings hR]

theorem marks_readings {id : NodeId} {R : List Entry}
    (hR : ∀ x ∈ R, ∃ now, x = Entry.reading id now) (before : NodeId → Bool) :
    marks before R = before := by
  induction R with
  | nil => rfl
  | cons x R ih =>
      obtain ⟨now, rfl⟩ := hR x List.mem_cons_self
      simpa using ih fun y hy => hR y (List.mem_cons_of_mem _ hy)

theorem chronicle_readings {t : TreeId} {id : NodeId} {R : List Entry}
    (hR : ∀ x ∈ R, ∃ now, x = Entry.reading id now) (before : NodeId → Bool) :
    Chronicle t before R := by
  induction R with
  | nil => trivial
  | cons x R ih =>
      obtain ⟨now, rfl⟩ := hR x List.mem_cons_self
      exact ⟨trivial, ih fun y hy => hR y (List.mem_cons_of_mem _ hy)⟩

theorem callsAsTold_readings {id : NodeId} {R : List Entry}
    (hR : ∀ x ∈ R, ∃ now, x = Entry.reading id now) : CallsAsTold R := by
  rw [CallsAsTold, events_readings hR]
  refine List.filterMap_eq_nil_iff.2 fun x hx => ?_
  obtain ⟨now, rfl⟩ := hR x hx
  rfl

/-! ## The steps of a life -/

namespace Traversal

/-- A step of a node's life up to the call of its hook: the step has been reported and the call
noted, and the hook is still to be run. -/
def tell (e : Setting σ) (n : Node σ) (phase : Phase) (status : Option Status)
    (w : Traversal σ) : Traversal σ :=
  (w.report e n phase status).noteCall n.id phase

section

variable (e : Setting σ) (w : Traversal σ) (n : Node σ) (phase : Phase) (status : Option Status)

@[simp] theorem target_tell : (w.tell e n phase status).target = w.target := rfl

@[simp] theorem board_tell : (w.tell e n phase status).board = w.board := rfl

@[simp] theorem stack_tell : (w.tell e n phase status).stack = w.stack := rfl

@[simp] theorem count_tell : (w.tell e n phase status).count = w.count := rfl

theorem history_tell :
    (w.tell e n phase status).history = w.history ++ told e n phase status w.board := by
  simp [history, tell, report, noteCall, told]

theorem events_tell :
    (w.tell e n phase status).events = w.events ++ [⟨e.tree, n.id, n.name, phase, status⟩] := by
  simp [events, history_tell, events_told]

/-- A hook runs after its step was reported and its call noted. -/
theorem perform_report (hook : Hook σ) :
    (w.report e n phase status).perform e n phase hook = (w.tell e n phase status).act e n hook :=
  rfl

/-- When a node opens, its records are begun anew before its hook runs. -/
theorem prepare_report : (w.report e n .opening status).prepare e n =
    ((w.tell e n .opening status).renew e n).act e n n.hooks.opening :=
  rfl

end

variable {e : Setting σ} {n : Node σ} {w : Traversal σ}

theorem enter_eq : w.enter e n =
    (({ w with count := w.count + 1, stack := n.id :: w.stack } : Traversal σ).tell e n .enter
      none).act e n n.hooks.enter :=
  perform_report ..

theorem startUp_eq : w.startUp e n =
    (((w.remember e n.id Key.isOpen (.bool true)).tell e n .opening none).renew e n).act e n
      n.hooks.opening :=
  prepare_report ..

theorem close_eq : w.close e n =
    ((w.remember e n.id Key.isOpen (.bool false)).tell e n .close none).act e n n.hooks.close :=
  perform_report ..

theorem exit_eq {s : Status} :
    w.exit e n s = (w.tell e n .exit (some s)).act e n n.hooks.exit :=
  perform_report ..

theorem history_act {hook : Hook σ} : (w.act e n hook).history = w.history := rfl

theorem history_enter : (w.enter e n).history = w.history ++ told e n .enter none w.board := by
  rw [enter_eq, history_act, history_tell]
  rfl

@[simp] theorem stack_enter : (w.enter e n).stack = n.id :: w.stack := rfl

theorem history_exit {s : Status} :
    (w.exit e n s).history = w.history ++ told e n .exit (some s) w.board := by
  rw [exit_eq, history_act, history_tell]

@[simp] theorem stack_exit {s : Status} : (w.exit e n s).stack = w.stack := rfl

theorem history_close :
    (w.close e n).history =
      w.history ++ told e n .close none (w.remember e n.id Key.isOpen (.bool false)).board := by
  rw [close_eq, history_act, history_tell]
  rfl

@[simp] theorem stack_close : (w.close e n).stack = w.stack := rfl

theorem renew_quiet (w : Traversal σ) (n : Node σ) : Quiet e n.id w (w.renew e n) := by
  have htime : Quiet e n.id w (w.rememberTime e n.id Key.startTime) :=
    (Quiet.readClock w).trans (.remember _ (by decide) _)
  have hchild : Quiet e n.id w (w.remember e n.id Key.runningChild (.ofNat 0)) :=
    .remember w (by decide) _
  have hcount : Quiet e n.id w (w.remember e n.id Key.count (.ofNat 0)) :=
    .remember w (by decide) _
  rcases n with ⟨l, k, cs⟩ | ⟨l, k, c⟩ | ⟨l, k⟩
  · cases k with
    | memSequence => exact hchild
    | memPriority => exact hchild
    | _ => exact .refl e _ w
  · cases k with
    | maxTime m => exact htime
    | repeater m => exact hcount
    | repeatUntilSuccess m => exact hcount
    | repeatUntilFailure m => exact hcount
    | _ => exact .refl e _ w
  · cases k with
    | wait ms => exact htime
    | _ => exact .refl e _ w

/-- A hook that keeps the flags leaves open what is open. -/
theorem isOpen_act {hook : Hook σ} (h : hook.KeepsFlags e.tree) (id : NodeId) :
    (w.act e n hook).isOpen e id = w.isOpen e id :=
  h (w.scene e n.info) rfl id

theorem isOpen_enter (h : n.hooks.enter.KeepsFlags e.tree) (id : NodeId) :
    (w.enter e n).isOpen e id = w.isOpen e id :=
  isOpen_act h id

theorem isOpen_exit {s : Status} (h : n.hooks.exit.KeepsFlags e.tree) (id : NodeId) :
    (w.exit e n s).isOpen e id = w.isOpen e id :=
  isOpen_act h id

theorem isOpen_close (h : n.hooks.close.KeepsFlags e.tree) (id : NodeId) :
    (w.close e n).isOpen e id = if id = n.id then false else w.isOpen e id := by
  rw [close_eq, isOpen_act h]
  exact isOpen_remember e w n.id id false

/-- After the report of its opening a node only prepares itself. -/
theorem startUp_calm (w : Traversal σ) (n : Node σ) :
    Calm n.id ((w.remember e n.id Key.isOpen (.bool true)).tell e n .opening none)
      (w.startUp e n) :=
  (renew_quiet _ n).toCalm.trans (.apply _ _ _)

theorem isOpen_startUp (h : n.hooks.opening.KeepsFlags e.tree) (id : NodeId) :
    (w.startUp e n).isOpen e id = if id = n.id then true else w.isOpen e id := by
  rw [startUp_eq, isOpen_act h, (renew_quiet _ n).isOpen]
  exact isOpen_remember e w n.id id true

/-- What a node does before its tick is run: it is entered, it is opened unless it is open already,
and its tick is called. -/
def begin (e : Setting σ) (n : Node σ) (w : Traversal σ) : Traversal σ :=
  let w := w.enter e n
  (if w.isOpen e n.id then w else w.startUp e n).tell e n .tick none

/-- What a node does after its tick: it is closed unless it is still running, and left. -/
def finish (e : Setting σ) (n : Node σ) (s : Status) (w : Traversal σ) : Traversal σ :=
  (if s = .running then w else w.release e n).exit e n s

@[simp] theorem stack_begin : (w.begin e n).stack = n.id :: w.stack := by
  rw [begin]
  split
  · rfl
  · rw [stack_tell, (startUp_calm _ n).stack]
    rfl

theorem isOpen_begin (h : n.hooks.KeepRecords e.tree) (id : NodeId) :
    (w.begin e n).isOpen e id = if id = n.id then true else w.isOpen e id := by
  have henter (i : NodeId) := isOpen_enter (w := w) h.enter.keepsFlags i
  rw [begin]
  split
  · rename_i hopen
    change (w.enter e n).isOpen e id = _
    by_cases hid : id = n.id
    · rw [if_pos hid, hid, hopen]
    · rw [if_neg hid, henter]
  · change ((w.enter e n).startUp e n).isOpen e id = _
    rw [isOpen_startUp h.opening.keepsFlags, henter]

end Traversal

theorem Node.execute_apply (e : Setting σ) (fuel : Nat) (n : Node σ) (w : Traversal σ) :
    n.execute e fuel w =
      match n.tickWith e fuel (n.kids.map (Node.execute e fuel)) (w.begin e n) with
      | none => none
      | some (s, v) => some (s, v.finish e n s) := by
  rw [Node.execute_eq]
  rfl

theorem Node.execute_eq_none {e : Setting σ} {fuel : Nat} {n : Node σ} {w : Traversal σ}
    (h : n.tickWith e fuel (n.kids.map (Node.execute e fuel)) (w.begin e n) = none) :
    n.execute e fuel w = none := by
  rw [Node.execute_apply, h]

theorem Node.execute_eq_some_iff {e : Setting σ} {fuel : Nat} {n : Node σ} {w w' : Traversal σ}
    {s : Status} :
    n.execute e fuel w = some (s, w') ↔
      ∃ v, n.tickWith e fuel (n.kids.map (Node.execute e fuel)) (w.begin e n) = some (s, v) ∧
        v.finish e n s = w' := by
  rw [Node.execute_apply]
  split
  · rename_i hnone
    simp [hnone]
  · rename_i s₁ v hsome
    rw [hsome]
    constructor
    · intro h
      obtain ⟨rfl, rfl⟩ : s₁ = s ∧ v.finish e n s₁ = w' := by simpa using h
      exact ⟨v, rfl, rfl⟩
    · rintro ⟨v', heq, rfl⟩
      obtain ⟨rfl, rfl⟩ : s₁ = s ∧ v = v' := by simpa using heq
      rfl

/-! ## Records of the other nodes -/

/-- Of the records of the runs none changed but those of the node `id`. -/
structure KeepsOthers (e : Setting σ) (id : NodeId) (w w' : Traversal σ) : Prop where
  ofTree : ∀ key ∈ Key.ofTree,
    w'.board.get key (.ofTree e.tree) = w.board.get key (.ofTree e.tree)
  ofNode : ∀ key ∈ Key.ofNode, ∀ i, i ≠ id → w'.remembered e i key = w.remembered e i key

namespace KeepsOthers

variable {e : Setting σ} {id : NodeId} {n : Node σ} {w : Traversal σ}

theorem trans {u v w : Traversal σ} (h : KeepsOthers e id u v) (h' : KeepsOthers e id v w) :
    KeepsOthers e id u w where
  ofTree key hkey := (h'.ofTree key hkey).trans (h.ofTree key hkey)
  ofNode key hkey i hi := (h'.ofNode key hkey i hi).trans (h.ofNode key hkey i hi)

theorem of_quiet {w' : Traversal σ} (h : Quiet e id w w') : KeepsOthers e id w w' where
  ofTree := h.ofTree
  ofNode key hkey i hi := h.ofNode key hkey i (.inr hi)

theorem act {hook : Hook σ} (h : hook.KeepsRecords e.tree) :
    KeepsOthers e id w (w.act e n hook) where
  ofTree := (h (w.scene e n.info) rfl).ofTree
  ofNode key hkey i _ := (h (w.scene e n.info) rfl).ofNode key hkey i

theorem remember (key : String) (v : Json) : KeepsOthers e id w (w.remember e id key v) where
  ofTree key' _ := by
    simp [Traversal.remember, Blackboard.get_set, Scope.address, Scope.ofTree, Scope.ofNode]
  ofNode key' _ i hi := by
    rw [Traversal.remembered_remember, if_neg]
    exact fun h => hi h.2

theorem tell {phase : Phase} {status : Option Status} :
    KeepsOthers e id w (w.tell e n phase status) :=
  ⟨fun _ _ => rfl, fun _ _ _ _ => rfl⟩

theorem enter (h : n.hooks.enter.KeepsRecords e.tree) : KeepsOthers e id w (w.enter e n) :=
  have hpush : KeepsOthers e id w { w with count := w.count + 1, stack := n.id :: w.stack } :=
    ⟨fun _ _ => rfl, fun _ _ _ _ => rfl⟩
  (hpush.trans tell).trans (act h)

theorem startUp (h : n.hooks.opening.KeepsRecords e.tree) :
    KeepsOthers e n.id w (w.startUp e n) :=
  (((remember _ _).trans tell).trans (of_quiet (Traversal.renew_quiet _ n))).trans (act h)

theorem close (h : n.hooks.close.KeepsRecords e.tree) : KeepsOthers e n.id w (w.close e n) :=
  ((remember _ _).trans tell).trans (act h)

theorem exit {s : Status} (h : n.hooks.exit.KeepsRecords e.tree) :
    KeepsOthers e id w (w.exit e n s) :=
  tell.trans (act h)

theorem begin (h : n.hooks.KeepRecords e.tree) : KeepsOthers e n.id w (w.begin e n) := by
  have henter : KeepsOthers e n.id w (w.enter e n) := enter h.enter
  rw [Traversal.begin]
  split
  · exact henter.trans tell
  · exact (henter.trans (startUp h.opening)).trans tell

end KeepsOthers

/-! ## Entrances -/

/-- What a node tells when it begins its turn on the blackboard `b`. -/
inductive Entrance (e : Setting σ) (n : Node σ) (b : Blackboard) : List Entry → Prop
  | resumes {b' : Blackboard} (hopen : b.flagged e.tree n.id = true) :
      Entrance e n b (told e n .enter none b ++ told e n .tick none b')
  | opens {b' b'' : Blackboard} {R : List Entry} (hclosed : b.flagged e.tree n.id = false)
      (hR : ∀ x ∈ R, ∃ now, x = Entry.reading n.id now) :
      Entrance e n b (told e n .enter none b ++
        (told e n .opening none b' ++ (R ++ told e n .tick none b'')))

namespace Entrance

variable {e : Setting σ} {n : Node σ} {b : Blackboard} {H : List Entry}

/-- After it was entered a node is ticked if it is open, and else opened. -/
theorem exists_next (h : Entrance e n b H) :
    ∃ x later, x.Tells (if b.flagged e.tree n.id then .tick else .opening) n.id ∧
      H = told e n .enter none b ++ x :: later ∧
      ∀ event ∈ (x :: later).filterMap Entry.event?, event.phase ≠ .enter := by
  cases h with
  | resumes hopen =>
      refine ⟨_, _, ⟨_, _, rfl, by simp [hopen], rfl⟩, rfl, ?_⟩
      simp [Entry.event?]
  | @opens b' b'' R hclosed hR =>
      refine ⟨_, _, ⟨_, _, rfl, by simp [hclosed], rfl⟩, rfl, ?_⟩
      change ∀ event ∈ (told e n .opening none b' ++ (R ++ told e n .tick none b'')).filterMap
        Entry.event?, event.phase ≠ .enter
      simp only [List.filterMap_append, events_told, events_readings hR]
      simp

theorem entered (h : Entrance e n b H) (id : NodeId) : Entered id H ↔ n.id = id := by
  cases h with
  | resumes hopen => simp [entered_told]
  | opens _ hR => simp [entered_told, not_entered_readings hR]

theorem phase_ne_exit (h : Entrance e n b H) :
    ∀ event ∈ H.filterMap Entry.event?, event.phase ≠ .exit := by
  cases h with
  | resumes hopen =>
      simp only [List.filterMap_append, events_told]
      simp
  | opens _ hR =>
      simp only [List.filterMap_append, events_told, events_readings hR]
      simp

theorem prompt (h : Entrance e n b H) : EachReport (Prompt e.tree) [] H := by
  cases h with
  | @resumes b' hopen =>
      have htick (pre : List Entry) : EachReport (Prompt e.tree) pre (told e n .tick none b') :=
        ⟨.of_phase (by simp) (by simp), trivial⟩
      refine ⟨⟨fun _ hclosed => ?_, nofun⟩, htick _⟩
      simp [hopen] at hclosed
  | @opens b' b'' R _ hR =>
      have htick (pre : List Entry) :
          EachReport (Prompt e.tree) pre (R ++ told e n .tick none b'') := by
        refine EachReport.of_forall ?_
        simp only [List.filterMap_append, events_told, events_readings hR]
        intro event hevent pre board post
        obtain rfl := List.mem_singleton.1 hevent
        exact .of_phase (by simp) (by simp)
      refine ⟨⟨fun _ _ => ?_, nofun⟩, ⟨nofun, fun _ => ?_⟩, htick _⟩
      · exact ⟨_, _, ⟨⟨e.tree, n.id, n.name, .opening, none⟩, _, rfl, rfl, rfl⟩, rfl⟩
      · exact ⟨[], _, ⟨⟨e.tree, n.id, n.name, .enter, none⟩, _, rfl, rfl, rfl⟩, rfl⟩

end Entrance

/-! ## Footprints -/

/-- From `base` to `w` the history grew by `H`, which speaks of the nodes `ids` only and calls their
hooks as told, and what is on the stack was there before or has been entered since. -/
structure Footprint (ids : List NodeId) (base : Traversal σ) (H : List Entry) (w : Traversal σ) :
    Prop where
  history : w.history = base.history ++ H
  node_mem : ∀ x ∈ H, x.node ∈ ids
  calls : CallsAsTold H
  stack : ∀ id ∈ w.stack, id ∈ base.stack ∨ Entered id H

/-- Moreover the history tells truly which nodes are open. -/
structure Tracks (e : Setting σ) (ids : List NodeId) (base : Traversal σ) (H : List Entry)
    (w : Traversal σ) : Prop extends Footprint ids base H w where
  chronicle : Chronicle e.tree (fun id => base.isOpen e id) H
  isOpen : ∀ id, w.isOpen e id = marks (fun id => base.isOpen e id) H id

section

variable {e : Setting σ} {ids : List NodeId} {base w u : Traversal σ} {H : List Entry}
  {n : Node σ} {phase : Phase} {status : Option Status} {b : Blackboard}

theorem Footprint.refl (ids : List NodeId) (w : Traversal σ) : Footprint ids w [] w :=
  ⟨by simp, by simp, rfl, fun _ h => .inl h⟩

theorem Footprint.mem_ids_of_entered (h : Footprint ids base H w) {id : NodeId}
    (hid : Entered id H) : id ∈ ids := by
  obtain ⟨x, hx, rfl⟩ := hid.exists_mem
  exact h.node_mem x hx

theorem Footprint.entered_of_mem_openNodes (h : Footprint ids base H w) (hbase : base.stack = [])
    {id : NodeId} (hid : id ∈ w.openNodes) : Entered id H := by
  apply (h.stack id (List.mem_reverse.1 hid)).resolve_left
  simp [hbase]

theorem Tracks.refl (e : Setting σ) (ids : List NodeId) (w : Traversal σ) :
    Tracks e ids w [] w :=
  ⟨.refl ids w, trivial, fun _ => rfl⟩

theorem Footprint.tell (h : Footprint ids base H w) (hn : n.id ∈ ids)
    (hhist : u.history = w.history ++ told e n phase status b)
    (hstack : ∀ id ∈ u.stack, id ∈ w.stack ∨ (phase = .enter ∧ n.id = id)) :
    Footprint ids base (H ++ told e n phase status b) u where
  history := by rw [hhist, h.history, List.append_assoc]
  node_mem x hx := by
    rcases List.mem_append.1 hx with hx | hx
    · exact h.node_mem x hx
    · rcases List.mem_pair.1 hx with rfl | rfl <;> exact hn
  calls := h.calls.append rfl
  stack id hid := by
    rw [entered_append, entered_told]
    rcases hstack id hid with hid | hid
    · exact (h.stack id hid).imp_right .inl
    · exact .inr (.inr hid)

theorem Footprint.calm {id : NodeId} (h : Footprint ids base H w) (hid : id ∈ ids)
    (hcalm : Calm id w u) :
    ∃ R, (∀ x ∈ R, ∃ now, x = Entry.reading id now) ∧ Footprint ids base (H ++ R) u := by
  obtain ⟨R, hR, hhist⟩ := hcalm.history
  refine ⟨R, hR, by rw [hhist, h.history, List.append_assoc], ?_,
    h.calls.append (callsAsTold_readings hR), ?_⟩
  · intro x hx
    rcases List.mem_append.1 hx with hx | hx
    · exact h.node_mem x hx
    · obtain ⟨now, rfl⟩ := hR x hx
      exact hid
  · intro i hi
    rw [entered_append]
    exact (h.stack i (hcalm.stack ▸ hi)).imp_right .inl

theorem Tracks.tell (h : Tracks e ids base H w)
    (hfoot : Footprint ids base (H ++ told e n phase status b) u)
    (hopening : phase = .opening → w.isOpen e n.id = false)
    (hclose : phase = .close → w.isOpen e n.id = true)
    (hb : ∀ id, b.flagged e.tree id =
      (Entry.report ⟨e.tree, n.id, n.name, phase, status⟩ b).mark (fun id => w.isOpen e id) id)
    (hu : ∀ id, u.isOpen e id = b.flagged e.tree id) :
    Tracks e ids base (H ++ told e n phase status b) u where
  toFootprint := hfoot
  chronicle := by
    have hmarks : marks (fun id => base.isOpen e id) H = fun id => w.isOpen e id :=
      funext fun id => (h.isOpen id).symm
    refine chronicle_append.2 ⟨h.chronicle, ?_⟩
    rw [hmarks]
    exact ⟨⟨hopening, hclose, hb⟩, trivial, trivial⟩
  isOpen id := by
    have hmarks : marks (fun id => base.isOpen e id) H = fun id => w.isOpen e id :=
      funext fun id => (h.isOpen id).symm
    rw [hu, hb, marks_append, hmarks]
    rfl

theorem Tracks.calm {id : NodeId} (h : Tracks e ids base H w) (hid : id ∈ ids)
    (hcalm : Calm id w u) (hu : ∀ i, u.isOpen e i = w.isOpen e i) :
    ∃ R, (∀ x ∈ R, ∃ now, x = Entry.reading id now) ∧ Tracks e ids base (H ++ R) u := by
  obtain ⟨R, hR, hfoot⟩ := h.toFootprint.calm hid hcalm
  refine ⟨R, hR, hfoot, chronicle_append.2 ⟨h.chronicle, chronicle_readings hR _⟩, fun i => ?_⟩
  rw [hu, h.isOpen, marks_append, marks_readings hR]

/-! ## Beginning a turn -/

theorem history_tick : (w.tell e n .tick none).history =
    w.history ++ told e n .tick none w.board :=
  Traversal.history_tell e w n .tick none

theorem Footprint.enter (h : Footprint ids base H w) (hn : n.id ∈ ids) :
    Footprint ids base (H ++ told e n .enter none w.board) (w.enter e n) := by
  refine h.tell hn Traversal.history_enter fun id hid => ?_
  rcases List.mem_cons.1 hid with rfl | hid
  · exact .inr ⟨rfl, rfl⟩
  · exact .inl hid

theorem Footprint.tick (h : Footprint ids base H w) (hn : n.id ∈ ids) :
    Footprint ids base (H ++ told e n .tick none w.board) (w.tell e n .tick none) :=
  h.tell hn history_tick fun _ hid => .inl hid

theorem Footprint.opening (h : Footprint ids base H w) (hn : n.id ∈ ids) :
    Footprint ids base
      (H ++ told e n .opening none (w.remember e n.id Key.isOpen (.bool true)).board)
      ((w.remember e n.id Key.isOpen (.bool true)).tell e n .opening none) :=
  h.tell hn (Traversal.history_tell e _ n .opening none) fun _ hid => .inl hid

theorem Footprint.begin (h : Footprint ids base H w) (hn : n.id ∈ ids) :
    ∃ H', Footprint ids base (H ++ H') (w.begin e n) := by
  have henter := h.enter (e := e) hn
  rw [Traversal.begin]
  split
  · have htick := henter.tick (e := e) hn
    rw [List.append_assoc] at htick
    exact ⟨_, htick⟩
  · obtain ⟨R, -, hstart⟩ := (henter.opening (e := e) hn).calm hn (Traversal.startUp_calm _ n)
    have htick := hstart.tick (e := e) hn
    simp only [List.append_assoc] at htick
    exact ⟨_, htick⟩

theorem Tracks.enter (h : Tracks e ids base H w) (hn : n.id ∈ ids)
    (hk : n.hooks.enter.KeepsFlags e.tree) :
    Tracks e ids base (H ++ told e n .enter none w.board) (w.enter e n) := by
  refine h.tell (h.toFootprint.enter hn) (by simp) (by simp) ?_ (Traversal.isOpen_enter hk)
  intro id
  rw [Entry.mark_report_of_ne _ _ (by simp) (by simp)]
  rfl

theorem Tracks.tick (h : Tracks e ids base H w) (hn : n.id ∈ ids) :
    Tracks e ids base (H ++ told e n .tick none w.board) (w.tell e n .tick none) := by
  refine h.tell (h.toFootprint.tick hn) (by simp) (by simp) ?_ fun _ => rfl
  intro id
  rw [Entry.mark_report_of_ne _ _ (by simp) (by simp)]
  rfl

theorem Tracks.exit {s : Status} (h : Tracks e ids base H w) (hn : n.id ∈ ids)
    (hk : n.hooks.exit.KeepsFlags e.tree) :
    Tracks e ids base (H ++ told e n .exit (some s) w.board) (w.exit e n s) := by
  have hfoot : Footprint ids base (H ++ told e n .exit (some s) w.board) (w.exit e n s) :=
    h.toFootprint.tell hn Traversal.history_exit fun _ hid => .inl hid
  refine h.tell hfoot (by simp) (by simp) ?_ (Traversal.isOpen_exit hk)
  intro id
  rw [Entry.mark_report_of_ne _ _ (by simp) (by simp)]
  rfl

theorem Tracks.startUp (h : Tracks e ids base H w) (hn : n.id ∈ ids)
    (hk : n.hooks.opening.KeepsFlags e.tree) (hclosed : w.isOpen e n.id = false) :
    ∃ R, (∀ x ∈ R, ∃ now, x = Entry.reading n.id now) ∧
      Tracks e ids base
        (H ++ told e n .opening none (w.remember e n.id Key.isOpen (.bool true)).board ++ R)
        (w.startUp e n) := by
  have hflag (id : NodeId) := Traversal.isOpen_remember e w n.id id true
  have hopening : Tracks e ids base
      (H ++ told e n .opening none (w.remember e n.id Key.isOpen (.bool true)).board)
      ((w.remember e n.id Key.isOpen (.bool true)).tell e n .opening none) := by
    refine h.tell (h.toFootprint.opening hn) (fun _ => hclosed) (by simp) ?_ fun _ => rfl
    intro id
    rw [← Traversal.isOpen_eq_flagged, hflag]
    simp only [Entry.mark, eq_comm]
  refine hopening.calm hn (Traversal.startUp_calm w n) fun id => ?_
  rw [Traversal.isOpen_startUp hk, ← hflag]
  rfl

theorem Tracks.begin (h : Tracks e ids base H w) (hn : n.id ∈ ids)
    (hk : n.hooks.KeepRecords e.tree) :
    ∃ H', Tracks e ids base (H ++ H') (w.begin e n) ∧ Entrance e n w.board H' := by
  have henter := h.enter hn hk.enter.keepsFlags
  have hflag := Traversal.isOpen_enter (w := w) hk.enter.keepsFlags n.id
  rw [Traversal.begin]
  split
  · rename_i hopen
    have htick := henter.tick hn
    rw [List.append_assoc] at htick
    exact ⟨_, htick, .resumes (hflag.symm.trans hopen)⟩
  · rename_i hclosed
    rw [Bool.not_eq_true] at hclosed
    obtain ⟨R, hR, hstart⟩ := henter.startUp hn hk.opening.keepsFlags hclosed
    have htick := hstart.tick hn
    simp only [List.append_assoc] at htick
    exact ⟨_, htick, .opens (hflag.symm.trans hclosed) hR⟩

end
end BehaviorTrees
