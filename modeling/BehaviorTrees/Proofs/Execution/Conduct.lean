import BehaviorTrees.Proofs.Execution.Ledger

/-!
# The conduct of a node

What a node writes to its own ledger it writes in its own turns.  Its `Conduct` is an invariant of
the ledger between its turns, with what follows from it for the ledger when the node is left, and
needs to be looked at for a single tick of the node only.  In a turn of a node above it, the node
takes turns, and else its ledger stays as it is.
-/

namespace BehaviorTrees

variable {σ : Type} {e : Setting σ} {fuel : Nat} {n m : Node σ} {P : List Entry}
  {u v w w' : Traversal σ} {s : Status}

/-! ## What a node writes itself -/

namespace Traversal

theorem ledger_act {hook : Hook σ} (hk : hook.KeepsRecords e.tree) :
    (w.act e m hook).ledger e n P = w.ledger e n P := by
  simpa using (Meanwhile.act hk).ledger P

theorem ledger_tell_opening :
    (w.tell e n .opening none).ledger e n P = { w.ledger e n P with opened := [] } := by
  have hopening : ∀ x ∈ [Entry.call n.id .opening], ¬x.Tells .opening n.id := by simp
  have htick : ∀ x ∈ told e n .opening none w.board, ¬x.Tells .tick n.id := by simp [told]
  have hdeeds : n.deeds (told e n .opening none w.board) = [] :=
    Node.deeds_told (by decide) (by simp)
  have hhist : (w.tell e n .opening none).history = w.history ++ told e n .opening none w.board :=
    history_tell e w n .opening none
  simp only [ledger, Node.ledger, board_tell, hhist, ← List.append_assoc, since_append htick,
    Node.deeds_append, hdeeds, List.append_nil]
  rw [told, since_append_cons (by simp) hopening]
  rfl

theorem ledger_tell_tick : (w.tell e n .tick none).ledger e n P = (w.ledger e n P).tick := by
  have htick : ∀ x ∈ [Entry.call n.id .tick], ¬x.Tells .tick n.id := by simp
  have hopening : ∀ x ∈ told e n .tick none w.board, ¬x.Tells .opening n.id := by simp [told]
  simp only [ledger, Node.ledger, board_tell, history_tick, ← List.append_assoc,
    since_append hopening, Node.deeds_append, Node.deeds_told_tick, Ledger.tick]
  rw [told, since_append_cons (by simp) htick]
  rfl

theorem ledger_tell {phase : Phase} {status : Option Status} (hopening : phase ≠ .opening)
    (htick : phase ≠ .tick) (hdeeds : n.deeds (told e n phase status w.board) = []) :
    (w.tell e n phase status).ledger e n P = w.ledger e n P := by
  have hadd := Node.ledger_append (t := e.tree) (n := n) (H := P ++ w.history)
    (L := told e n phase status w.board) (by simp [told, hopening]) (by simp [told, htick])
    (.refl _ _ w.board)
  rw [hdeeds, Ledger.add_nil, List.append_assoc] at hadd
  rw [ledger, history_tell]
  exact hadd

theorem ledger_enter (hk : n.hooks.enter.KeepsRecords e.tree) :
    (w.enter e n).ledger e n P = w.ledger e n P := by
  rw [enter_eq, ledger_act hk,
    ledger_tell (by decide) (by decide) (Node.deeds_told (by decide) (by simp))]
  rfl

theorem ledger_exit (hn : n.ids.Nodup) (hk : n.hooks.exit.KeepsRecords e.tree) :
    (w.exit e n s).ledger e n P = w.ledger e n P := by
  rw [exit_eq, ledger_act hk, ledger_tell (by decide) (by decide)]
  rw [Node.deeds_told_exit, Node.deedOf_eq_nil (Node.position?_id hn)]

theorem history_readClock {id : NodeId} :
    (w.readClock e id).2.history = w.history ++ [.reading id (w.readClock e id).1] := by
  simp [readClock, history]

theorem ledger_readClock :
    (w.readClock e n.id).2.ledger e n P = (w.ledger e n P).add [.reads (w.readClock e n.id).1] := by
  have hadd := Node.ledger_append (t := e.tree) (n := n) (H := P ++ w.history)
    (L := [.reading n.id (w.readClock e n.id).1]) (by simp) (by simp) (.refl _ _ w.board)
  rw [Node.deeds_reading_cons, Node.deeds_nil, List.append_assoc] at hadd
  rw [ledger, history_readClock]
  exact hadd

theorem ledger_remember_isOpen (value : Json) :
    (w.remember e n.id Key.isOpen value).ledger e n P = w.ledger e n P := by
  simp [ledger, Node.ledger, remember, history, Blackboard.get_set, Key.isOpen, Key.runningChild,
    Key.startTime, Key.count]

theorem ledger_remember_runningChild (value : Json) :
    (w.remember e n.id Key.runningChild value).ledger e n P =
      { w.ledger e n P with runningChild := some value } := by
  simp [ledger, Node.ledger, remember, history, Blackboard.get_set, Key.runningChild,
    Key.startTime, Key.count]

theorem ledger_remember_startTime (value : Json) :
    (w.remember e n.id Key.startTime value).ledger e n P =
      { w.ledger e n P with startTime := some value } := by
  simp [ledger, Node.ledger, remember, history, Blackboard.get_set, Key.runningChild,
    Key.startTime, Key.count]

theorem ledger_remember_count (value : Json) :
    (w.remember e n.id Key.count value).ledger e n P =
      { w.ledger e n P with count := some value } := by
  simp [ledger, Node.ledger, remember, history, Blackboard.get_set, Key.runningChild,
    Key.startTime, Key.count]

theorem rememberedCount_eq {id : NodeId} {key : String} {i : Nat}
    (h : w.remembered e id key = some (.ofNat i)) : w.rememberedCount e id key = i := by
  rw [rememberedCount, h]
  rfl

/-- A node that begins its turn is ready to tick, and opened before if it was closed. -/
theorem ledger_begin (hk : n.hooks.KeepRecords e.tree) :
    (w.isOpen e n.id = true → (w.begin e n).ledger e n P = (w.ledger e n P).tick) ∧
      (w.isOpen e n.id = false → ∃ u : Traversal σ,
        u.ledger e n P = { w.ledger e n P with opened := [] } ∧
          (w.begin e n).ledger e n P = ((u.renew e n).ledger e n P).tick) := by
  have henter := ledger_enter (w := w) (P := P) hk.enter
  have hflag := isOpen_enter (w := w) hk.enter.keepsFlags n.id
  rw [begin, hflag]
  refine ⟨fun hopen => ?_, fun hclosed => ?_⟩
  · rw [if_pos hopen, ledger_tell_tick, henter]
  · rw [if_neg (by simp [hclosed]), ledger_tell_tick, startUp_eq, ledger_act hk.opening]
    refine ⟨_, ?_, rfl⟩
    rw [ledger_tell_opening, ledger_remember_isOpen, henter]

end Traversal

/-! ## Conduct -/

/-- Where a run comes to an end the ledger says so, and nothing else that is new. -/
def LoggedAs (e : Setting σ) (n : Node σ) (P : List Entry) (k : Nat) (run : Exec σ) : Prop :=
  ∀ {u v : Traversal σ} {s : Status}, run u = some (s, v) →
    v.ledger e n P = (u.ledger e n P).add [.runs k s]

/-- All runs of the nodes that are held are put down in the ledger. -/
def Node.Logs (e : Setting σ) (fuel : Nat) (P : List Entry) (n : Node σ) : Prop :=
  ∀ {k : Nat} {c : Node σ}, n.kids[k]? = some c → LoggedAs e n P k (c.execute e fuel)

theorem Node.logs (hn : n.ids.Nodup) (ho : n.Orderly e.tree) : n.Logs e fuel P :=
  fun hc _ _ _ hrun => (execute_kid hn ho hc hrun).ledger P

/-- An invariant of a node's ledger, by whether the node is open, and a law for the ledger and the
answer with which the node is left. -/
structure Node.Conduct (n : Node σ) (Inv : Bool → Ledger → Prop) (Law : Ledger → Status → Prop) :
    Prop where
  /-- At first nothing is written. -/
  fresh : Inv false {}
  closed : ∀ {ℓ}, Inv true ℓ → Inv false ℓ
  resumed : ∀ {ℓ}, Inv true ℓ → Inv true ℓ.tick
  opened : ∀ {e : Setting σ} {P : List Entry} {w : Traversal σ} {ℓ : Ledger}, Inv false ℓ →
    w.ledger e n P = { ℓ with opened := [] } →
      Inv true ((w.renew e n).ledger e n P).tick
  ticked : ∀ {e : Setting σ} {fuel : Nat} {P : List Entry} {w v : Traversal σ} {s : Status},
    n.Logs e fuel P → Inv true (w.ledger e n P) → (w.ledger e n P).ticked = [] →
    n.tickWith e fuel (n.kids.map (Node.execute e fuel)) w = some (s, v) →
    Law (v.ledger e n P) s ∧ Inv (decide (s = .running)) (v.ledger e n P)

namespace Node.Conduct

variable {Inv : Bool → Ledger → Prop} {Law : Ledger → Status → Prop}

theorem begin (h : n.Conduct Inv Law) (hk : n.hooks.KeepRecords e.tree)
    (hw : Inv (w.isOpen e n.id) (w.ledger e n P)) :
    Inv true ((w.begin e n).ledger e n P) ∧ ((w.begin e n).ledger e n P).ticked = [] := by
  obtain ⟨hresumes, hopens⟩ := Traversal.ledger_begin (w := w) (P := P) hk
  cases hopen : w.isOpen e n.id with
  | true =>
      rw [hresumes hopen]
      exact ⟨h.resumed (hopen ▸ hw), rfl⟩
  | false =>
      obtain ⟨u, hu, hbegin⟩ := hopens hopen
      rw [hbegin]
      exact ⟨h.opened (hopen ▸ hw) hu, rfl⟩

/-- What other nodes do meanwhile does not break the invariant. -/
theorem meanwhile (h : n.Conduct Inv Law) (hw : Inv (w.isOpen e n.id) (w.ledger e n P))
    (hm : Meanwhile e n w [] w') : Inv (w'.isOpen e n.id) (w'.ledger e n P) := by
  rw [hm.ledger P, Ledger.add_nil]
  cases hopen' : w'.isOpen e n.id with
  | true => exact hm.isOpen hopen' ▸ hw
  | false =>
      cases hopen : w.isOpen e n.id with
      | true => exact h.closed (hopen ▸ hw)
      | false => exact hopen ▸ hw

end Node.Conduct

/-! ## Turns -/

/-- A turn of a node: its tick, then what is released, and at last it is left.  In between it is
told neither that it is entered nor that it is left. -/
structure Node.Stages (e : Setting σ) (fuel : Nat) (n : Node σ) (w : Traversal σ) (s : Status)
    (v u : Traversal σ) (L : List Entry) : Prop where
  tick : n.tickWith e fuel (n.kids.map (Node.execute e fuel)) (w.begin e n) = some (s, v)
  release : Meanwhile e n v [] u
  history : u.history = w.history ++ (told e n .enter none w.board ++ L)
  inner : ∀ x ∈ L, ¬x.Tells .enter n.id ∧ ¬x.Tells .exit n.id
  ticked : ∃ x ∈ L, x.Tells .tick n.id
  opened : w.isOpen e n.id = false → ∃ x ∈ L, x.Tells .opening n.id

/-- From one state to another nothing was told of a node being entered or left. -/
def Inside (id : NodeId) (w w' : Traversal σ) : Prop :=
  ∃ L, w'.history = w.history ++ L ∧ ∀ x ∈ L, ¬x.Tells .enter id ∧ ¬x.Tells .exit id

theorem Inside.trans {id : NodeId} (h : Inside id u v) (h' : Inside id v w) : Inside id u w := by
  obtain ⟨L, hv, hL⟩ := h
  obtain ⟨L', hw, hL'⟩ := h'
  exact ⟨L ++ L', by rw [hw, hv, List.append_assoc], List.forall_mem_append.2 ⟨hL, hL'⟩⟩

theorem Meanwhile.inside {ds : List Deed} (h : Meanwhile e n w ds w') : Inside n.id w w' := by
  obtain ⟨L, hw, -, hL⟩ := h.history
  exact ⟨L, hw, fun x hx => ⟨(hL x hx).not_tells (by decide), (hL x hx).not_tells (by decide)⟩⟩

theorem Calm.inside {id : NodeId} (h : Calm id w w') (i : NodeId) : Inside i w w' := by
  obtain ⟨R, hR, hw⟩ := h.history
  refine ⟨R, hw, fun x hx => ?_⟩
  obtain ⟨now, rfl⟩ := hR x hx
  simp

/-- A node is ticked after it was entered, and opened in between if it was closed. -/
theorem Traversal.exists_history_begin (hk : n.hooks.KeepRecords e.tree) :
    ∃ L, (w.begin e n).history = w.history ++ (told e n .enter none w.board ++ L) ∧
      (∀ x ∈ L, ¬x.Tells .enter n.id ∧ ¬x.Tells .exit n.id) ∧ (∃ x ∈ L, x.Tells .tick n.id) ∧
        (w.isOpen e n.id = false → ∃ x ∈ L, x.Tells .opening n.id) := by
  obtain ⟨H, hbegin, hentrance⟩ :=
    (Tracks.refl e [n.id] w).begin (List.mem_singleton_self _) hk
  have hhist : (w.begin e n).history = w.history ++ H := hbegin.history
  cases hentrance with
  | @resumes b' hopen =>
      refine ⟨told e n .tick none b', hhist, by simp [told], ?_, fun hclosed => ?_⟩
      · exact ⟨_, List.mem_cons_self, by simp⟩
      · cases hclosed.symm.trans hopen
  | @opens b' b'' R hclosed hR =>
      refine ⟨told e n .opening none b' ++ (R ++ told e n .tick none b''), hhist, ?_, ?_,
        fun _ => ⟨_, List.mem_cons_self, by simp⟩⟩
      · have hreadings : ∀ x ∈ R, ¬x.Tells .enter n.id ∧ ¬x.Tells .exit n.id := by
          intro x hx
          obtain ⟨now, rfl⟩ := hR x hx
          simp
        simp only [List.forall_mem_append]
        exact ⟨by simp [told], hreadings, by simp [told]⟩
      · exact ⟨.report ⟨e.tree, n.id, n.name, .tick, none⟩ b'', by simp [told], by simp⟩

theorem Node.exists_stages (hn : n.ids.Nodup) (ho : n.Orderly e.tree)
    (h : n.execute e fuel w = some (s, w')) :
    ∃ v u L, n.Stages e fuel w s v u L ∧ u.exit e n s = w' := by
  have hk := ho n n.mem_nodes_self
  obtain ⟨v, htick, rfl⟩ := Node.execute_eq_some_iff.1 h
  obtain ⟨rs, hcourse, -⟩ := hk.course htick
  obtain ⟨L, hbegin, hL, ⟨x, hx, hxtick⟩, hopened⟩ :=
    Traversal.exists_history_begin (w := w) hk.hooks
  have hrelease : Meanwhile e n v [] (if s = .running then v else v.release e n) :=
    .released ho s v
  have hv : Inside n.id (w.begin e n) v := by
    refine hcourse.keeps (I := Inside n.id (w.begin e n)) (fun hq hu => hu.trans (hq.inside _))
      (fun c hc u v s hrun hu => hu.trans ?_) ⟨[], by simp, by simp⟩
    obtain ⟨k, hk⟩ := List.getElem?_of_mem hc
    exact (execute_kid hn ho hk hrun).inside
  obtain ⟨L', hu, hL'⟩ := hv.trans hrelease.inside
  refine ⟨v, _, L ++ L', ⟨htick, hrelease, ?_, List.forall_mem_append.2 ⟨hL, hL'⟩,
    ⟨x, List.mem_append_left _ hx, hxtick⟩, fun hclosed => ?_⟩, rfl⟩
  · rw [hu, hbegin]
    simp only [List.append_assoc]
  · obtain ⟨y, hy, hyopening⟩ := hopened hclosed
    exact ⟨y, List.mem_append_left _ hy, hyopening⟩

/-- At the end of a turn a node is open if and only if it is running. -/
theorem Node.isOpen_execute (hn : n.ids.Nodup) (ho : n.Orderly e.tree)
    (hfree : ∀ i ∈ n.ids, i ∉ w.stack) (h : n.execute e fuel w = some (s, w')) :
    w'.isOpen e n.id = decide (s = .running) := by
  obtain ⟨H, hw', hstays, hdown⟩ := execute_settles hn ho hfree n.mem_nodes_self (.refl e n w)
    hfree h
  obtain ⟨v, u, L, hstages, rfl⟩ := exists_stages hn ho h
  have hself : n.id ∈ n.ids := id_mem_ids n.mem_nodes_self
  have hentered : Entered n.id ([] ++ H) := by
    have hhist := hw'.history
    rw [Traversal.history_exit, hstages.history, List.append_assoc] at hhist
    rw [← List.append_cancel_left hhist]
    simp [told]
  rw [Bool.eq_iff_iff, hw'.open_iff n.id hentered, decide_eq_true_iff]
  by_cases hs : s = .running
  · obtain ⟨p, ℓ, hp, hstack, -⟩ := hdown hs
    obtain ⟨q, rfl⟩ := hp.exists_cons
    rw [hstack]
    simp [hs]
  · rw [hstays hs]
    exact iff_of_false (hfree n.id hself) hs

namespace Node.Conduct

variable {Inv : Bool → Ledger → Prop} {Law : Ledger → Status → Prop}

theorem turn (h : n.Conduct Inv Law) (hn : n.ids.Nodup) (ho : n.Orderly e.tree)
    (hw : Inv (w.isOpen e n.id) (w.ledger e n P)) {L : List Entry}
    (hstages : n.Stages e fuel w s v u L) :
    Law (u.ledger e n P) s ∧ Inv (decide (s = .running)) (u.ledger e n P) := by
  obtain ⟨hbegin, hticked⟩ := h.begin (ho n n.mem_nodes_self).hooks hw
  have hv := h.ticked (logs hn ho) hbegin hticked hstages.tick
  rwa [hstages.release.ledger P, Ledger.add_nil]

end Node.Conduct

/-! ## Turns of the nodes above -/

/-- Some runs of the nodes it holds, as a node of the library takes them in its tick: each begins
where the one before left off, but for what the node itself reads and writes. -/
def Node.Takes (e : Setting σ) (fuel : Nat) (m : Node σ) :
    Traversal σ → List (Node σ × Status) → Traversal σ → Prop :=
  Course (Node.execute e fuel) m.kids (Tends e m.id) fun _ => True

/-- In a run of a node from `w` the node `n`, which is part of it, is run from `u`: it is the node
itself, or it is run in one of those runs that make up the tick. -/
inductive Node.RunIn (e : Setting σ) (fuel : Nat) (n : Node σ) (u : Traversal σ) :
    Node σ → Traversal σ → Prop
  | self : RunIn e fuel n u n u
  | inner {m c : Node σ} {w w₁ v₁ v : Traversal σ} {s a : Status}
      {before after : List (Node σ × Status)}
      (htick : m.tickWith e fuel (m.kids.map (Node.execute e fuel)) (w.begin e m) = some (s, v))
      (hbefore : m.Takes e fuel (w.begin e m) before w₁) (hc : c ∈ m.kids)
      (hrun : c.execute e fuel w₁ = some (a, v₁)) (hafter : m.Takes e fuel v₁ after v)
      (hinner : RunIn e fuel n u c w₁) : RunIn e fuel n u m w

/-- The nodes that are held are run with nothing of theirs on the stack, each after the runs listed
before and with the rest still to come. -/
theorem Course.keeps_of_notMem {I : Traversal σ → Prop} (hm : m.ids.Nodup)
    (ho : m.Orderly e.tree) {w₀ : Traversal σ} {earlier rs : List (Node σ × Status)}
    (hearlier : m.Takes e fuel w₀ earlier w)
    (hcourse : Course (Node.execute e fuel) m.kids (Tends e m.id) (·.isTerminal = true) w rs w')
    (htends : ∀ {u v}, Tends e m.id u v → I u → I v)
    (hruns : ∀ c ∈ m.kids, ∀ {before u s v after}, m.Takes e fuel w₀ before u →
      m.Takes e fuel v after w' → (∀ i ∈ c.ids, i ∉ u.stack) →
      c.execute e fuel u = some (s, v) → I u → I v)
    (hfree : ∀ c ∈ m.kids, ∀ i ∈ c.ids, i ∉ w.stack) (hw : I w) : I w' := by
  induction hcourse generalizing earlier with
  | done hq => exact htends hq hw
  | @next w u v w' c s rs hq hc hrun hmore hrest ih =>
      have hfreeu : ∀ c ∈ m.kids, ∀ i ∈ c.ids, i ∉ u.stack := by
        rw [hq.quiet.stack]
        exact hfree
      have hbefore := hearlier.quiet_right (fun _ _ _ => .trans) hq
      have hafter := hrest.mono (fun _ _ hq => hq) fun _ _ => trivial
      have hv := hruns c hc hbefore hafter (hfreeu c hc) hrun (htends hq hw)
      by_cases hrs : rs = []
      · subst hrs
        cases hrest with
        | done hq' => exact htends hq' hv
      · have hs : s ≠ .running := Status.ne_running_of_isTerminal (hmore hrs)
        have hoc : c.Orderly e.tree := fun d hd => ho d (Node.mem_nodes_of_kid hc hd)
        obtain ⟨-, -, hstays, -⟩ := Node.execute_settles (Node.nodup_ids_of_kid hm hc) hoc
          (hfreeu c hc) c.mem_nodes_self (.refl e c u) (hfreeu c hc) hrun
        have hnext := hbefore.append (fun _ _ _ => .trans) (.single (.refl e m.id) hc hrun)
        refine ih hnext hruns ?_ hv
        rw [hstays hs]
        exact hfreeu

/-- What is kept by the turns of a node, and by all that happens meanwhile, is kept by the turns of
the nodes above it. -/
theorem Node.execute_keeps {I : Traversal σ → Prop}
    (hmeanwhile : ∀ {u v}, Meanwhile e n u [] v → I u → I v)
    (hturn : ∀ {u v s}, n.RunIn e fuel u m w → (∀ i ∈ n.ids, i ∉ u.stack) →
      n.execute e fuel u = some (s, v) → I u → I v)
    (hm : m.ids.Nodup) (ho : m.Orderly e.tree) (hn : n ∈ m.nodes)
    (hfree : ∀ i ∈ m.ids, i ∉ w.stack) (h : m.execute e fuel w = some (s, w')) (hw : I w) :
    I w' := by
  induction m using Node.induct generalizing w w' s with
  | step m ih =>
      rcases mem_nodes.1 hn with rfl | ⟨c, hc, hnc⟩
      · exact hturn .self hfree h hw
      have hk := ho m m.mem_nodes_self
      have hmc : m.id ∉ c.ids := id_notMem_ids_of_kid hm hc
      have hne : n.id ≠ m.id := fun heq => hmc (heq ▸ id_mem_ids hnc)
      have hkids : ∀ c' ∈ n.kids, c'.id ∈ c.ids := fun c' hc' =>
        id_mem_ids (mem_nodes_trans hnc (mem_nodes_of_kid hc' c'.mem_nodes_self))
      have hleaf : ∀ l k, m ≠ .leaf l k := by
        rintro l k rfl
        cases hc
      obtain ⟨v, htick, rfl⟩ := Node.execute_eq_some_iff.1 h
      obtain ⟨rs, hcourse, -⟩ := hk.answer hleaf htick
      have hv : I v := by
        refine Course.keeps_of_notMem hm ho (.done (.refl e m.id _)) hcourse
          (fun hq => hmeanwhile (.quiet hq.quiet hne))
          (fun d hd {before u s' u' after} hbefore hafter hfreeu hrun hu => ?_)
          (Traversal.notMem_stack_begin hm hfree) (hmeanwhile (.begin hne hk.hooks) hw)
        have hod : d.Orderly e.tree := fun x hx => ho x (mem_nodes_of_kid hd hx)
        by_cases hself : n.id ∈ d.ids
        · obtain rfl := kid_eq_of_mem_ids hm hc hd (id_mem_ids hnc) hself
          exact ih c hc (fun hin => hturn (.inner htick hbefore hc hrun hafter hin))
            (nodup_ids_of_kid hm hc) hod hnc hfreeu hrun hu
        · refine hmeanwhile (execute_apart hod hself (fun c' hc' hi => hself ?_) hrun) hu
          exact kid_eq_of_mem_ids hm hc hd (hkids c' hc') hi ▸ id_mem_ids hnc
      have hposition : n.position? m.id = none :=
        position?_eq_none fun c' hc' heq => hmc (heq ▸ hkids c' hc')
      have hexit := Meanwhile.exit (w := if s = .running then v else v.release e m) (s := s) hne
        hk.hooks.exit
      rw [deedOf_eq_nil hposition] at hexit
      exact hmeanwhile ((Meanwhile.released ho s v).trans_nil hexit) hv

end BehaviorTrees
