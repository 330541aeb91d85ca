import BehaviorTrees.Proofs.Execution.Conduct
import BehaviorTrees.Proofs.Tree.OpenNodes

/-!
# The conduct of a node in a run

Over all the ticks of an orderly tree a node keeps to its conduct: whenever it is left its law holds
of its ledger, and at every report that is made while it is not at work its invariant does.
-/

namespace BehaviorTrees

variable {σ : Type} {t : Tree σ} {root n : Node σ} {Inv : Bool → Ledger → Prop}
  {Law : Ledger → Status → Prop} {P H L pre : List Entry} {b b' b₀ : Blackboard}
  {u v w w' : Traversal σ} {s : Status} {fuel : Nat} {traced : Bool} {rs : List (Tree.TickResult σ)}

/-! ## The end of an execution -/

/-- From `w` on a node is executed, and at `u` it is about to be left. -/
structure Node.Ends (e : Setting σ) (fuel : Nat) (n : Node σ) (w : Traversal σ) (s : Status)
    (u : Traversal σ) : Prop where
  execute : n.execute e fuel w = some (s, u.exit e n s)
  free : ∀ i ∈ n.ids, i ∉ w.stack
  stages : ∃ v L, n.Stages e fuel w s v u L

theorem Node.Ends.settled {e : Setting σ} (hn : n.ids.Nodup) (ho : n.Orderly e.tree)
    (h : n.Ends e fuel w s u) :
    ∃ L, u.history = w.history ++ L ∧ (∃ x ∈ L, x.Tells .tick n.id) ∧
      Settled e n w (L ++ told e n .exit (some s) u.board) (u.exit e n s) ∧
      (s ≠ .running → (u.exit e n s).stack = w.stack) := by
  obtain ⟨K, hsettled, hstays, -⟩ := execute_settles hn ho h.free n.mem_nodes_self (.refl e n w)
    h.free h.execute
  obtain ⟨v, L, hstages⟩ := h.stages
  obtain ⟨x, hx, hxtick⟩ := hstages.ticked
  have hK : told e n .enter none w.board ++ L ++ told e n .exit (some s) u.board = K := by
    have hhist := hsettled.history
    rw [Traversal.history_exit, hstages.history, List.append_assoc] at hhist
    exact List.append_cancel_left hhist
  exact ⟨_, hstages.history, ⟨x, List.mem_append_right _ hx, hxtick⟩, hK ▸ hsettled, hstays⟩

/-- In one of the ticks `rs`, before which `P` was told, the root takes its turn from what the ticks
before left on the blackboard, and in this turn the node is run from `w`. -/
def Node.RunInTick (t : Tree σ) (b₀ : Blackboard) (rs : List (Tree.TickResult σ)) (traced : Bool)
    (fuel : Nat) (P : List Entry) (n : Node σ) (w : Traversal σ) : Prop :=
  ∃ (earlier : List (Tree.TickResult σ)) (r : Tree.TickResult σ) (b : Blackboard) (target : σ)
    (root : Node σ), earlier ++ [r] <+: rs ∧ t.Run b₀ earlier b ∧
    t.tick fuel traced target b = .ok r ∧ t.root = some root ∧
    P = earlier.flatMap Tree.TickResult.history ∧
    n.RunIn (t.setting traced) fuel w root { target, board := b }

/-- An execution of a node in the ticks `rs` ends where the history breaks off, and `w'` is the
state in which it leaves off. -/
def Node.EndsIn (t : Tree σ) (b₀ : Blackboard) (rs : List (Tree.TickResult σ)) (n : Node σ)
    (s : Status) (H : List Entry) (b : Blackboard) (w' : Traversal σ) : Prop :=
  ∃ (traced : Bool) (fuel : Nat) (P : List Entry) (w u : Traversal σ),
    n.RunInTick t b₀ rs traced fuel P w ∧ n.Ends (t.setting traced) fuel w s u ∧
      H = P ++ u.history ∧ b = u.board ∧ w' = u.exit (t.setting traced) n s

namespace Node.EndsIn

variable {i : NodeId}

/-- A node that has finished is not on the stack any more, nor is any node below it. -/
theorem notMem_openNodes (hn : n.ids.Nodup) (ho : n.Orderly t.id) (h : n.EndsIn t b₀ rs s H b w')
    (hs : s ≠ .running) (hi : i ∈ n.ids) : i ∉ w'.openNodes := by
  obtain ⟨traced, fuel, P, w, u, -, hends, -, -, rfl⟩ := h
  obtain ⟨-, -, -, -, hstays⟩ := hends.settled hn ho
  rw [Traversal.openNodes, List.mem_reverse, hstays hs]
  exact hends.free i hi

/-- Of the nodes that a node has entered since it was ticked none is open when it has finished; each
was closed after it had been entered for the last time. -/
theorem closed (hn : n.ids.Nodup) (ho : n.Orderly t.id) (h : n.EndsIn t b₀ rs s H b w')
    (hs : s ≠ .running) (hi : i ∈ n.ids) (hentered : Entered i (since .tick n.id H)) :
    b.flagged t.id i = false ∧ ∃ x ∈ since .enter i H, x.Tells .close i := by
  obtain ⟨traced, fuel, P, w, u, -, hends, rfl, rfl, rfl⟩ := h
  obtain ⟨L, hu, hticked, hsettled, hstays⟩ := hends.settled hn ho
  have hexit := (ho n n.mem_nodes_self).hooks.exit
  rw [hu, ← List.append_assoc] at hentered ⊢
  have hL : ∃ x ∈ L, x.Tells .enter i := by
    rw [since_append_of_tells hticked] at hentered
    obtain ⟨x, hx, hxenter⟩ := entered_iff_exists_tells.1 hentered
    exact ⟨x, since_subset hx, hxenter⟩
  have hall : Entered i (L ++ told (t.setting traced) n .exit (some s) u.board) :=
    entered_append.2 (.inl (entered_iff_exists_tells.2 hL))
  have hclosed : (u.exit (t.setting traced) n s).isOpen (t.setting traced) i = false := by
    rw [← Bool.not_eq_true, hsettled.open_iff i hall, hstays hs]
    exact hends.free i hi
  refine ⟨(Traversal.isOpen_exit hexit.keepsFlags i).symm.trans hclosed, ?_⟩
  obtain ⟨x, hx, hxclose⟩ := exists_close_since_enter hsettled.chronicle hsettled.prompt hall
    ((hsettled.isOpen i).symm.trans hclosed)
  rw [since_append (by simp [told])] at hx
  -- the report with which the node itself is left closes nothing
  have hnot : x ∉ told (t.setting traced) n .exit (some s) u.board := by
    intro hlast
    rcases List.mem_pair.1 hlast with rfl | rfl <;> simp at hxclose
  rw [since_append_of_tells hL]
  exact ⟨x, (List.mem_append.1 hx).resolve_right hnot, hxclose⟩

end Node.EndsIn

/-! ## Reports in accord with a conduct -/

/-- What a report made in the ticks `rs` has to do with the conduct of a node. -/
structure Node.Accounts (t : Tree σ) (b₀ : Blackboard) (rs : List (Tree.TickResult σ))
    (n : Node σ) (Inv : Bool → Ledger → Prop) (Law : Ledger → Status → Prop) (pre : List Entry)
    (event : Event) (board : Blackboard) : Prop where
  left : event.phase = .exit → event.node = n.id →
    ∃ s, event.status = some s ∧ Law (n.ledger t.id pre board) s ∧
      board.flagged t.id n.id = decide (s = .running) ∧ (∃ x ∈ pre, x.Tells .opening n.id) ∧
      ∃ w', n.EndsIn t b₀ rs s pre board w'
  between : ¬AtWork n.id pre → ∃ isOpen, Inv isOpen (n.ledger t.id pre board)

/-- So it is with every report of `H`, when `pre` was told before. -/
def Node.Accounted (t : Tree σ) (b₀ : Blackboard) (rs : List (Tree.TickResult σ)) (n : Node σ)
    (Inv : Bool → Ledger → Prop) (Law : Ledger → Status → Prop) (pre H : List Entry) : Prop :=
  EachReport (fun pre event board _ => n.Accounts t b₀ rs Inv Law pre event board) pre H

theorem Node.Accounted.append (h : n.Accounted t b₀ rs Inv Law [] H)
    (hL : n.Accounted t b₀ rs Inv Law H L) :
    n.Accounted t b₀ rs Inv Law [] (H ++ L) :=
  EachReport.append (fun _ _ _ _ hreport => hreport) h hL

/-- Up to the end of a history, at which it is not at work, a node keeps to its conduct. -/
structure Node.InAccord (t : Tree σ) (b₀ : Blackboard) (rs : List (Tree.TickResult σ)) (n : Node σ)
    (Inv : Bool → Ledger → Prop) (Law : Ledger → Status → Prop) (H : List Entry)
    (b : Blackboard) : Prop where
  accounts : n.Accounted t b₀ rs Inv Law [] H
  idle : ¬AtWork n.id H
  holds : Inv (b.flagged t.id n.id) (n.ledger t.id H b)
  opened : b.flagged t.id n.id = true → ∃ x ∈ H, x.Tells .opening n.id

/-- While the node is at work nothing is asked of the reports but of those in which it is left. -/
theorem Node.accounted_of_atWork (hpre : AtWork n.id pre)
    (hL : ∀ x ∈ L, ¬x.Tells .enter n.id ∧ ¬x.Tells .exit n.id) :
    n.Accounted t b₀ rs Inv Law pre L := by
  induction L generalizing pre with
  | nil => trivial
  | cons x L ih =>
      obtain ⟨hx, hrest⟩ := List.forall_mem_cons.1 hL
      have hlater := ih (atWork_append (L := [x]) hpre (by simpa using hx.2)) hrest
      cases x with
      | report event board =>
          exact ⟨⟨fun hphase hnode => (hx.2 (by simp [hphase, hnode])).elim,
            fun hidle => (hidle hpre).elim⟩, hlater⟩
      | call node phase => exact hlater
      | reading node now => exact hlater

theorem Node.accounted_of_aside {isOpen : Bool} (hpre : ¬AtWork n.id pre)
    (hinv : Inv isOpen (n.ledger t.id pre b)) (hL : ∀ x ∈ L, x.Aside t.id n.id b)
    (hds : n.deeds L = []) : n.Accounted t b₀ rs Inv Law pre L := by
  induction L generalizing pre with
  | nil => trivial
  | cons x L ih =>
      have hx : ∀ y ∈ [x], y.Aside t.id n.id b := by
        simpa using hL x List.mem_cons_self
      rw [← List.singleton_append, Node.deeds_append, List.append_eq_nil_iff] at hds
      have hsame : n.ledger t.id (pre ++ [x]) b = n.ledger t.id pre b := by
        rw [Node.ledger_append_aside hx (.refl _ _ b), hds.1, Ledger.add_nil]
      have hlater : n.Accounted t b₀ rs Inv Law (pre ++ [x]) L :=
        ih (by rwa [atWork_append_aside hx]) (hsame ▸ hinv)
          (fun y hy => hL y (List.mem_cons_of_mem x hy)) hds.2
      cases x with
      | report event board =>
          have haside : (Entry.report event board).Aside t.id n.id b := hL _ List.mem_cons_self
          have hledger : n.ledger t.id pre board = n.ledger t.id pre b := by
            simpa using Node.ledger_append_aside (H := pre) (L := []) (by simp) haside.2
          refine ⟨⟨fun hphase hnode => ?_, fun _ => ⟨isOpen, hledger ▸ hinv⟩⟩, hlater⟩
          rw [haside.1 hnode] at hphase
          cases hphase
      | call node phase => exact hlater
      | reading node now => exact hlater

namespace Node.InAccord

theorem meanwhile (hc : n.Conduct Inv Law) (h : n.InAccord t b₀ rs Inv Law (P ++ w.history) w.board)
    (hm : Meanwhile (t.setting traced) n w [] w') :
    n.InAccord t b₀ rs Inv Law (P ++ w'.history) w'.board := by
  have hinv := hc.meanwhile (e := t.setting traced) (w := w) (P := P) h.holds hm
  obtain ⟨L, hw', hds, hL⟩ := hm.history
  have hhist : P ++ w'.history = P ++ w.history ++ L := by rw [hw', List.append_assoc]
  refine ⟨?_, ?_, hinv, fun hopen => ?_⟩
  · rw [hhist]
    exact h.accounts.append (accounted_of_aside h.idle h.holds hL hds)
  · rw [hhist, atWork_append_aside hL]
    exact h.idle
  · obtain ⟨x, hx, hxopening⟩ := h.opened (hm.isOpen hopen)
    rw [hhist]
    exact ⟨x, List.mem_append_left L hx, hxopening⟩

/-- When it is about to be left a node has been opened, in this turn or before. -/
theorem exists_opening (h : n.InAccord t b₀ rs Inv Law (P ++ w.history) w.board)
    (hstages : n.Stages (t.setting traced) fuel w s v u L) :
    ∃ x ∈ P ++ u.history, x.Tells .opening n.id := by
  rw [hstages.history, ← List.append_assoc]
  cases hopen : w.isOpen (t.setting traced) n.id with
  | true =>
      obtain ⟨x, hx, hxopening⟩ := h.opened hopen
      exact ⟨x, List.mem_append_left _ hx, hxopening⟩
  | false =>
      obtain ⟨x, hx, hxopening⟩ := hstages.opened hopen
      exact ⟨x, List.mem_append_right _ (List.mem_append_right _ hx), hxopening⟩

/-- Until it is about to be left a node in its turn is at work. -/
theorem inside (h : n.InAccord t b₀ rs Inv Law (P ++ w.history) w.board)
    (hstages : n.Stages (t.setting traced) fuel w s v u L) :
    n.Accounted t b₀ rs Inv Law [] (P ++ u.history) ∧ AtWork n.id (P ++ u.history) := by
  have hu : P ++ u.history =
      P ++ w.history ++ told (t.setting traced) n .enter none w.board ++ L := by
    simp only [hstages.history, List.append_assoc]
  have henter : n.Accounted t b₀ rs Inv Law (P ++ w.history)
      (told (t.setting traced) n .enter none w.board) :=
    ⟨⟨nofun, fun _ => ⟨_, h.holds⟩⟩, trivial⟩
  have hatWork : AtWork n.id
      (P ++ w.history ++ told (t.setting traced) n .enter none w.board) := by
    rw [AtWork, since_append (by simp [told]), entered_append]
    exact .inr (by simp [told])
  rw [hu]
  exact ⟨(h.accounts.append henter).append (accounted_of_atWork hatWork hstages.inner),
    atWork_append hatWork fun x hx => (hstages.inner x hx).2⟩

/-- A node that takes a turn keeps to its conduct. -/
theorem turn (hc : n.Conduct Inv Law) (hn : n.ids.Nodup) (ho : n.Orderly t.id)
    (h : n.InAccord t b₀ rs Inv Law (P ++ w.history) w.board)
    (hin : n.RunInTick t b₀ rs traced fuel P w) (hfree : ∀ i ∈ n.ids, i ∉ w.stack)
    (hrun : n.execute (t.setting traced) fuel w = some (s, w')) :
    n.InAccord t b₀ rs Inv Law (P ++ w'.history) w'.board := by
  have hexit := (ho n n.mem_nodes_self).hooks.exit
  have hopen := Node.isOpen_execute hn ho hfree hrun
  obtain ⟨v, u, L, hstages, rfl⟩ := Node.exists_stages hn ho hrun
  obtain ⟨hlaw, hinv⟩ := hc.turn (e := t.setting traced) (P := P) hn ho h.holds hstages
  obtain ⟨hbefore, hatWork⟩ := h.inside hstages
  have hflag : u.board.flagged t.id n.id = decide (s = .running) :=
    (Traversal.isOpen_exit hexit.keepsFlags n.id).symm.trans hopen
  have hopening := h.exists_opening hstages
  have hends : ∃ w', n.EndsIn t b₀ rs s (P ++ u.history) u.board w' :=
    ⟨_, traced, fuel, P, w, u, hin, ⟨hrun, hfree, v, L, hstages⟩, rfl, rfl, rfl⟩
  have hleft : n.Accounted t b₀ rs Inv Law (P ++ u.history)
      (told (t.setting traced) n .exit (some s) u.board) :=
    ⟨⟨fun _ _ => ⟨s, rfl, hlaw, hflag, hopening, hends⟩, fun hidle => (hidle hatWork).elim⟩,
      trivial⟩
  have hhist : P ++ (u.exit (t.setting traced) n s).history =
      P ++ u.history ++ told (t.setting traced) n .exit (some s) u.board := by
    rw [Traversal.history_exit, List.append_assoc]
  have hholds : Inv ((u.exit (t.setting traced) n s).isOpen (t.setting traced) n.id)
      ((u.exit (t.setting traced) n s).ledger (t.setting traced) n P) := by
    rw [hopen, Traversal.ledger_exit hn hexit]
    exact hinv
  refine ⟨hhist ▸ hbefore.append hleft, ?_, hholds, fun _ => ?_⟩
  · rw [hhist, AtWork, told, since_append_cons (by simp) (by simp)]
    simp
  · obtain ⟨x, hx, hxopening⟩ := hopening
    rw [hhist]
    exact ⟨x, List.mem_append_left _ hx, hxopening⟩

end Node.InAccord

/-! ## Ticks and runs -/

namespace Tree

theorem meanwhile_afterDiff (ho : root.Orderly t.id) (traced : Bool) (b : Blackboard)
    (w : Traversal σ) :
    Meanwhile (t.setting traced) n w [] (t.afterDiff root traced b w) :=
  Meanwhile.sweep (fun _ hm v => .releaseWithin
    (fun d hd => (ho d (Node.mem_nodes_trans hm hd)).hooks.close) v.stack.length v) _ w

variable {target : σ} {r : TickResult σ} {earlier : List (TickResult σ)}

theorem tick_inAccord (hroot : root.ids.Nodup) (ho : root.Orderly t.id) (ht : t.root = some root)
    (hn : n ∈ root.nodes) (hc : n.Conduct Inv Law) (hearlier : t.Run b₀ earlier b)
    (h : n.InAccord t b₀ rs Inv Law (earlier.flatMap TickResult.history) b)
    (htick : t.tick fuel traced target b = .ok r) (hrs : earlier ++ [r] <+: rs) :
    n.InAccord t b₀ rs Inv Law (earlier.flatMap TickResult.history ++ r.history) r.board := by
  have hin {u : Traversal σ} (hu : n.RunIn (t.setting traced) fuel u root { target, board := b }) :
      n.RunInTick t b₀ rs traced fuel (earlier.flatMap TickResult.history) u :=
    ⟨earlier, r, b, target, root, hrs, hearlier, htick, ht, rfl, hu⟩
  generalize earlier.flatMap TickResult.history = P at h hin ⊢
  obtain ⟨s, w, hrun, rfl⟩ := (tick_eq_ok_iff ht).1 htick
  have hnodup := Node.nodup_ids_of_mem hroot hn
  have hon : n.Orderly t.id := fun m hm => ho m (Node.mem_nodes_trans hn hm)
  have hstart :
      n.InAccord t b₀ rs Inv Law (P ++ ({ target, board := b } : Traversal σ).history) b := by
    simpa [Traversal.history] using h
  have hw : n.InAccord t b₀ rs Inv Law (P ++ w.history) w.board :=
    Node.execute_keeps (I := fun w => n.InAccord t b₀ rs Inv Law (P ++ w.history) w.board)
      (fun hm hu => hu.meanwhile hc hm)
      (fun hrunIn hfree hrun hu => hu.turn hc hnodup hon (hin hrunIn) hfree hrun) hroot ho hn
      (fun _ _ => by simp) hrun hstart
  have hafter := hw.meanwhile hc (meanwhile_afterDiff (n := n) ho traced b w)
  have hget (key : String) : (keepRecord (t.setting traced) w.openNodes
      (t.afterDiff root traced b w)).get key (.ofNode t.id n.id) =
        (t.afterDiff root traced b w).board.get key (.ofNode t.id n.id) :=
    get_keepRecord _ _ _ key (by simp [Scope.ofNode, Scope.address])
  have hflag : (keepRecord (t.setting traced) w.openNodes
      (t.afterDiff root traced b w)).flagged t.id n.id =
        (t.afterDiff root traced b w).board.flagged t.id n.id := flagged_keepRecord ..
  refine ⟨hafter.accounts, hafter.idle, ?_, fun hopen => hafter.opened (hflag.symm.trans hopen)⟩
  rw [hflag]
  simpa only [Node.ledger, hget] using hafter.holds

/-- Over all the ticks of an orderly tree its nodes keep to their conduct. -/
theorem Run.inAccord (hroot : root.ids.Nodup) (ho : root.Orderly t.id) (ht : t.root = some root)
    (hn : n ∈ root.nodes) (hc : n.Conduct Inv Law) (hb₀ : b₀.hasTree t.id = false)
    (hrun : t.Run b₀ earlier b) (hrs : earlier <+: rs) :
    n.InAccord t b₀ rs Inv Law (earlier.flatMap TickResult.history) b := by
  induction hrun with
  | nil =>
      have hnone (key : String) : b₀.get key (.ofNode t.id n.id) = none :=
        Blackboard.get_of_hasTree_eq_false hb₀ key _
      have hclosed := Blackboard.flagged_of_hasTree_eq_false hb₀ n.id
      refine ⟨trivial, not_entered_nil n.id, ?_, fun hopen => ?_⟩
      · simpa [Node.ledger, hnone, hclosed] using hc.fresh
      · rw [hclosed] at hopen
        cases hopen
  | snoc hearlier htick ih =>
      have hbefore := ih ((List.prefix_append _ _).trans hrs)
      simpa using tick_inAccord hroot ho ht hn hc hearlier hbefore htick hrs

theorem Run.accounts (hroot : root.ids.Nodup) (ho : root.Orderly t.id) (ht : t.root = some root)
    (hn : n ∈ root.nodes) (hc : n.Conduct Inv Law) (hb₀ : b₀.hasTree t.id = false)
    (hrun : t.Run b₀ rs b) {post : List Entry} {event : Event} {board : Blackboard}
    (hhist : rs.flatMap TickResult.history = pre ++ .report event board :: post) :
    n.Accounts t b₀ rs Inv Law pre event board := by
  have haccounts := (hrun.inAccord hroot ho ht hn hc hb₀ List.prefix_rfl).accounts
  rw [hhist] at haccounts
  exact EachReport.report haccounts

end Tree
end BehaviorTrees
