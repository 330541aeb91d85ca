import BehaviorTrees.Proofs.Execution.Settled
import BehaviorTrees.Proofs.Trace.Deeds

/-!
# The ledger of a node

The `Ledger` of a node at some moment of a run holds its deeds so far, those since it was opened and
those since it was ticked, and the notes it has on the blackboard.  Only the node itself writes to
it.  What other nodes do is told in `Meanwhile`: the notes stay, and nothing is added but the runs
of nodes that the node holds.
-/

namespace BehaviorTrees

variable {σ : Type}

/-! ## Notes -/

/-- The records that nodes keep for their own use. -/
def Key.notes : List String := [runningChild, startTime, count]

theorem Key.notes_subset : notes ⊆ ofNode := by
  simp [notes, ofNode]

/-- Two blackboards agree on the notes of a node. -/
def Blackboard.SameNotes (t : TreeId) (id : NodeId) (b b' : Blackboard) : Prop :=
  ∀ key ∈ Key.notes, b'.get key (.ofNode t id) = b.get key (.ofNode t id)

namespace Blackboard.SameNotes

variable {t : TreeId} {id : NodeId} {b b' b'' : Blackboard}

theorem refl (t : TreeId) (id : NodeId) (b : Blackboard) : SameNotes t id b b := fun _ _ => rfl

theorem trans (h : SameNotes t id b b') (h' : SameNotes t id b' b'') : SameNotes t id b b'' :=
  fun key hkey => (h' key hkey).trans (h key hkey)

end Blackboard.SameNotes

/-! ## Ledgers -/

structure Ledger where
  /-- All deeds, the first one first. -/
  ever : List Deed := []
  /-- The deeds since the node was opened. -/
  opened : List Deed := []
  /-- The deeds since the node was ticked. -/
  ticked : List Deed := []
  runningChild : Option Json := none
  startTime : Option Json := none
  count : Option Json := none

/-- The node did something more. -/
@[simps] def Ledger.add (ℓ : Ledger) (ds : List Deed) : Ledger :=
  { ℓ with ever := ℓ.ever ++ ds, opened := ℓ.opened ++ ds, ticked := ℓ.ticked ++ ds }

/-- The node begins to tick. -/
@[simps] def Ledger.tick (ℓ : Ledger) : Ledger :=
  { ℓ with ever := ℓ.ever ++ [.ticks], opened := ℓ.opened ++ [.ticks], ticked := [] }

@[simp] theorem Ledger.add_nil (ℓ : Ledger) : ℓ.add [] = ℓ := by
  simp [add]

@[simp] theorem Ledger.add_add (ℓ : Ledger) (ds ds' : List Deed) :
    (ℓ.add ds).add ds' = ℓ.add (ds ++ ds') := by
  simp [add]

/-- The ledger of a node after a history, where the blackboard is as given. -/
def Node.ledger (t : TreeId) (n : Node σ) (H : List Entry) (b : Blackboard) : Ledger where
  ever := n.deeds H
  opened := n.deeds (since .opening n.id H)
  ticked := n.deeds (since .tick n.id H)
  runningChild := b.get Key.runningChild (.ofNode t n.id)
  startTime := b.get Key.startTime (.ofNode t n.id)
  count := b.get Key.count (.ofNode t n.id)

/-- The history breaks off while a node is at work: it was entered and has not been left since. -/
def AtWork (id : NodeId) (H : List Entry) : Prop := Entered id (since .exit id H)

instance (id : NodeId) (H : List Entry) : Decidable (AtWork id H) :=
  inferInstanceAs (Decidable (Entered _ _))

/-- The entry is not told of the life of a node, unless it is closed, and shows its notes as they
are. -/
def Entry.Aside (t : TreeId) (id : NodeId) (b : Blackboard) : Entry → Prop
  | report event board =>
      (event.node = id → event.phase = .close) ∧ b.SameNotes t id board
  | _ => True

theorem Entry.Aside.not_tells {t : TreeId} {id : NodeId} {b : Blackboard} {x : Entry}
    (h : x.Aside t id b) {phase : Phase} (hphase : phase ≠ .close) : ¬x.Tells phase id := by
  rintro ⟨event, board, rfl, rfl, hnode⟩
  exact hphase (h.1 hnode)

section

variable {t : TreeId} {n : Node σ} {H L : List Entry} {b b' : Blackboard}

theorem Node.ledger_append (hopening : ∀ x ∈ L, ¬x.Tells .opening n.id)
    (htick : ∀ x ∈ L, ¬x.Tells .tick n.id) (hb : b.SameNotes t n.id b') :
    n.ledger t (H ++ L) b' = (n.ledger t H b).add (n.deeds L) := by
  simp only [ledger, Ledger.add, since_append hopening, since_append htick, deeds_append,
    hb Key.runningChild (by simp [Key.notes]), hb Key.startTime (by simp [Key.notes]),
    hb Key.count (by simp [Key.notes])]

theorem Node.ledger_append_aside (hL : ∀ x ∈ L, x.Aside t n.id b) (hb : b.SameNotes t n.id b') :
    n.ledger t (H ++ L) b' = (n.ledger t H b).add (n.deeds L) :=
  ledger_append (fun x hx => (hL x hx).not_tells (by decide))
    (fun x hx => (hL x hx).not_tells (by decide)) hb

theorem not_entered_of_aside {id : NodeId} (hL : ∀ x ∈ L, x.Aside t id b) : ¬Entered id L := by
  rw [entered_iff_exists_tells]
  rintro ⟨x, hx, htells⟩
  exact (hL x hx).not_tells (by decide) htells

theorem atWork_append {id : NodeId} (hH : AtWork id H) (hL : ∀ x ∈ L, ¬x.Tells .exit id) :
    AtWork id (H ++ L) := by
  rw [AtWork, since_append hL]
  exact entered_append.2 (.inl hH)

theorem atWork_append_aside {id : NodeId} (hL : ∀ x ∈ L, x.Aside t id b) :
    AtWork id (H ++ L) ↔ AtWork id H := by
  rw [AtWork, since_append fun x hx => (hL x hx).not_tells (by decide), entered_append]
  exact or_iff_left (not_entered_of_aside hL)

end

/-! ## What other nodes do meanwhile -/

namespace Traversal

/-- The ledger of a node in a tick before which the history was `P`. -/
def ledger (e : Setting σ) (n : Node σ) (P : List Entry) (w : Traversal σ) : Ledger :=
  n.ledger e.tree (P ++ w.history) w.board

end Traversal

/-- From one state to another a node had no part of its own, but nodes it holds may have been run;
it may have been closed. -/
structure Meanwhile (e : Setting σ) (n : Node σ) (w : Traversal σ) (ds : List Deed)
    (w' : Traversal σ) : Prop where
  notes : w.board.SameNotes e.tree n.id w'.board
  isOpen : w'.isOpen e n.id = true → w.isOpen e n.id = true
  history : ∃ L, w'.history = w.history ++ L ∧ n.deeds L = ds ∧
    ∀ x ∈ L, x.Aside e.tree n.id w.board

/-- What the run of a node that was left with an answer is among the deeds of another one. -/
def Node.deedOf (n : Node σ) (id : NodeId) (s : Status) : List Deed :=
  (n.position? id).toList.map (.runs · s)

theorem Node.deedOf_eq_nil {n : Node σ} {id : NodeId} (h : n.position? id = none) (s : Status) :
    n.deedOf id s = [] := by
  simp [deedOf, h]

namespace Node

variable {e : Setting σ} {n m : Node σ} {phase : Phase} {status : Option Status} {s : Status}
  {b : Blackboard}

theorem deeds_told (hexit : phase ≠ .exit) (htick : phase = .tick → m.id ≠ n.id) :
    n.deeds (told e m phase status b) = [] := by
  cases phase <;> simp_all [deeds, told, deed?]

theorem deeds_told_tick : n.deeds (told e n .tick status b) = [.ticks] := by
  simp [deeds, told, deed?]

theorem deeds_told_exit : n.deeds (told e m .exit (some s) b) = n.deedOf m.id s := by
  cases h : n.position? m.id <;> simp [deeds, told, deed?, deedOf, h]

end Node

namespace Meanwhile

variable {e : Setting σ} {fuel : Nat} {n m root : Node σ} {u v w w' : Traversal σ}
  {ds ds' : List Deed} {s : Status} {i : NodeId}

theorem refl (e : Setting σ) (n : Node σ) (w : Traversal σ) : Meanwhile e n w [] w :=
  ⟨.refl _ _ _, id, [], by simp, rfl, by simp⟩

theorem trans (h : Meanwhile e n u ds v) (h' : Meanwhile e n v ds' w) :
    Meanwhile e n u (ds ++ ds') w := by
  obtain ⟨L, hv, hds, hL⟩ := h.history
  obtain ⟨L', hw, hds', hL'⟩ := h'.history
  refine ⟨h.notes.trans h'.notes, fun hopen => h.isOpen (h'.isOpen hopen), L ++ L', ?_, ?_, ?_⟩
  · rw [hw, hv, List.append_assoc]
  · rw [Node.deeds_append, hds, hds']
  · intro x hx
    rcases List.mem_append.1 hx with hx | hx
    · exact hL x hx
    · have hlater := hL' x hx
      cases x with
      | report event board => exact ⟨hlater.1, h.notes.trans hlater.2⟩
      | call node phase => trivial
      | reading node now => trivial

theorem trans_nil (h : Meanwhile e n u [] v) (h' : Meanwhile e n v ds w) :
    Meanwhile e n u ds w := h.trans h'

theorem nil_trans (h : Meanwhile e n u ds v) (h' : Meanwhile e n v [] w) :
    Meanwhile e n u ds w := by
  simpa using h.trans h'

theorem ledger (h : Meanwhile e n w ds w') (P : List Entry) :
    w'.ledger e n P = (w.ledger e n P).add ds := by
  obtain ⟨L, hw, rfl, hL⟩ := h.history
  rw [Traversal.ledger, hw, ← List.append_assoc]
  exact Node.ledger_append_aside hL h.notes

/-! ### Steps -/

theorem of_keepsOthers (h : KeepsOthers e i w w') (hi : n.id ≠ i) {L : List Entry}
    (hw : w'.history = w.history ++ L) (hds : n.deeds L = [])
    (hL : ∀ x ∈ L, x.Aside e.tree n.id w.board) : Meanwhile e n w [] w' where
  notes key hkey := h.ofNode key (Key.notes_subset hkey) n.id hi
  isOpen hopen := by
    rwa [Traversal.isOpen, h.ofNode Key.isOpen (by simp [Key.ofNode]) n.id hi] at hopen
  history := ⟨L, hw, hds, hL⟩

theorem act {hook : Hook σ} (hk : hook.KeepsRecords e.tree) :
    Meanwhile e n w [] (w.act e m hook) where
  notes key hkey := (hk (w.scene e m.info) rfl).ofNode key (Key.notes_subset hkey) n.id
  isOpen hopen := by rwa [Traversal.isOpen_act hk.keepsFlags] at hopen
  history := ⟨[], by simp [Traversal.history], rfl, by simp⟩

theorem tell {phase : Phase} {status : Option Status} (hm : m.id = n.id → phase = .close) :
    Meanwhile e n w (n.deeds (told e m phase status w.board)) (w.tell e m phase status) where
  notes := .refl _ _ _
  isOpen := id
  history := by
    refine ⟨_, Traversal.history_tell e w m phase status, rfl, fun x hx => ?_⟩
    rcases List.mem_pair.1 hx with rfl | rfl
    · exact ⟨hm, .refl _ _ _⟩
    · trivial

/-- Only the exit of a node tells something new of those above it. -/
theorem tell_of_ne_exit {phase : Phase} (hm : m.id = n.id → phase = .close)
    (hphase : phase ≠ .exit) (w : Traversal σ) :
    Meanwhile e n w [] (w.tell e m phase none) := by
  have htell : Meanwhile e n w (n.deeds (told e m phase none w.board))
      (w.tell e m phase none) := tell hm
  have htick : phase = .tick → m.id ≠ n.id := by
    rintro rfl hid
    cases hm hid
  rwa [Node.deeds_told hphase htick] at htell

theorem quiet (h : Quiet e i w w') (hi : n.id ≠ i) : Meanwhile e n w [] w' := by
  obtain ⟨R, hR, hw⟩ := h.history
  refine of_keepsOthers (.of_quiet h) hi hw (List.filterMap_eq_nil_iff.2 fun x hx => ?_)
    fun x hx => ?_
  · obtain ⟨now, rfl⟩ := hR x hx
    exact if_neg (Ne.symm hi)
  · obtain ⟨now, rfl⟩ := hR x hx
    trivial

theorem remember (hi : n.id ≠ i) (key : String) (value : Json) :
    Meanwhile e n w [] (w.remember e i key value) :=
  of_keepsOthers (.remember key value) hi (L := []) (by simp [Traversal.history]) rfl (by simp)

theorem begin (hm : n.id ≠ m.id) (hk : m.hooks.KeepRecords e.tree) :
    Meanwhile e n w [] (w.begin e m) := by
  have hpush : Meanwhile e n w [] { w with count := w.count + 1, stack := m.id :: w.stack } :=
    ⟨.refl _ _ _, id, [], by simp [Traversal.history], rfl, by simp⟩
  have htell (phase : Phase) (hphase : phase ≠ .exit) (u : Traversal σ) :
      Meanwhile e n u [] (u.tell e m phase none) :=
    tell_of_ne_exit (fun hid => (hm hid.symm).elim) hphase u
  have henter : Meanwhile e n w [] (w.enter e m) :=
    (hpush.trans_nil (htell .enter (by decide) _)).trans_nil (act hk.enter)
  have hstart (u : Traversal σ) : Meanwhile e n u [] (u.startUp e m) :=
    (((remember hm _ _).trans_nil (htell .opening (by decide) _)).trans_nil
      (quiet (Traversal.renew_quiet _ m) hm)).trans_nil (act hk.opening)
  rw [Traversal.begin]
  split
  · exact henter.trans_nil (htell .tick (by decide) _)
  · exact (henter.trans_nil (hstart _)).trans_nil (htell .tick (by decide) _)

theorem remember_closed : Meanwhile e n w [] (w.remember e m.id Key.isOpen (.bool false)) := by
  by_cases hm : n.id = m.id
  · refine ⟨fun key hkey => ?_, fun hopen => ?_, [], by simp [Traversal.history], rfl, by simp⟩
    · -- what is written down of its being open is not among the notes of a node
      change (w.remember e m.id Key.isOpen (.bool false)).remembered e n.id key = _
      rw [Traversal.remembered_remember, if_neg]
      · rfl
      · rintro ⟨rfl, -⟩
        simp [Key.notes, Key.isOpen, Key.runningChild, Key.startTime, Key.count] at hkey
    · simp [Traversal.isOpen_remember, hm] at hopen
  · exact remember hm _ _

theorem close (hk : m.hooks.close.KeepsRecords e.tree) : Meanwhile e n w [] (w.close e m) :=
  (remember_closed.trans_nil (tell_of_ne_exit (fun _ => rfl) (by decide) _)).trans_nil (act hk)

theorem exit (hm : n.id ≠ m.id) (hk : m.hooks.exit.KeepsRecords e.tree) :
    Meanwhile e n w (n.deedOf m.id s) (w.exit e m s) := by
  have htell : Meanwhile e n w (n.deeds (told e m .exit (some s) w.board))
      (w.tell e m .exit (some s)) := tell fun hid => (hm hid.symm).elim
  rw [Node.deeds_told_exit] at htell
  exact htell.nil_trans (act hk)

/-! ### Releases -/

theorem sweep {free : Node σ → Traversal σ → Traversal σ}
    (hfree : ∀ m ∈ root.nodes, ∀ w, Meanwhile e n w [] (free m w)) (ids : List NodeId)
    (w : Traversal σ) : Meanwhile e n w [] (sweep e root free ids w) :=
  sweep_keeps (I := Meanwhile e n w []) (fun m hm _ hu => hu.trans_nil (hfree m hm _)) ids
    (.refl e n w)

theorem releaseWithin (hk : ∀ d ∈ m.nodes, d.hooks.close.KeepsRecords e.tree) (levels : Nat)
    (w : Traversal σ) : Meanwhile e n w [] (w.releaseWithin e levels m) := by
  have hcut (u : Traversal σ) (stack : List NodeId) : Meanwhile e n u [] { u with stack } :=
    ⟨.refl _ _ _, id, [], by simp [Traversal.history], rfl, by simp⟩
  apply Traversal.releaseWithin_keeps (I := Meanwhile e n w [])
  · exact fun u stack _ hu => hu.trans_nil (hcut u stack)
  · exact fun d hd _ hu => hu.trans_nil (close (hk d hd))
  · exact .refl e n w

theorem released (ho : m.Orderly e.tree) (s : Status) (w : Traversal σ) :
    Meanwhile e n w [] (if s = .running then w else w.release e m) := by
  split
  · exact .refl e n w
  · exact releaseWithin (fun d hd => (ho d hd).hooks.close) _ w

end Meanwhile

/-! ## Turns of other nodes -/

section

variable {e : Setting σ} {fuel : Nat} {n m root c : Node σ} {w w' : Traversal σ} {s : Status}
  {rs : List (Node σ × Status)} {I : Traversal σ → Prop}

/-- A turn of a node that is neither the node of the ledger nor above it, and that runs none of the
nodes which that one holds. -/
theorem Node.execute_meanwhile (ho : m.Orderly e.tree) (hself : n.id ∉ m.ids)
    (hbelow : ∀ c ∈ m.kids, ∀ i ∈ c.ids, n.position? i = none)
    (h : m.execute e fuel w = some (s, w')) : Meanwhile e n w (n.deedOf m.id s) w' := by
  induction m using Node.induct generalizing w w' s with
  | step m ih =>
      have hne : n.id ≠ m.id := fun heq => hself (heq ▸ id_mem_ids m.mem_nodes_self)
      have hk := ho m m.mem_nodes_self
      obtain ⟨v, htick, rfl⟩ := Node.execute_eq_some_iff.1 h
      obtain ⟨rs, hcourse, -⟩ := hk.course htick
      have hbegin : Meanwhile e n w [] (w.begin e m) := .begin hne hk.hooks
      have hv : Meanwhile e n w [] v := by
        refine hcourse.keeps (I := fun v => Meanwhile e n w [] v)
          (fun hq hu => hu.trans_nil (.quiet hq hne)) (fun c hc u v s hrun hu => ?_) hbegin
        have hrun := ih c hc (fun d hd => ho d (mem_nodes_of_kid hc hd))
          (fun hi => hself (ids_subset_of_kid hc hi))
          (fun d hd i hi => hbelow c hc i (ids_subset_of_kid hd hi)) hrun
        rw [deedOf_eq_nil (hbelow c hc c.id (id_mem_ids c.mem_nodes_self))] at hrun
        exact hu.trans_nil hrun
      exact (hv.trans_nil (.released ho s v)).trans_nil (.exit hne hk.hooks.exit)

/-- A turn of a node that is held by the node of the ledger is one of its deeds. -/
theorem Node.execute_kid (hn : n.ids.Nodup) (ho : n.Orderly e.tree) {k : Nat}
    (hc : n.kids[k]? = some c) (h : c.execute e fuel w = some (s, w')) :
    Meanwhile e n w [.runs k s] w' := by
  have hmem : c ∈ n.kids := List.mem_of_getElem? hc
  have hcn := nodup_ids_of_kid hn hmem
  have hbelow : ∀ d ∈ c.kids, ∀ i ∈ d.ids, n.position? i = none := by
    intro d hd i hi
    refine position?_eq_none fun c' hc' heq => ?_
    have hself : i ∈ c'.ids := heq ▸ id_mem_ids c'.mem_nodes_self
    obtain rfl := kid_eq_of_mem_ids hn hmem hc' (ids_subset_of_kid hd hi) hself
    exact id_notMem_ids_of_kid hcn hd (heq ▸ hi)
  have hrun := execute_meanwhile (fun d hd => ho d (mem_nodes_of_kid hmem hd))
    (id_notMem_ids_of_kid hn hmem) hbelow h
  rwa [deedOf, position?_of_getElem? hn hc] at hrun

/-- A turn of a node that has nothing in common with the node of the ledger is none of its
deeds. -/
theorem Node.execute_apart (ho : m.Orderly e.tree) (hself : n.id ∉ m.ids)
    (hkids : ∀ c ∈ n.kids, c.id ∉ m.ids) (h : m.execute e fuel w = some (s, w')) :
    Meanwhile e n w [] w' := by
  have hnone : ∀ i ∈ m.ids, n.position? i = none := fun i hi =>
    position?_eq_none fun c hc heq => hkids c hc (heq ▸ hi)
  have hrun := execute_meanwhile ho hself
    (fun c hc i hi => hnone i (ids_subset_of_kid hc hi)) h
  rwa [deedOf_eq_nil (hnone m.id (id_mem_ids m.mem_nodes_self))] at hrun

end
end BehaviorTrees
