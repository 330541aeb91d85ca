import BehaviorTrees.Proofs.Execution.Lockstep
import BehaviorTrees.Proofs.Execution.Turn

/-!
# Where composites go on

The composites of the library differ in the answer they wait for and in whether they go on with the
child that was running.  The `place` of a composite is the child with which its next turn begins: it
is the one remembered where the composite is open and goes on there, and the first one else.  The
turns of nodes outside of a tree do not change the places within it.
-/

namespace BehaviorTrees

variable {σ : Type} {e : Setting σ} {fuel : Nat} {k : CompositeKind σ} {id : NodeId}
  {w w' : Traversal σ} {n : Node σ} {i : NodeId} {s : Status}

namespace CompositeKind

/-- Whether composites of the kind go on with the child that was running. -/
def resumes : CompositeKind σ → Bool
  | memSequence | memPriority => true
  | _ => false

end CompositeKind

namespace Traversal

theorem renew_composite (l : Label) (k : CompositeKind σ) (cs : List (Node σ))
    (w : Traversal σ) :
    w.renew e (.composite l k cs) =
      if k.resumes then w.remember e l.id Key.runningChild (.ofNat 0) else w := by
  cases k <;> rfl

theorem rememberedCount_remember (key : String) (child : Nat) :
    (w.remember e id key (.ofNat child)).rememberedCount e id key = child := by
  rw [rememberedCount, remembered_remember, if_pos ⟨rfl, rfl⟩]
  rfl

/-- The child with which the next turn of a composite begins. -/
def place (e : Setting σ) (k : CompositeKind σ) (id : NodeId) (w : Traversal σ) : Nat :=
  if k.resumes && w.isOpen e id then w.rememberedCount e id Key.runningChild else 0

theorem place_eq_zero (h : w.isOpen e id = false) : w.place e k id = 0 := by
  simp [place, h]

theorem place_eq_zero_of_resumes (h : k.resumes = false) : w.place e k id = 0 := by
  simp [place, h]

theorem place_congr {e' : Setting σ}
    (h : ∀ key ∈ Key.ofNode, w'.remembered e' id key = w.remembered e id key) :
    w'.place e' k id = w.place e k id := by
  have hopen : w'.isOpen e' id = w.isOpen e id := by
    rw [isOpen, isOpen, h Key.isOpen (by simp [Key.ofNode])]
  rw [place, place, hopen, rememberedCount, rememberedCount,
    h Key.runningChild (by simp [Key.ofNode])]

/-- After a scan a composite writes down which child is running, if it goes on there. -/
def note (e : Setting σ) (k : CompositeKind σ) (id : NodeId) (s : Status) (child : Nat)
    (w : Traversal σ) : Traversal σ :=
  if k.resumes = true ∧ s = .running then w.remember e id Key.runningChild (.ofNat child) else w

theorem note_of_ne_running (hs : s ≠ .running) (child : Nat) : w.note e k id s child = w :=
  if_neg fun h => hs h.2

theorem quiet_note (child : Nat) : Quiet e id w (w.note e k id s child) := by
  rw [note]
  split
  · exact .remember w (by decide) _
  · exact .refl e id w

/-- A composite that is open begins with the child it wrote down. -/
theorem place_note {child : Nat} (h : (w.note e k id .running child).isOpen e id = true) :
    (w.note e k id .running child).place e k id = if k.resumes then child else 0 := by
  cases hk : k.resumes with
  | false => exact place_eq_zero_of_resumes hk
  | true =>
      have hnote : w.note e k id .running child =
          w.remember e id Key.runningChild (.ofNat child) := if_pos ⟨hk, rfl⟩
      rw [place, hk, h, hnote, Bool.and_self, if_pos rfl, rememberedCount_remember, if_pos rfl]

/-- A composite without hooks begins its turn at its place. -/
theorem start_begin {l : Label} {cs : List (Node σ)}
    (hhooks : (Node.composite l k cs).hooks = {}) (hk : k.resumes = true) :
    (w.begin e (.composite l k cs)).rememberedCount e l.id Key.runningChild =
      w.place e k l.id := by
  have henter : (w.enter e (.composite l k cs)).board = w.board := by
    rw [enter, hhooks]
    rfl
  have hopen : (w.enter e (.composite l k cs)).isOpen e l.id = w.isOpen e l.id := by
    simp only [isOpen, remembered, henter]
  rw [begin]
  split
  · rename_i h
    have hw : w.isOpen e l.id = true := hopen ▸ h
    rw [place, hk, hw]
    simp only [rememberedCount, remembered, board_tell, henter, Bool.and_self, if_true]
  · rename_i h
    have hw : w.isOpen e l.id = false := by
      rw [← hopen]
      exact Bool.eq_false_iff.2 h
    rw [place_eq_zero hw, startUp_eq, renew_composite, if_pos hk, hhooks]
    exact rememberedCount_remember _ _

theorem place_close (hm : n.hooks.close.KeepsRecords e.tree) :
    (w.close e n).place e k i = if i = n.id then 0 else w.place e k i := by
  split
  · rename_i hi
    apply place_eq_zero
    rw [isOpen_close hm.keepsFlags, if_pos hi]
  · rename_i hi
    exact place_congr fun key hkey => (KeepsOthers.close hm).ofNode key hkey i hi

@[simp] theorem stack_closeAll (ms : List (Node σ)) : (w.closeAll e ms).stack = w.stack := by
  induction ms generalizing w with
  | nil => rfl
  | cons m ms ih => exact ih

/-- A composite that is closed will begin anew. -/
theorem place_closeAll {ms : List (Node σ)} (hms : ∀ m ∈ ms, m.hooks.close.KeepsRecords e.tree) :
    (w.closeAll e ms).place e k i = if i ∈ ms.map Node.id then 0 else w.place e k i := by
  induction ms generalizing w with
  | nil => simp [closeAll]
  | cons m ms ih =>
      have hlater := ih (w := w.close e m) fun d hd => hms d (List.mem_cons_of_mem m hd)
      rw [place_close (hms m List.mem_cons_self)] at hlater
      refine hlater.trans ?_
      by_cases hi : i = m.id <;> simp [hi]

end Traversal

theorem scanAll_eq_map (pass : Status) (runs : List (Exec σ)) (w : Traversal σ) :
    scanAll pass runs w = (scan pass 0 runs w).map fun a => (a.1, a.2.2) := by
  rw [scanAll]
  cases scan pass 0 runs w <;> rfl

theorem scanOn_eq_map (pass : Status) (runs : List (Exec σ)) {start : Nat}
    (h : w.rememberedCount e id Key.runningChild = start) :
    scanOn e id pass runs w = (scan pass start (runs.drop start) w).map fun a =>
      (a.1, if a.1 = .running then a.2.2.remember e id Key.runningChild (.ofNat a.2.1)
        else a.2.2) := by
  simp only [scanOn, h]
  cases scan pass start (runs.drop start) w <;> rfl

/-- Composites of a kind run their children, from their place on, as long as these pass, and write
down which one is running if they go on there. -/
structure CompositeKind.Scans (k : CompositeKind σ) (pass : Status) : Prop where
  ne_running : pass ≠ .running
  tick : ∀ (e : Setting σ) (fuel : Nat) (l : Label) (cs : List (Node σ)) (w : Traversal σ),
    (Node.composite l k cs).tickWith e fuel (cs.map (Node.execute e fuel))
        (w.begin e (.composite l k cs)) =
      (scan pass (w.place e k l.id) ((cs.map (Node.execute e fuel)).drop (w.place e k l.id))
        (w.begin e (.composite l k cs))).map fun a => (a.1, a.2.2.note e k l.id a.1 a.2.1)

/-- So do all composites of the library. -/
theorem CompositeKind.exists_scans {l : Label} {cs : List (Node σ)}
    (hk : (Node.composite l k cs).script? = none) : ∃ pass, k.Scans pass := by
  cases k with
  | sequence =>
      refine ⟨.success, by decide, fun e fuel l cs w => ?_⟩
      rw [Traversal.place_eq_zero_of_resumes rfl, List.drop_zero]
      exact (scanAll_eq_map _ _ _).trans (by simp [Traversal.note, resumes])
  | priority =>
      refine ⟨.failure, by decide, fun e fuel l cs w => ?_⟩
      rw [Traversal.place_eq_zero_of_resumes rfl, List.drop_zero]
      exact (scanAll_eq_map _ _ _).trans (by simp [Traversal.note, resumes])
  | memSequence =>
      refine ⟨.success, by decide, fun e fuel l cs w => ?_⟩
      exact (scanOn_eq_map _ _ (Traversal.start_begin (k := .memSequence) (l := l) rfl rfl)).trans
        (by simp [Traversal.note, resumes])
  | memPriority =>
      refine ⟨.failure, by decide, fun e fuel l cs w => ?_⟩
      exact (scanOn_eq_map _ _ (Traversal.start_begin (k := .memPriority) (l := l) rfl rfl)).trans
        (by simp [Traversal.note, resumes])
  | custom design => cases hk

/-! ## What a turn spares -/

/-- A node has the same records as before, and is on the stack if it was before. -/
structure Spares (e : Setting σ) (i : NodeId) (w w' : Traversal σ) : Prop where
  records : ∀ key ∈ Key.ofNode, w'.remembered e i key = w.remembered e i key
  stack : i ∈ w'.stack ↔ i ∈ w.stack

namespace Spares

theorem place (h : Spares e i w w') : w'.place e k i = w.place e k i :=
  Traversal.place_congr h.records

theorem of_quiet (h : Quiet e id w w') (hi : i ≠ id) : Spares e i w w' :=
  ⟨fun key hkey => h.ofNode key hkey i (.inr hi), by rw [h.stack]⟩

theorem begin (hk : n.hooks.KeepRecords e.tree) (hi : i ≠ n.id) :
    Spares e i w (w.begin e n) where
  records key hkey := (KeepsOthers.begin hk).ofNode key hkey i hi
  stack := by simp [hi]

theorem exit (hk : n.hooks.exit.KeepsRecords e.tree) : Spares e i w (w.exit e n s) where
  records key hkey :=
    (hk ((w.tell e n .exit (some s)).scene e n.info) rfl).ofNode key hkey i
  stack := by simp

/-- A turn spares the nodes outside of the tree that has it. -/
theorem execute (hn : n.ids.Nodup) (ho : n.Orderly e.tree) (hfree : ∀ i ∈ n.ids, i ∉ w.stack)
    (hrun : n.execute e fuel w = some (s, w')) (hi : i ∉ n.ids) : Spares e i w w' := by
  obtain ⟨H, hw, hstays, hdown⟩ := Node.execute_settles hn ho hfree n.mem_nodes_self
    (.refl e n w) hfree hrun
  have hnot : ¬Entered i ([] ++ H) := fun hentered =>
    hi (hw.mem_ids_of_entered hentered)
  refine ⟨hw.ofNode i hnot, ?_⟩
  by_cases hs : s = .running
  · obtain ⟨p, ℓ, hp, hstack, -⟩ := hdown hs
    rw [hstack, List.mem_append, List.mem_reverse]
    exact or_iff_right fun hmem => hi (hp.subset_ids hmem)
  · rw [hstays hs]

end Spares
end BehaviorTrees
