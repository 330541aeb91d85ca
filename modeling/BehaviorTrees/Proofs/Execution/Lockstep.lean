import BehaviorTrees.Proofs.Execution.Release
import BehaviorTrees.Tree
import Mathlib.Data.List.Forall2

/-!
# Runs in lockstep

Two runs are compared by a relation of their states.  Where the runs of the children match, so do
the loops over them, and where the steps of a node's life keep the relation, a whole turn keeps it.

A run may also match another one whose answers are inverted.  A sequence then goes with a priority,
and a repetition until success with one until failure.
-/

namespace BehaviorTrees

variable {σ : Type}

/-- The answer as it is, or inverted. -/
def Status.turned (b : Bool) (s : Status) : Status := if b then s.invert else s

namespace Status

@[simp] theorem turned_false (s : Status) : s.turned false = s := rfl

theorem invert_turned (b : Bool) (s : Status) : (s.turned b).invert = s.turned (!b) := by
  cases b <;> simp [turned]

theorem turned_invert (b : Bool) (s : Status) : s.invert.turned b = s.turned (!b) := by
  cases b <;> simp [turned]

@[simp] theorem turned_eq_turned_iff {b : Bool} {s s' : Status} :
    s.turned b = s'.turned b ↔ s = s' := by
  cases b <;> cases s <;> cases s' <;> decide

@[simp] theorem turned_eq_running_iff {b : Bool} {s : Status} :
    s.turned b = .running ↔ s = .running := by
  cases b <;> cases s <;> decide

@[simp] theorem error_turned (b : Bool) : error.turned b = error := by
  cases b <;> rfl

end Status

theorem eq_none_or_exists_of_rel {α β : Type} {r : α → β → Prop} {x : Option α} {y : Option β}
    (h : Option.Rel r x y) :
    (x = none ∧ y = none) ∨ ∃ a b, x = some a ∧ y = some b ∧ r a b := by
  cases h with
  | none => exact .inl ⟨rfl, rfl⟩
  | some hr => exact .inr ⟨_, _, rfl, rfl, hr⟩

/-! ## Runs that match -/

/-- From states related by `R` both runs come to answers that are the same up to inversion, and to
states related by `S`, or neither comes to an end. -/
def Exec.Ends (R S : Traversal σ → Traversal σ → Prop) (b : Bool) (run run' : Exec σ) : Prop :=
  ∀ w w', R w w' →
    Option.Rel (fun a a' => a'.1 = a.1.turned b ∧ S a.2 a'.2) (run w) (run' w')

/-- Moreover the states are still related by `R` after a run that is not running. -/
def Exec.Matches (R S : Traversal σ → Traversal σ → Prop) (b : Bool) (run run' : Exec σ) : Prop :=
  ∀ w w', R w w' →
    Option.Rel
      (fun a a' => a'.1 = a.1.turned b ∧ S a.2 a'.2 ∧ (a.1 ≠ .running → R a.2 a'.2))
      (run w) (run' w')

/-- A node of one run has the same records as a node of the other one, and this stays so when both
write one of them, that of being open excepted. -/
structure Tied (e e' : Setting σ) (id id' : NodeId) (R : Traversal σ → Traversal σ → Prop) :
    Prop where
  remembered : ∀ {w w'}, R w w' → ∀ key ∈ Key.ofNode,
    w'.remembered e' id' key = w.remembered e id key
  remember : ∀ {w w'}, R w w' → ∀ key ∈ Key.ofNode, key ≠ Key.isOpen → ∀ value,
    R (w.remember e id key value) (w'.remember e' id' key value)
  now : ∀ {w w'}, R w w' → (w'.readClock e' id').1 = (w.readClock e id).1
  readClock : ∀ {w w'}, R w w' → R (w.readClock e id).2 (w'.readClock e' id').2

namespace Tied

variable {e e' : Setting σ} {id id' : NodeId} {R : Traversal σ → Traversal σ → Prop}
  {w w' : Traversal σ}

theorem rememberedCount (h : Tied e e' id id' R) (hw : R w w') (key : String)
    (hkey : key ∈ Key.ofNode) : w'.rememberedCount e' id' key = w.rememberedCount e id key := by
  rw [Traversal.rememberedCount, Traversal.rememberedCount, h.remembered hw key hkey]

theorem elapsed (h : Tied e e' id id' R) (hw : R w w') (now : Nat) :
    elapsed e' id' now w' = elapsed e id now w := by
  rw [BehaviorTrees.elapsed, BehaviorTrees.elapsed,
    h.remembered hw Key.startTime (by simp [Key.ofNode])]

theorem rememberTime (h : Tied e e' id id' R) (hw : R w w') {key : String}
    (hkey : key ∈ Key.ofNode) (hne : key ≠ Key.isOpen) :
    R (w.rememberTime e id key) (w'.rememberTime e' id' key) := by
  have hread := h.remember (h.readClock hw) key hkey hne (.ofNat (w.readClock e id).1)
  have hnow := congrArg (fun now => R (w.rememberTime e id key)
    ((w'.readClock e' id').2.remember e' id' key (.ofNat now))) (h.now hw)
  exact hnow.mpr hread

end Tied

section

variable {R S : Traversal σ → Traversal σ → Prop} {b : Bool} {run run' : Exec σ}
  {runs runs' : List (Exec σ)} {w w' : Traversal σ}

/-! ## Composites -/

/-- Where the runs match, two scans stop at the same place, or both come to what follows. -/
theorem scan_append_rel {T : Status × Nat × Traversal σ → Status × Nat × Traversal σ → Prop}
    (h : List.Forall₂ (Exec.Matches R S b) runs runs') {pass : Status} (hpass : pass ≠ .running)
    {later later' : List (Exec σ)} {i i' : Nat}
    (hstop : ∀ d < runs.length, ∀ s u u', s ≠ pass → S u u' → (s ≠ .running → R u u') →
      T (s, i + d, u) (s.turned b, i' + d, u'))
    (hlater : ∀ u u', R u u' → Option.Rel T (scan pass (i + runs.length) later u)
      (scan (pass.turned b) (i' + runs.length) later' u'))
    (hw : R w w') :
    Option.Rel T (scan pass i (runs ++ later) w)
      (scan (pass.turned b) i' (runs' ++ later') w') := by
  induction h generalizing i i' w w' with
  | nil => exact hlater w w' hw
  | @cons run run' runs runs' hrun _ ih =>
      rw [List.cons_append, List.cons_append, scan, scan]
      rcases eq_none_or_exists_of_rel (hrun _ _ hw) with
        ⟨hnone, hnone'⟩ | ⟨⟨s, v⟩, ⟨s', v'⟩, hsome, hsome', rfl, hS, hR⟩
      · rw [hnone, hnone']
        exact .none
      · rw [hsome, hsome']
        simp only [Status.turned_eq_turned_iff]
        split
        · -- The scan goes on after the answer `pass` only, which is not running.
          rename_i hs
          refine ih (fun d hd => ?_) (fun u u' hu => ?_) (hR (hs ▸ hpass))
          · rw [Nat.add_assoc, Nat.add_assoc, Nat.add_comm 1 d]
            exact hstop (d + 1) (Nat.succ_lt_succ hd)
          · rw [Nat.add_assoc, Nat.add_assoc, Nat.add_comm 1 runs.length]
            exact hlater u u' hu
        · rename_i hs
          exact .some (hstop 0 (Nat.succ_pos _) s v v' hs hS hR)

theorem scan_matches (hRS : ∀ w w', R w w' → S w w')
    (h : List.Forall₂ (Exec.Matches R S b) runs runs') {pass : Status} (hpass : pass ≠ .running)
    (i : Nat) (hw : R w w') :
    Option.Rel (fun a a' => a'.1 = a.1.turned b ∧ a'.2.1 = a.2.1 ∧ S a.2.2 a'.2.2)
      (scan pass i runs w) (scan (pass.turned b) i runs' w') := by
  rw [← List.append_nil runs, ← List.append_nil runs']
  exact scan_append_rel h hpass (fun d _ s u u' _ hS _ => ⟨rfl, rfl, hS⟩)
    (fun u u' hu => .some ⟨rfl, rfl, hRS u u' hu⟩) hw

theorem scanAll_ends (hRS : ∀ w w', R w w' → S w w')
    (h : List.Forall₂ (Exec.Matches R S b) runs runs') (pass : Status) (hpass : pass ≠ .running) :
    Exec.Ends R S b (scanAll pass runs) (scanAll (pass.turned b) runs') := by
  intro w w' hw
  rw [scanAll, scanAll]
  rcases eq_none_or_exists_of_rel (scan_matches hRS h hpass 0 hw) with
    ⟨hnone, hnone'⟩ | ⟨⟨s, j, v⟩, ⟨s', j', v'⟩, hsome, hsome', rfl, -, hS⟩
  · rw [hnone, hnone']
    exact .none
  · rw [hsome, hsome']
    exact .some ⟨rfl, hS⟩

variable {e e' : Setting σ} {id id' : NodeId} (hR : Tied e e' id id' R) (hS : Tied e e' id id' S)

include hR hS

theorem scanOn_ends (hRS : ∀ w w', R w w' → S w w')
    (h : List.Forall₂ (Exec.Matches R S b) runs runs') (pass : Status) (hpass : pass ≠ .running) :
    Exec.Ends R S b (scanOn e id pass runs) (scanOn e' id' (pass.turned b) runs') := by
  intro w w' hw
  simp only [scanOn, hR.rememberedCount hw Key.runningChild (by simp [Key.ofNode])]
  generalize w.rememberedCount e id Key.runningChild = start
  rcases eq_none_or_exists_of_rel
      (scan_matches hRS (List.forall₂_drop start h) hpass start hw) with
    ⟨hnone, hnone'⟩ | ⟨⟨s, j, v⟩, ⟨s', j', v'⟩, hsome, hsome', rfl, hj, hv⟩
  · rw [hnone, hnone']
    exact .none
  · obtain rfl : j' = j := hj
    rw [hsome, hsome']
    refine .some ⟨rfl, ?_⟩
    simp only [Status.turned_eq_running_iff]
    split
    · exact hS.remember hv Key.runningChild (by simp [Key.ofNode]) (by decide) _
    · exact hv

/-! ## Decorators -/

omit hR hS in
theorem turns_matches (hRS : ∀ w w', R w w' → S w w') (h : Exec.Matches R S b run run')
    {counts counts' : Status → Bool} (hcounts : ∀ s, counts' (s.turned b) = counts s)
    (hrunning : counts .running = false) (bounded : Bool) (left i : Nat) (s₀ : Status)
    (hw : R w w') :
    Option.Rel (fun a a' => a'.1 = a.1.turned b ∧ a'.2.1 = a.2.1 ∧ S a.2.2 a'.2.2)
      (turns run counts bounded left i s₀ w)
      (turns run' counts' bounded left i (s₀.turned b) w') := by
  induction left generalizing i s₀ w w' with
  | zero =>
      cases bounded
      · exact .none
      · exact .some ⟨rfl, rfl, hRS _ _ hw⟩
  | succ left ih =>
      rw [turns, turns]
      rcases eq_none_or_exists_of_rel (h _ _ hw) with
        ⟨hnone, hnone'⟩ | ⟨⟨s, v⟩, ⟨s', v'⟩, hsome, hsome', rfl, hv, hagain⟩
      · rw [hnone, hnone']
        exact .none
      · rw [hsome, hsome']
        simp only [hcounts]
        split
        · rename_i hs
          refine ih (i + 1) _ (hagain ?_)
          rintro rfl
          simp [hrunning] at hs
        · exact .some ⟨rfl, rfl, hv⟩

omit hR hS in
theorem repeatRun_eq (fuel : Nat) (bound : Bound) (counts : Status → Bool) (idle : Status) :
    repeatRun e fuel id bound counts idle run w =
      (turns run counts bound.isSome
        (bound.elim fuel fun m => m - w.rememberedCount e id Key.count)
        (w.rememberedCount e id Key.count) idle w).map fun a =>
          (a.1, a.2.2.remember e id Key.count (.ofNat a.2.1)) := by
  cases bound with
  | none =>
      simp only [repeatRun, Option.elim_none]
      cases turns run counts (none : Bound).isSome _ _ idle w <;> rfl
  | some m =>
      simp only [repeatRun, Option.elim_some]
      cases turns run counts (some m : Bound).isSome _ _ idle w <;> rfl

theorem repeatRun_ends (hRS : ∀ w w', R w w' → S w w') (h : Exec.Matches R S b run run')
    (counts counts' : Status → Bool) (hcounts : ∀ s, counts' (s.turned b) = counts s)
    (hrunning : counts .running = false) (fuel : Nat) (bound : Bound) (idle : Status) :
    Exec.Ends R S b (repeatRun e fuel id bound counts idle run)
      (repeatRun e' fuel id' bound counts' (idle.turned b) run') := by
  intro w w' hw
  rw [repeatRun_eq, repeatRun_eq, hR.rememberedCount hw Key.count (by simp [Key.ofNode])]
  rcases eq_none_or_exists_of_rel (turns_matches hRS h hcounts hrunning bound.isSome _ _ idle hw)
    with ⟨hnone, hnone'⟩ | ⟨⟨s, j, v⟩, ⟨s', j', v'⟩, hsome, hsome', rfl, hj, hv⟩
  · rw [hnone, hnone']
    exact .none
  · obtain rfl : j' = j := hj
    rw [hsome, hsome']
    exact .some ⟨rfl, hS.remember hv Key.count (by simp [Key.ofNode]) (by decide) _⟩

theorem limitRun_ends (hRS : ∀ w w', R w w' → S w w') (h : Exec.Matches R S false run run')
    (maxLoop : Nat) :
    Exec.Ends R S false (limitRun e id maxLoop run) (limitRun e' id' maxLoop run') := by
  intro w w' hw
  simp only [limitRun, hR.rememberedCount hw Key.count (by simp [Key.ofNode])]
  split
  · exact .some ⟨rfl, hRS _ _ hw⟩
  · rcases eq_none_or_exists_of_rel (h _ _ hw) with
      ⟨hnone, hnone'⟩ | ⟨⟨s, v⟩, ⟨s', v'⟩, hsome, hsome', rfl, hv, -⟩
    · rw [hnone, hnone']
      exact .none
    · rw [hsome, hsome']
      refine .some ⟨rfl, ?_⟩
      simp only
      split
      · exact hS.remember hv Key.count (by simp [Key.ofNode]) (by decide) _
      · exact hv

omit hS in
theorem timeRun_ends (h : Exec.Matches R S false run run') (maxTime : Nat) :
    Exec.Ends R S false (timeRun e id maxTime run) (timeRun e' id' maxTime run') := by
  intro w w' hw
  have hread := hR.readClock hw
  simp only [timeRun, hR.elapsed hread, hR.now hw]
  rcases eq_none_or_exists_of_rel (h _ _ hread) with
    ⟨hnone, hnone'⟩ | ⟨⟨s, v⟩, ⟨s', v'⟩, hsome, hsome', rfl, hv, -⟩
  · rw [hnone, hnone']
    exact .none
  · rw [hsome, hsome']
    exact .some ⟨rfl, hv⟩

omit hR hS in
theorem invertRun_ends (h : Exec.Matches R S b run run') :
    Exec.Ends R S b (invertRun run) (invertRun run') := by
  intro w w' hw
  rw [invertRun, invertRun]
  rcases eq_none_or_exists_of_rel (h _ _ hw) with
    ⟨hnone, hnone'⟩ | ⟨⟨s, v⟩, ⟨s', v'⟩, hsome, hsome', rfl, hv, -⟩
  · rw [hnone, hnone']
    exact .none
  · rw [hsome, hsome']
    exact .some ⟨by rw [Status.invert_turned, Status.turned_invert], hv⟩

/-! ## Kinds -/

omit hR hS

/-- Two composites of the library that differ at most in the answers they wait for. -/
inductive CompositeKind.Mirrors (b : Bool) : CompositeKind σ → CompositeKind σ → Prop
  | sequence : Mirrors b .sequence (if b then .priority else .sequence)
  | priority : Mirrors b .priority (if b then .sequence else .priority)
  | memSequence : Mirrors b .memSequence (if b then .memPriority else .memSequence)
  | memPriority : Mirrors b .memPriority (if b then .memSequence else .memPriority)

/-- Two decorators of the library that are the same or repeat until opposite answers. -/
inductive DecoratorKind.Mirrors : Bool → DecoratorKind σ → DecoratorKind σ → Prop
  | inverter (b : Bool) : Mirrors b .inverter .inverter
  | limiter (m : Nat) : Mirrors false (.limiter m) (.limiter m)
  | maxTime (m : Nat) : Mirrors false (.maxTime m) (.maxTime m)
  | repeater (m : Bound) : Mirrors false (.repeater m) (.repeater m)
  | repeatUntilSuccess (b : Bool) (m : Bound) :
      Mirrors b (.repeatUntilSuccess m) (if b then .repeatUntilFailure m else .repeatUntilSuccess m)
  | repeatUntilFailure (b : Bool) (m : Bound) :
      Mirrors b (.repeatUntilFailure m) (if b then .repeatUntilSuccess m else .repeatUntilFailure m)

theorem CompositeKind.Mirrors.tick_ends (self self' : Info) {k k' : CompositeKind σ}
    (hk : k.Mirrors b k') (hR : Tied e e' self.id self'.id R) (hS : Tied e e' self.id self'.id S)
    (hRS : ∀ w w', R w w' → S w w') (h : List.Forall₂ (Exec.Matches R S b) runs runs') :
    Exec.Ends R S b (k.tick e self runs) (k'.tick e' self' runs') := by
  cases hk with
  | sequence =>
      have hends := scanAll_ends hRS h .success (by decide)
      cases b <;> exact hends
  | priority =>
      have hends := scanAll_ends hRS h .failure (by decide)
      cases b <;> exact hends
  | memSequence =>
      have hends := scanOn_ends hR hS hRS h .success (by decide)
      cases b <;> exact hends
  | memPriority =>
      have hends := scanOn_ends hR hS hRS h .failure (by decide)
      cases b <;> exact hends

theorem overChild_ends {run? run?' : Option (Exec σ)} {tick tick' : Exec σ → Exec σ}
    (hRS : ∀ w w', R w w' → S w w') (h : Option.Rel (Exec.Matches R S b) run? run?')
    (htick : ∀ run run', Exec.Matches R S b run run' → Exec.Ends R S b (tick run) (tick' run')) :
    Exec.Ends R S b (overChild run? tick) (overChild run?' tick') := by
  cases h with
  | none => exact fun w w' hw => .some ⟨(Status.error_turned b).symm, hRS _ _ hw⟩
  | some hrun => exact htick _ _ hrun

theorem DecoratorKind.Mirrors.tick_ends (self self' : Info) {k k' : DecoratorKind σ}
    (hk : k.Mirrors b k') (hR : Tied e e' self.id self'.id R) (hS : Tied e e' self.id self'.id S)
    (hRS : ∀ w w', R w w' → S w w') (fuel : Nat) {run? run?' : Option (Exec σ)}
    (h : Option.Rel (Exec.Matches R S b) run? run?') :
    Exec.Ends R S b (k.tick e fuel self run?) (k'.tick e' fuel self' run?') := by
  cases hk with
  | inverter => exact overChild_ends hRS h fun _ _ => invertRun_ends
  | limiter m => exact overChild_ends hRS h fun _ _ hrun => limitRun_ends hR hS hRS hrun m
  | maxTime m => exact overChild_ends hRS h fun _ _ hrun => timeRun_ends hR hrun m
  | repeater m =>
      exact overChild_ends hRS h fun _ _ hrun =>
        repeatRun_ends hR hS hRS hrun _ _ (fun _ => rfl) rfl fuel m .success
  | repeatUntilSuccess _ m =>
      have hends : ∀ run run', Exec.Matches R S b run run' → _ := fun _ _ hrun =>
        repeatRun_ends hR hS hRS hrun (· == .failure) (· == Status.failure.turned b)
          (fun s => by simp [beq_eq_decide]) rfl fuel m .error
      cases b <;> exact overChild_ends hRS h hends
  | repeatUntilFailure _ m =>
      have hends : ∀ run run', Exec.Matches R S b run run' → _ := fun _ _ hrun =>
        repeatRun_ends hR hS hRS hrun (· == .success) (· == Status.success.turned b)
          (fun s => by simp [beq_eq_decide]) rfl fuel m .error
      cases b <;> exact overChild_ends hRS h hends

end

/-! ## Nodes -/

theorem rel_head?_of_forall₂ {α β : Type} {r : α → β → Prop} {l : List α} {l' : List β}
    (h : List.Forall₂ r l l') : Option.Rel r l.head? l'.head? := by
  cases h with
  | nil => exact .none
  | cons hr _ => exact .some hr

/-- Two branching nodes of kinds that mirror each other, or a leaf and itself. -/
inductive Node.Likewise : Bool → Node σ → Node σ → Prop
  | composite {b : Bool} {k k' : CompositeKind σ} (hk : k.Mirrors b k') (l l' : Label)
      (cs cs' : List (Node σ)) : Likewise b (.composite l k cs) (.composite l' k' cs')
  | decorator {b : Bool} {k k' : DecoratorKind σ} (hk : k.Mirrors b k') (l l' : Label)
      (c c' : Option (Node σ)) : Likewise b (.decorator l k c) (.decorator l' k' c')
  | leaf (l : Label) (k : LeafKind σ) : Likewise false (.leaf l k) (.leaf l k)

namespace Node

variable {b : Bool} {n n' : Node σ} {e e' : Setting σ} {R S : Traversal σ → Traversal σ → Prop}
  {w w' : Traversal σ}

theorem likewise_self (h : n.script? = none) : n.Likewise false n := by
  rcases n with ⟨l, k, cs⟩ | ⟨l, k, c⟩ | ⟨l, k⟩
  · refine .composite ?_ l l cs cs
    cases k with
    | sequence => exact .sequence
    | priority => exact .priority
    | memSequence => exact .memSequence
    | memPriority => exact .memPriority
    | custom design => cases h
  · refine .decorator ?_ l l c c
    cases k with
    | inverter => exact .inverter false
    | limiter m => exact .limiter m
    | maxTime m => exact .maxTime m
    | repeater m => exact .repeater m
    | repeatUntilSuccess m => exact .repeatUntilSuccess false m
    | repeatUntilFailure m => exact .repeatUntilFailure false m
    | custom design => cases h
  · exact .leaf l k

theorem Likewise.renew (h : n.Likewise b n') (htied : Tied e e' n.id n'.id R) (hw : R w w') :
    R (w.renew e n) (w'.renew e' n') := by
  have hchild : R (w.remember e n.id Key.runningChild (.ofNat 0))
      (w'.remember e' n'.id Key.runningChild (.ofNat 0)) :=
    htied.remember hw _ (by simp [Key.ofNode]) (by decide) _
  have hcount : R (w.remember e n.id Key.count (.ofNat 0))
      (w'.remember e' n'.id Key.count (.ofNat 0)) :=
    htied.remember hw _ (by simp [Key.ofNode]) (by decide) _
  have htime : R (w.rememberTime e n.id Key.startTime) (w'.rememberTime e' n'.id Key.startTime) :=
    htied.rememberTime hw (by simp [Key.ofNode]) (by decide)
  cases h with
  | composite hk l l' cs cs' =>
      cases hk with
      | memSequence => cases b <;> exact hchild
      | memPriority => cases b <;> exact hchild
      | _ => cases b <;> exact hw
  | decorator hk l l' c c' =>
      cases hk with
      | maxTime m => exact htime
      | repeater m => exact hcount
      | repeatUntilSuccess b m => cases b <;> exact hcount
      | repeatUntilFailure b m => cases b <;> exact hcount
      | _ => exact hw
  | leaf l k =>
      cases k with
      | wait ms => exact htime
      | _ => exact hw

theorem Likewise.tickWith_ends (h : n.Likewise b n') (hR : Tied e e' n.id n'.id R)
    (hS : Tied e e' n.id n'.id S) (hRS : ∀ w w', R w w' → S w w')
    (hleaf : ∀ l k, n = .leaf l k → ∀ {w w'}, R w w' →
      (k.tick e' n.info w').1 = (k.tick e n.info w).1 ∧
        S (k.tick e n.info w).2 (k.tick e' n.info w').2)
    (fuel : Nat) {runs runs' : List (Exec σ)}
    (hruns : List.Forall₂ (Exec.Matches R S b) runs runs') :
    Exec.Ends R S b (n.tickWith e fuel runs) (n'.tickWith e' fuel runs') := by
  cases h with
  | composite hk l l' cs cs' =>
      exact hk.tick_ends (Node.composite l _ cs).info (Node.composite l' _ cs').info hR hS hRS hruns
  | decorator hk l l' c c' =>
      exact hk.tick_ends (Node.decorator l _ c).info (Node.decorator l' _ c').info hR hS hRS fuel
        (rel_head?_of_forall₂ hruns)
  | leaf l k => exact fun w w' hw => .some (hleaf l k rfl hw)

end Node

/-! ## One tree in two runs -/

/-- The hooks around a tick, with the steps of life in which they are called. -/
def Hooks.calls (h : Hooks σ) : List (Phase × Hook σ) :=
  [(.enter, h.enter), (.opening, h.opening), (.close, h.close), (.exit, h.exit)]

theorem Hooks.forall_mem_calls {h : Hooks σ} {P : Phase × Hook σ → Prop} :
    (∀ x ∈ h.calls, P x) ↔
      P (.enter, h.enter) ∧ P (.opening, h.opening) ∧ P (.close, h.close) ∧ P (.exit, h.exit) := by
  simp [calls]

/-- What the steps of the lives of the nodes of a tree, whose branching nodes are of the library,
do to the states of two runs keeps them related.  Of a leaf it is looked at what a call does as a
whole: that it is noted, and what is run. -/
structure Lockstep (e e' : Setting σ) (root : Node σ) (R : Traversal σ → Traversal σ → Prop) :
    Prop where
  stack : ∀ {w w'}, R w w' → w'.stack = w.stack
  tied : ∀ id, Tied e e' id id R
  mark : ∀ {w w'}, R w w' → ∀ id flag,
    R (w.remember e id Key.isOpen (.bool flag)) (w'.remember e' id Key.isOpen (.bool flag))
  push : ∀ {w w'}, R w w' → ∀ id,
    R { w with count := w.count + 1, stack := id :: w.stack }
      { w' with count := w'.count + 1, stack := id :: w'.stack }
  cut : ∀ {w w'}, R w w' → ∀ stack, R { w with stack := stack } { w' with stack := stack }
  report : ∀ {w w'}, R w w' → ∀ n phase status,
    R (w.report e n phase status) (w'.report e' n phase status)
  note : ∀ n ∈ root.nodes, (∀ l design, n ≠ .leaf l (.custom design)) → ∀ phase, ∀ {w w'}, R w w' →
    R (w.noteCall n.id phase) (w'.noteCall n.id phase)
  perform : ∀ l design, .leaf l (.custom design) ∈ root.nodes → ∀ x ∈ design.hooks.calls,
    ∀ {w w'}, R w w' → R (w.perform e (.leaf l (.custom design)) x.1 x.2)
      (w'.perform e' (.leaf l (.custom design)) x.1 x.2)
  branch : ∀ n ∈ root.nodes, n.script? = none
  leaf : ∀ l k, .leaf l k ∈ root.nodes → ∀ {w w'}, R w w' →
    (k.tick e' (Node.leaf l k).info (w'.noteCall l.id .tick)).1 =
        (k.tick e (Node.leaf l k).info (w.noteCall l.id .tick)).1 ∧
      R (k.tick e (Node.leaf l k).info (w.noteCall l.id .tick)).2
        (k.tick e' (Node.leaf l k).info (w'.noteCall l.id .tick)).2

theorem Exec.Ends.matches {R : Traversal σ → Traversal σ → Prop} {b : Bool} {run run' : Exec σ}
    (h : Exec.Ends R R b run run') : Exec.Matches R R b run run' := by
  intro w w' hw
  rcases eq_none_or_exists_of_rel (h w w' hw) with
    ⟨hnone, hnone'⟩ | ⟨a, a', hsome, hsome', hs, hv⟩
  · rw [hnone, hnone']
    exact .none
  · rw [hsome, hsome']
    exact .some ⟨hs, hv, fun _ => hv⟩

theorem forall₂_map_of_forall {α β γ : Type} {r : β → γ → Prop} {f : α → β} {g : α → γ}
    {l : List α} (h : ∀ a ∈ l, r (f a) (g a)) : List.Forall₂ r (l.map f) (l.map g) := by
  rw [List.forall₂_map_left_iff, List.forall₂_map_right_iff, List.forall₂_same]
  exact h

namespace Lockstep

variable {e e' : Setting σ} {root n : Node σ} {R : Traversal σ → Traversal σ → Prop}
  {w w' : Traversal σ} (h : Lockstep e e' root R)

include h

theorem isOpen_eq (hw : R w w') (id : NodeId) : w'.isOpen e' id = w.isOpen e id := by
  rw [Traversal.isOpen, Traversal.isOpen,
    (h.tied id).remembered hw Key.isOpen (by simp [Key.ofNode])]

/-- Only leaves of the caller's own have hooks that do something. -/
theorem note_or_custom (hn : n ∈ root.nodes) :
    (n.hooks = {} ∧ ∀ phase {w w'}, R w w' → R (w.noteCall n.id phase) (w'.noteCall n.id phase)) ∨
      ∃ l design, n = .leaf l (.custom design) := by
  by_cases hleaf : ∃ l design, n = .leaf l (.custom design)
  · exact .inr hleaf
  · refine .inl ⟨(Node.hooks_eq_default_or_custom (h.branch n hn)).resolve_right hleaf, ?_⟩
    intro phase w w' hw
    exact h.note n hn (fun l design heq => hleaf ⟨l, design, heq⟩) phase hw

theorem calls (hn : n ∈ root.nodes) (hw : R w w') : ∀ x ∈ n.hooks.calls,
    R (w.perform e n x.1 x.2) (w'.perform e' n x.1 x.2) := by
  obtain ⟨hdefault, hnote⟩ | ⟨l, design, rfl⟩ := h.note_or_custom hn
  · rw [hdefault, Hooks.forall_mem_calls]
    exact ⟨hnote .enter hw, hnote .opening hw, hnote .close hw, hnote .exit hw⟩
  · exact fun x hx => h.perform l design hn x hx hw

theorem enter (hn : n ∈ root.nodes) (hw : R w w') : R (w.enter e n) (w'.enter e' n) :=
  h.calls hn (h.report (h.push hw n.id) n .enter none) (.enter, n.hooks.enter)
    (by simp [Hooks.calls])

/-- A node that has records to begin anew has no hooks, and the other way round. -/
theorem prepare (hn : n ∈ root.nodes) (hw : R w w') : R (w.prepare e n) (w'.prepare e' n) := by
  obtain ⟨hdefault, hnote⟩ | ⟨l, design, rfl⟩ := h.note_or_custom hn
  · rw [Traversal.prepare, Traversal.prepare, hdefault]
    exact (Node.likewise_self (h.branch n hn)).renew (h.tied n.id) (hnote .opening hw)
  · exact h.perform l design hn (.opening, design.hooks.opening) (by simp [Hooks.calls]) hw

theorem startUp (hn : n ∈ root.nodes) (hw : R w w') : R (w.startUp e n) (w'.startUp e' n) :=
  h.prepare hn (h.report (h.mark hw n.id true) n .opening none)

/-- The states are related until the tick is called. -/
theorem begin (hn : n ∈ root.nodes) (hw : R w w') :
    ∃ u u', R u u' ∧ w.begin e n = u.noteCall n.id .tick ∧
      w'.begin e' n = u'.noteCall n.id .tick := by
  have henter := h.enter hn hw
  simp only [Traversal.begin, h.isOpen_eq henter]
  split
  · exact ⟨_, _, h.report henter n .tick none, rfl, rfl⟩
  · exact ⟨_, _, h.report (h.startUp hn henter) n .tick none, rfl, rfl⟩

theorem close (hn : n ∈ root.nodes) (hw : R w w') : R (w.close e n) (w'.close e' n) :=
  h.calls hn (h.report (h.mark hw n.id false) n .close none) (.close, n.hooks.close)
    (by simp [Hooks.calls])

theorem exit (hn : n ∈ root.nodes) (s : Status) (hw : R w w') :
    R (w.exit e n s) (w'.exit e' n s) :=
  h.calls hn (h.report hw n .exit (some s)) (.exit, n.hooks.exit) (by simp [Hooks.calls])

/-! ### Releases -/

theorem sweep (free free' : Node σ → Traversal σ → Traversal σ)
    (hfree : ∀ m ∈ n.nodes, ∀ {w w'}, R w w' → R (free m w) (free' m w')) (ids : List NodeId)
    (hw : R w w') : R (sweep e n free ids w) (sweep e' n free' ids w') := by
  induction ids generalizing w w' with
  | nil => exact hw
  | cons id ids ih =>
      have hvisit : R (visit e n free id w) (visit e' n free' id w') := by
        rw [visit, visit, h.isOpen_eq hw]
        split
        · cases hfind : n.find? id with
          | none => exact hw
          | some m => exact hfree m (Node.mem_of_find?_eq_some hfind).1 hw
        · exact hw
      exact ih hvisit

theorem releaseWithin (levels : Nat) (hn : n ∈ root.nodes) (hw : R w w') :
    R (w.releaseWithin e levels n) (w'.releaseWithin e' levels n) := by
  induction levels generalizing n w w' with
  | zero => exact h.close hn hw
  | succ levels ih =>
      cases hcut : Traversal.cutAt n.id w.stack with
      | none =>
          have hnot := Traversal.cutAt_eq_none_iff.1 hcut
          rw [Traversal.releaseWithin_of_notMem hnot,
            Traversal.releaseWithin_of_notMem ((h.stack hw).symm ▸ hnot)]
          exact h.close hn hw
      | some cut =>
          obtain ⟨above, below⟩ := cut
          have hcut' : Traversal.cutAt n.id w'.stack = some (above, below) := by
            rw [h.stack hw, hcut]
          rw [Traversal.releaseWithin_of_cutAt hcut, Traversal.releaseWithin_of_cutAt hcut']
          exact h.close hn (h.sweep (Traversal.releaseWithin e levels)
            (Traversal.releaseWithin e' levels)
            (fun m hm _ _ hv => ih (Node.mem_nodes_trans hn hm) hv) above (h.cut hw below))

theorem release (hn : n ∈ root.nodes) (hw : R w w') : R (w.release e n) (w'.release e' n) := by
  rw [Traversal.release, Traversal.release, h.stack hw]
  exact h.releaseWithin w.stack.length hn hw

theorem closeStale (stale : List NodeId) (hw : R w w') :
    R (Tree.closeStale e root stale w) (Tree.closeStale e' root stale w') :=
  h.sweep (fun m v => v.release e m) (fun m v => v.release e' m)
    (fun _ hm _ _ hv => h.release hm hv) stale.reverse hw

theorem finish (hn : n ∈ root.nodes) (s : Status) (hw : R w w') :
    R (w.finish e n s) (w'.finish e' n s) := by
  rw [Traversal.finish, Traversal.finish]
  split
  · exact h.exit hn s hw
  · exact h.exit hn s (h.release hn hw)

/-! ### Turns -/

theorem tickWith_begin (hn : n ∈ root.nodes) (fuel : Nat) {runs runs' : List (Exec σ)}
    (hruns : List.Forall₂ (Exec.Matches R R false) runs runs') (hw : R w w') :
    Option.Rel (fun a a' => a'.1 = a.1 ∧ R a.2 a'.2) (n.tickWith e fuel runs (w.begin e n))
      (n.tickWith e' fuel runs' (w'.begin e' n)) := by
  obtain ⟨u, u', hu, hbegin, hbegin'⟩ := h.begin hn hw
  rw [hbegin, hbegin']
  by_cases hleaf : ∃ l k, n = .leaf l k
  · obtain ⟨l, k, rfl⟩ := hleaf
    exact .some (h.leaf l k hn hu)
  · have hbranch : ∀ l k, n ≠ .leaf l k := fun l k heq => hleaf ⟨l, k, heq⟩
    exact (Node.likewise_self (h.branch n hn)).tickWith_ends (h.tied n.id) (h.tied n.id)
      (fun _ _ hv => hv) (fun l k heq => (hbranch l k heq).elim) fuel hruns _ _
      (h.note n hn (fun l design => hbranch l (.custom design)) .tick hu)

theorem execute_ends (hn : n ∈ root.nodes) (fuel : Nat) :
    Exec.Ends R R false (n.execute e fuel) (n.execute e' fuel) := by
  induction n using Node.induct with
  | step n ih =>
      intro w w' hw
      have hruns : List.Forall₂ (Exec.Matches R R false) (n.kids.map (Node.execute e fuel))
          (n.kids.map (Node.execute e' fuel)) :=
        forall₂_map_of_forall fun c hc => Exec.Ends.matches <| ih c hc <|
          Node.mem_nodes_trans hn (Node.mem_nodes_of_kid hc c.mem_nodes_self)
      rcases eq_none_or_exists_of_rel (h.tickWith_begin hn fuel hruns hw) with
        ⟨hnone, hnone'⟩ | ⟨⟨s, v⟩, ⟨s', v'⟩, hsome, hsome', hs, hv⟩
      · rw [Node.execute_eq_none hnone, Node.execute_eq_none hnone']
        exact .none
      · obtain rfl : s' = s := hs
        rw [Node.execute_eq_some_iff.2 ⟨v, hsome, rfl⟩,
          Node.execute_eq_some_iff.2 ⟨v', hsome', rfl⟩]
        exact .some ⟨rfl, h.finish hn s' hv⟩

end Lockstep

/-! ## What a run keeps -/

/-- What the steps of the lives of the nodes of a tree, whose branching nodes are of the library,
do to a state keeps a property of it. -/
structure Sustains (e : Setting σ) (root : Node σ) (I : Traversal σ → Prop) : Prop where
  remember : ∀ {w}, I w → ∀ id key value, I (w.remember e id key value)
  readClock : ∀ {w}, I w → ∀ id, I (w.readClock e id).2
  push : ∀ {w}, I w → ∀ id, I { w with count := w.count + 1, stack := id :: w.stack }
  cut : ∀ {w}, I w → ∀ stack, I { w with stack := stack }
  report : ∀ {w}, I w → ∀ n phase status, I (w.report e n phase status)
  note : ∀ n ∈ root.nodes, (∀ l design, n ≠ .leaf l (.custom design)) → ∀ phase, ∀ {w}, I w →
    I (w.noteCall n.id phase)
  perform : ∀ l design, .leaf l (.custom design) ∈ root.nodes → ∀ x ∈ design.hooks.calls,
    ∀ {w}, I w → I (w.perform e (.leaf l (.custom design)) x.1 x.2)
  branch : ∀ n ∈ root.nodes, n.script? = none
  leaf : ∀ l k, .leaf l k ∈ root.nodes → ∀ {w}, I w →
    I (k.tick e (Node.leaf l k).info (w.noteCall l.id .tick)).2

namespace Sustains

variable {e : Setting σ} {root n : Node σ} {I : Traversal σ → Prop} {w w' : Traversal σ}
  {s : Status} {fuel : Nat} (h : Sustains e root I)

include h

/-- A run is in lockstep with itself for as long as the property is kept. -/
theorem lockstep : Lockstep e e root fun w w' => w' = w ∧ I w := by
  constructor
  case stack =>
    rintro u _ ⟨rfl, -⟩
    rfl
  case tied =>
    intro id
    constructor
    case remembered =>
      rintro u _ ⟨rfl, -⟩ key -
      rfl
    case remember =>
      rintro u _ ⟨rfl, hu⟩ key - - value
      exact ⟨rfl, h.remember hu id key value⟩
    case now =>
      rintro u _ ⟨rfl, -⟩
      rfl
    case readClock =>
      rintro u _ ⟨rfl, hu⟩
      exact ⟨rfl, h.readClock hu id⟩
  case mark =>
    rintro u _ ⟨rfl, hu⟩ id flag
    exact ⟨rfl, h.remember hu id Key.isOpen (.bool flag)⟩
  case push =>
    rintro u _ ⟨rfl, hu⟩ id
    exact ⟨rfl, h.push hu id⟩
  case cut =>
    rintro u _ ⟨rfl, hu⟩ stack
    exact ⟨rfl, h.cut hu stack⟩
  case report =>
    rintro u _ ⟨rfl, hu⟩ n phase status
    exact ⟨rfl, h.report hu n phase status⟩
  case note =>
    rintro n hn hbranch phase u _ ⟨rfl, hu⟩
    exact ⟨rfl, h.note n hn hbranch phase hu⟩
  case perform =>
    rintro l design hn x hx u _ ⟨rfl, hu⟩
    exact ⟨rfl, h.perform l design hn x hx hu⟩
  case branch => exact h.branch
  case leaf =>
    rintro l k hn u _ ⟨rfl, hu⟩
    exact ⟨rfl, rfl, h.leaf l k hn hu⟩

theorem execute (hn : n ∈ root.nodes) (hw : I w) (hrun : n.execute e fuel w = some (s, w')) :
    I w' := by
  have hends := h.lockstep.execute_ends hn fuel w w ⟨rfl, hw⟩
  rw [hrun] at hends
  cases hends with
  | some hrel => exact hrel.2.2

theorem closeStale (stale : List NodeId) (hw : I w) : I (Tree.closeStale e root stale w) :=
  (h.lockstep.closeStale stale ⟨rfl, hw⟩).2

end Sustains
end BehaviorTrees
