import BehaviorTrees.Proofs.Execution.Release

/-!
# The work of a turn

Where all repeaters are bounded, a turn of a node comes to an end whatever is on the blackboard, and
the number of nodes entered in it is at most the `Node.work` of the node.
-/

namespace BehaviorTrees

variable {σ : Type} {e : Setting σ} {fuel : Nat}

/-- How many nodes a decorator enters below itself at most, by how many its child does. -/
def DecoratorKind.work (child : Nat) : DecoratorKind σ → Nat
  | repeater m | repeatUntilSuccess m | repeatUntilFailure m => m.getD 0 * child
  | _ => child

namespace Node

/-- The node is of the library, or a leaf, and is no repeater without a bound. -/
def Bounded : Node σ → Prop
  | composite _ (.custom _) _ | decorator _ (.custom _) _ => False
  | decorator _ (.repeater m) _ | decorator _ (.repeatUntilSuccess m) _
  | decorator _ (.repeatUntilFailure m) _ => m.isSome = true
  | _ => True

mutual

/-- How many nodes a turn of a node enters at most. -/
def work : Node σ → Nat
  | composite _ _ cs => workOf cs + 1
  | decorator _ _ none => 1
  | decorator _ k (some c) => k.work (work c) + 1
  | leaf _ _ => 1

def workOf : List (Node σ) → Nat
  | [] => 0
  | c :: rest => work c + workOf rest

end

theorem workOf_drop_le (start : Nat) (cs : List (Node σ)) : workOf (cs.drop start) ≤ workOf cs := by
  induction cs generalizing start with
  | nil => simp
  | cons c rest ih =>
      cases start with
      | zero => exact Nat.le_refl _
      | succ start =>
          rw [List.drop_succ_cons, workOf]
          have hrest := ih start
          omega

end Node

/-! ## Nodes entered -/

namespace Traversal

variable {n : Node σ} {w : Traversal σ}

theorem count_begin : (w.begin e n).count = w.count + 1 := by
  rw [begin]
  split
  · rfl
  · exact (startUp_calm (w.enter e n) n).count

theorem count_sweep {free : Node σ → Traversal σ → Traversal σ}
    (hfree : ∀ m w, (free m w).count = w.count) (ids : List NodeId) (w : Traversal σ) :
    (sweep e n free ids w).count = w.count :=
  sweep_keeps (I := fun u => u.count = w.count) (fun m _ u hu => (hfree m u).trans hu) ids rfl

theorem count_releaseWithin (levels : Nat) (n : Node σ) (w : Traversal σ) :
    (w.releaseWithin e levels n).count = w.count :=
  releaseWithin_keeps (I := fun u => u.count = w.count) (fun _ _ _ hu => hu) (fun _ _ _ hu => hu)
    levels rfl

theorem count_finish (s : Status) : (w.finish e n s).count = w.count := by
  rw [finish]
  split
  · rfl
  · exact count_releaseWithin w.stack.length n w

end Traversal

/-! ## Runs that come to an end -/

/-- The run comes to an end, and enters at most so many nodes. -/
def Exec.Within (work : Nat) (run : Exec σ) : Prop :=
  ∀ w, ∃ s w', run w = some (s, w') ∧ w'.count ≤ w.count + work

section

variable {run : Exec σ} {work : Nat} {runs : Node σ → Exec σ} {cs : List (Node σ)}

theorem scan_within (h : ∀ c ∈ cs, (runs c).Within c.work) (pass : Status) (i : Nat)
    (w : Traversal σ) :
    ∃ s j w', scan pass i (cs.map runs) w = some (s, j, w') ∧
      w'.count ≤ w.count + Node.workOf cs := by
  induction cs generalizing i w with
  | nil => exact ⟨pass, i, w, rfl, Nat.le_add_right _ _⟩
  | cons c rest ih =>
      obtain ⟨s, v, hrun, hcount⟩ := h c List.mem_cons_self w
      rw [List.map_cons, scan, hrun, Node.workOf]
      simp only
      split
      · have hrest : ∀ d ∈ rest, (runs d).Within d.work := fun d hd =>
          h d (List.mem_cons_of_mem c hd)
        obtain ⟨s', j, w', hscan, hcount'⟩ := ih hrest (i + 1) v
        exact ⟨s', j, w', hscan, by omega⟩
      · exact ⟨s, i, v, rfl, by omega⟩

theorem scanAll_within (h : ∀ c ∈ cs, (runs c).Within c.work) (pass : Status) :
    (scanAll pass (cs.map runs)).Within (Node.workOf cs) := by
  intro w
  obtain ⟨s, j, w', hscan, hcount⟩ := scan_within h pass 0 w
  exact ⟨s, w', by rw [scanAll, hscan], hcount⟩

theorem scanOn_within (h : ∀ c ∈ cs, (runs c).Within c.work) (id : NodeId) (pass : Status) :
    (scanOn e id pass (cs.map runs)).Within (Node.workOf cs) := by
  intro w
  simp only [scanOn, ← List.map_drop]
  generalize w.rememberedCount e id Key.runningChild = start
  have hlater : ∀ c ∈ cs.drop start, (runs c).Within c.work := fun c hc =>
    h c (List.mem_of_mem_drop hc)
  obtain ⟨s, j, w', hscan, hcount⟩ := scan_within hlater pass start w
  have hdrop := Node.workOf_drop_le start cs
  have hall : w'.count ≤ w.count + Node.workOf cs := by omega
  rw [hscan]
  refine ⟨s, _, rfl, ?_⟩
  split <;> exact hall

theorem turns_within (h : run.Within work) (counts : Status → Bool) (left i : Nat) (s : Status)
    (w : Traversal σ) :
    ∃ s' j w', turns run counts true left i s w = some (s', j, w') ∧
      w'.count ≤ w.count + left * work := by
  induction left generalizing i s w with
  | zero => exact ⟨s, i, w, rfl, by simp⟩
  | succ left ih =>
      obtain ⟨s₁, v, hrun, hcount⟩ := h w
      rw [turns, hrun, Nat.succ_mul]
      simp only
      split
      · obtain ⟨s', j, w', hturns, hcount'⟩ := ih (i + 1) s₁ v
        exact ⟨s', j, w', hturns, by omega⟩
      · exact ⟨s₁, i, v, rfl, by omega⟩

theorem repeatRun_within (fuel : Nat) (h : run.Within work) (id : NodeId) (m : Nat)
    (counts : Status → Bool) (idle : Status) :
    (repeatRun e fuel id (some m) counts idle run).Within (m * work) := by
  intro w
  simp only [repeatRun, Option.isSome_some]
  obtain ⟨s, j, w', hturns, hcount⟩ := turns_within h counts
    (m - w.rememberedCount e id Key.count) (w.rememberedCount e id Key.count) idle w
  have hle : (m - w.rememberedCount e id Key.count) * work ≤ m * work :=
    Nat.mul_le_mul_right work (Nat.sub_le m _)
  have hall : w'.count ≤ w.count + m * work := by omega
  rw [hturns]
  exact ⟨s, _, rfl, hall⟩

theorem limitRun_within (h : run.Within work) (id : NodeId) (m : Nat) :
    (limitRun e id m run).Within work := by
  intro w
  obtain ⟨s, v, hrun, hcount⟩ := h w
  simp only [limitRun, hrun]
  split
  · exact ⟨.failure, w, rfl, by omega⟩
  · refine ⟨s, _, rfl, ?_⟩
    split <;> exact hcount

theorem timeRun_within (h : run.Within work) (id : NodeId) (m : Nat) :
    (timeRun e id m run).Within work := by
  intro w
  obtain ⟨s, v, hrun, hcount⟩ := h (w.readClock e id).2
  simp only [timeRun, hrun]
  exact ⟨_, v, rfl, hcount⟩

theorem invertRun_within (h : run.Within work) : (invertRun run).Within work := by
  intro w
  obtain ⟨s, v, hrun, hcount⟩ := h w
  exact ⟨s.invert, v, by rw [invertRun, hrun], hcount⟩

end

theorem Node.tickWith_within {n : Node σ} (h : n.Bounded)
    (hkids : ∀ c ∈ n.kids, (c.execute e fuel).Within c.work) :
    ∃ inner, n.work = inner + 1 ∧
      (n.tickWith e fuel (n.kids.map (Node.execute e fuel))).Within inner := by
  rcases n with ⟨l, k, cs⟩ | ⟨l, k, _ | c⟩ | ⟨l, k⟩
  · refine ⟨workOf cs, rfl, ?_⟩
    cases k with
    | sequence => exact scanAll_within hkids .success
    | priority => exact scanAll_within hkids .failure
    | memSequence => exact scanOn_within hkids l.id .success
    | memPriority => exact scanOn_within hkids l.id .failure
    | custom design => exact h.elim
  · refine ⟨0, rfl, fun w => ⟨.error, w, ?_, by simp⟩⟩
    cases k with
    | custom design => exact h.elim
    | _ => rfl
  · have hc := hkids c (by simp [kids])
    refine ⟨k.work c.work, rfl, ?_⟩
    cases k with
    | inverter => exact invertRun_within hc
    | limiter m => exact limitRun_within hc l.id m
    | maxTime m => exact timeRun_within hc l.id m
    | repeater m =>
        obtain ⟨m, rfl⟩ := Option.isSome_iff_exists.1 h
        exact repeatRun_within fuel hc l.id m _ _
    | repeatUntilSuccess m =>
        obtain ⟨m, rfl⟩ := Option.isSome_iff_exists.1 h
        exact repeatRun_within fuel hc l.id m _ _
    | repeatUntilFailure m =>
        obtain ⟨m, rfl⟩ := Option.isSome_iff_exists.1 h
        exact repeatRun_within fuel hc l.id m _ _
    | custom design => exact h.elim
  · refine ⟨0, rfl, fun w => ⟨_, _, rfl, ?_⟩⟩
    exact Nat.le_of_eq (k.tick_calm e (leaf l k).info w).count

theorem Node.tickWith_eq_of_bounded {n : Node σ} (h : n.Bounded) (fuel fuel' : Nat)
    (runs : List (Exec σ)) : n.tickWith e fuel runs = n.tickWith e fuel' runs := by
  rcases n with ⟨l, k, cs⟩ | ⟨l, k, c⟩ | ⟨l, k⟩
  · rfl
  · cases k with
    | repeater m | repeatUntilSuccess m | repeatUntilFailure m =>
        obtain ⟨m, rfl⟩ := Option.isSome_iff_exists.1 h
        rfl
    | _ => rfl
  · rfl

/-- Where all repeaters are bounded no fuel is used. -/
theorem Node.execute_eq_of_bounded {n : Node σ} (h : ∀ m ∈ n.nodes, m.Bounded)
    (fuel fuel' : Nat) : n.execute e fuel = n.execute e fuel' := by
  induction n using Node.induct with
  | step n ih =>
      have hkids : n.kids.map (Node.execute e fuel) = n.kids.map (Node.execute e fuel') :=
        List.map_congr_left fun c hc => ih c hc fun m hm => h m (mem_nodes_of_kid hc hm)
      rw [Node.execute_eq, Node.execute_eq, hkids,
        tickWith_eq_of_bounded (h n n.mem_nodes_self) fuel fuel']

/-- A bounded node that holds only bounded ones comes to an end, and enters no more nodes than its
work says. -/
theorem Node.execute_within {n : Node σ} (h : ∀ m ∈ n.nodes, m.Bounded) :
    (n.execute e fuel).Within n.work := by
  induction n using Node.induct with
  | step n ih =>
      intro w
      have hkids : ∀ c ∈ n.kids, (c.execute e fuel).Within c.work := fun c hc =>
        ih c hc fun m hm => h m (mem_nodes_of_kid hc hm)
      obtain ⟨inner, hwork, htick⟩ := tickWith_within (h n n.mem_nodes_self) hkids
      obtain ⟨s, v, hsome, hcount⟩ := htick (w.begin e n)
      refine ⟨s, _, Node.execute_eq_some_iff.2 ⟨v, hsome, rfl⟩, ?_⟩
      rw [Traversal.count_begin] at hcount
      rw [Traversal.count_finish, hwork]
      omega

end BehaviorTrees
