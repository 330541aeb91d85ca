import BehaviorTrees.Word
import BehaviorTrees.Proofs.Execution.Descent
import BehaviorTrees.Proofs.Tree.Counters
import BehaviorTrees.Proofs.Tree.Halting
import BehaviorTrees.Proofs.Tree.TickTrace

/-!
# Bounded trees come to an end

A tick of a tree whose repeaters all have a bound has an answer on any blackboard, without fuel and
with releases that only go down the tree.  It enters no more nodes than the work of the root says,
and no node counts past its bound.
-/

namespace BehaviorTrees

variable {σ : Type} {e : Setting σ} {fuel : Nat} {n : Node σ} {w w' : Traversal σ} {s : Status}

/-! ## The number of nodes entered -/

theorem Event.ofPhase_enter_passages (E : List Event) :
    ofPhase .enter (passages E) = ofPhase .enter E := by
  rw [ofPhase, passages, List.filter_filter, ofPhase]
  congr 1
  funext x
  by_cases hx : x.phase = .enter <;> simp [isPassage, hx]

namespace Traversal

/-- As many nodes are counted as are reported to be entered. -/
def Tallies (w : Traversal σ) : Prop := (Event.ofPhase .enter w.passages).length = w.count

theorem Tallies.of_eq (hw : w.Tallies) (hpassages : w'.passages = w.passages)
    (hcount : w'.count = w.count) : w'.Tallies := by
  rw [Tallies, hpassages, hcount]
  exact hw

theorem Tallies.begin (hw : w.Tallies) : (w.begin e n).Tallies := by
  rw [Tallies, passages_begin, count_begin, ← hw, Event.ofPhase, List.filter_append,
    List.length_append]
  rfl

theorem Tallies.finish (hw : w.Tallies) : (w.finish e n s).Tallies := by
  rw [Tallies, passages_finish, count_finish, ← hw, Event.ofPhase, List.filter_append,
    List.length_append]
  rfl

theorem Tallies.execute (hw : w.Tallies) (h : n.execute e fuel w = some (s, w')) :
    w'.Tallies := by
  induction n using Node.induct generalizing w w' s with
  | step n ih =>
      obtain ⟨v, htick, rfl⟩ := Node.execute_eq_some_iff.1 h
      obtain ⟨rs, hcourse⟩ := Node.course htick
      have hv : v.Tallies := hcourse.keeps
        (fun hcalm hu => hu.of_eq (passages_of_calm hcalm) hcalm.count)
        (fun c hc _ _ _ hrun hu => ih c hc hu hrun) hw.begin
      exact hv.finish

end Traversal

namespace Tree

variable {t : Tree σ} {root : Node σ} {traced : Bool} {target : σ} {b : Blackboard}
  {r : TickResult σ}

theorem count_afterDiff (t : Tree σ) (root : Node σ) (traced : Bool) (b : Blackboard)
    (w : Traversal σ) : (t.afterDiff root traced b w).count = w.count :=
  Traversal.count_sweep (fun m w => Traversal.count_releaseWithin w.stack.length m w) _ w

/-- Whatever the tree and the blackboard, the number a tick stores is that of the nodes it enters. -/
theorem nodeCount_eq_length_entered (ht : t.root = some root)
    (htick : t.tick fuel traced target b = .ok r) :
    t.nodeCount r.board = (Event.ofPhase .enter r.events).length := by
  obtain ⟨s, w, hrun, rfl⟩ := (tick_eq_ok_iff ht).1 htick
  have hw : w.Tallies := .execute (w := { target, board := b }) rfl hrun
  have hafter : (t.afterDiff root traced b w).Tallies :=
    hw.of_eq (passages_afterDiff ..) (count_afterDiff ..)
  rw [nodeCount_keepRecord, ← hafter]
  exact congrArg List.length (Event.ofPhase_enter_passages _)

/-! ## Ticks of bounded trees -/

/-- A tick of a tree whose repeaters all have a bound gives, whatever is on the blackboard and
whichever nodes share an id, one and the same result with any fuel; all that may be released in it
is released going down the tree.  It enters at most so many nodes as the work of the root says.
Every node visited that counts runs of its child does so only below its bound, and thereby raises
no count past it, so that all counts of 64 bits remain such. -/
theorem tick_terminates_of_bounded (ht : t.root = some root)
    (hbounded : ∀ m ∈ root.nodes, m.Bounded) (traced : Bool) (target : σ) (b : Blackboard) :
    (∀ (m : Node σ) (w : Traversal σ),
      w.release (t.setting traced) m = w.releaseDown (t.setting traced) m) ∧
    ∃ r, t.nodeCount r.board = (Event.ofPhase .enter r.events).length ∧
      (Event.ofPhase .enter r.events).length ≤ root.work ∧
      ∀ fuel, t.tick fuel traced target b = .ok r ∧
        ∃ x : Visit σ, x.Occurs (t.setting traced) fuel ∧ x.node = root ∧
          x.start = { target, board := b } ∧ x.status = r.status ∧
          Event.passages r.events = x.passages (t.setting traced) ∧
          ∀ y : Visit σ, y.Within x → ∀ q, y.node.counter? = some q →
            y.KeepsCount (t.setting traced) fuel q ∧
            y.reached (t.setting traced) q ≤ max (y.found (t.setting traced)) q.bound ∧
            (y.found (t.setting traced) < Word.count → q.bound < Word.count →
              y.reached (t.setting traced) q < Word.count) := by
  refine ⟨Traversal.release_eq_releaseDown, ?_⟩
  have hwithin : (root.execute (t.setting traced) 0).Within root.work :=
    Node.execute_within hbounded
  obtain ⟨s, w, hrun, hcount⟩ := hwithin { target, board := b }
  have htick := (tick_eq_ok_iff ht).2 ⟨s, w, hrun, rfl⟩
  have hentered := nodeCount_eq_length_entered ht htick
  refine ⟨_, hentered, ?_, fun fuel => ?_⟩
  · rw [← hentered, nodeCount_keepRecord, count_afterDiff]
    exact (Nat.zero_add root.work) ▸ hcount
  · -- with any fuel the run is the one without
    rw [Node.execute_eq_of_bounded hbounded 0 fuel] at hrun
    refine ⟨(tick_eq_ok_iff ht).2 ⟨s, w, hrun, rfl⟩, ?_⟩
    obtain ⟨xs, ⟨hoccurs, hkeeps⟩, hpassages⟩ := Visit.exists_keepsCount_of_execute hrun
    refine ⟨_, hoccurs, rfl, rfl, rfl, ?_, fun y hy q hq => ?_⟩
    · have hdiff := passages_afterDiff t root traced b w
      rw [hpassages] at hdiff
      exact hdiff
    · have hy := hkeeps y hy q hq
      have hle := hy.reached_le_max
      exact ⟨hy, hle, fun hfound hbound => by omega⟩

/-! ## Nodes that share one count -/

/-- A repeater, a limiter and a leaf of one id. -/
def sharedCount : Node (List Status) :=
  .decorator { id := "x", title := "Repeater" } (.repeater (some 2))
    (some (.decorator { id := "x", title := "Limiter" } (.limiter 3) (some (answering "x"))))

/-- The largest count of 64 bits, a flag that is none, and a list that names what is not there. -/
def wornBoard : Blackboard :=
  (∅ : Blackboard).set Key.count (.ofNat (Word.count - 1)) (.ofNode "t" "x")
    |>.set Key.isOpen (.string "true") (.ofNode "t" "x")
    |>.set Key.openNodes (.array [.string "x", .bool true, .string "y"]) (.ofTree "t")

theorem tick_terminates_of_bounded_shared :
    ∃ r, (∀ fuel, (ofRoot sharedCount).tick fuel false [] wornBoard = .ok r) ∧
      (Event.ofPhase .enter r.events).length = 5 ∧ sharedCount.work = 5 ∧
      ∃ x : Visit (List Status), x.Occurs ((ofRoot sharedCount).setting false) 0 ∧
        x.node = sharedCount ∧ x.start = { target := [], board := wornBoard } ∧
        x.found ((ofRoot sharedCount).setting false) = 0 ∧
        x.KeepsCount ((ofRoot sharedCount).setting false) 0 ⟨2, Status.isTerminal⟩ := by
  have hbounded : ∀ m ∈ sharedCount.nodes, m.Bounded := by
    simp [sharedCount, answering, Node.nodes, Node.Bounded]
  obtain ⟨-, r, -, -, hticks⟩ := tick_terminates_of_bounded (t := ofRoot sharedCount) rfl
    hbounded false [] wornBoard
  obtain ⟨r', hr', hfive⟩ :
      ∃ r ∈ ((ofRoot sharedCount).tick 0 false [] wornBoard).toOption,
        (Event.ofPhase .enter r.events).length = 5 := by
    decide +kernel
  obtain rfl : r' = r :=
    Except.ok.inj ((tick_eq_ok_of_mem_toOption hr').symm.trans (hticks 0).1)
  obtain ⟨-, x, hoccurs, hnode, hstart, -, -, hkeeps⟩ := hticks 0
  have hcounter : x.node.counter? = some ⟨2, Status.isTerminal⟩ := by rw [hnode]; rfl
  refine ⟨r', fun fuel => (hticks fuel).1, hfive, rfl, x, hoccurs, hnode, hstart, ?_, ?_⟩
  · rw [Visit.found, hnode, hstart]
    decide +kernel
  · exact (hkeeps x (.refl x) _ hcounter).1

end Tree
end BehaviorTrees
