import BehaviorTrees.Proofs.Execution.Lockstep
import BehaviorTrees.Proofs.Trace.Chronicle

/-!
# Leaves that keep a log

A leaf of the caller's own may write down in the target, from within each of its hooks and its tick,
that it is being run.  After a run such a log agrees with the calls noted in the journal: what is
noted is run, once and in this order, and nothing is run besides.
-/

namespace BehaviorTrees

variable {σ : Type} {log : σ → List (NodeId × Phase)} {keeps : NodeId → Bool}

/-- What a node that keeps the log adds to it in a step of its life. -/
def logged (keeps : NodeId → Bool) (id : NodeId) (phase : Phase) : List (NodeId × Phase) :=
  if keeps id then [(id, phase)] else []

theorem logged_eq_nil {id : NodeId} (h : keeps id = false) (phase : Phase) :
    logged keeps id phase = [] := by
  simp [logged, h]

/-- Whether they write to the log or not, the hooks of the leaf and its tick add to it what they
should. -/
structure LeafDesign.Logs (log : σ → List (NodeId × Phase)) (keeps : NodeId → Bool) (id : NodeId)
    (design : LeafDesign σ) : Prop where
  hooks : ∀ x ∈ design.hooks.calls, ∀ s : Scene σ, s.self.id = id →
    log (x.2 s).target = log s.target ++ logged keeps id x.1
  tick : ∀ s : Scene σ, s.self.id = id →
    log (design.tick s).2.target = log s.target ++ logged keeps id .tick

/-- Nothing writes to the log but those leaves of the caller's own that keep it. -/
structure Node.KeepsLog (clock : Clock σ) (log : σ → List (NodeId × Phase))
    (keeps : NodeId → Bool) (n : Node σ) : Prop where
  clock : ∀ target, log (clock.read target).2 = log target
  action : ∀ l name act, .leaf l (.runAction name act) ∈ n.nodes → ∀ target b,
    log (act target b).2.target = log target
  custom : ∀ l design, .leaf l (.custom design) ∈ n.nodes → design.Logs log keeps l.id
  others : ∀ m ∈ n.nodes, keeps m.id = true → ∃ l design, m = .leaf l (.custom design)

/-! ## The log and the journal -/

/-- The calls of those nodes that keep the log. -/
def keptCalls (keeps : NodeId → Bool) (H : List Entry) : List (NodeId × Phase) :=
  (H.filterMap Entry.call?).filter fun x => keeps x.1

theorem keptCalls_append (H H' : List Entry) :
    keptCalls keeps (H ++ H') = keptCalls keeps H ++ keptCalls keeps H' := by
  simp [keptCalls]

theorem CallsAsTold.keptCalls_eq {H : List Entry} (h : CallsAsTold H) :
    keptCalls keeps H =
      ((H.filterMap Entry.event?).filter fun x => keeps x.node).map fun x => (x.node, x.phase) := by
  rw [keptCalls, h, List.filter_map]
  rfl

namespace Traversal

variable {e : Setting σ} {w : Traversal σ} {id : NodeId} {phase : Phase}

theorem keptCalls_report (n : Node σ) (status : Option Status) :
    keptCalls keeps (w.report e n phase status).history = keptCalls keeps w.history := by
  simp [history, report, keptCalls, Entry.call?]

theorem keptCalls_readClock :
    keptCalls keeps (w.readClock e id).2.history = keptCalls keeps w.history := by
  simp [history, readClock, keptCalls, Entry.call?]

theorem keptCalls_noteCall :
    keptCalls keeps (w.noteCall id phase).history =
      keptCalls keeps w.history ++ logged keeps id phase := by
  have hhist : (w.noteCall id phase).history = w.history ++ [.call id phase] := by
    simp [history, noteCall]
  rw [hhist, keptCalls_append]
  cases hid : keeps id <;> simp [keptCalls, logged, Entry.call?, hid]

end Traversal

/-! ## Runs -/

/-- From `start` on, the log has grown by the calls noted in the journal. -/
def LogsCalls (log : σ → List (NodeId × Phase)) (keeps : NodeId → Bool)
    (start : List (NodeId × Phase)) (w : Traversal σ) : Prop :=
  log w.target = start ++ keptCalls keeps w.history

namespace LogsCalls

variable {e : Setting σ} {start : List (NodeId × Phase)} {w : Traversal σ} {id : NodeId}

/-- A call that is noted is made up for by what it writes. -/
theorem call {target : σ} (h : LogsCalls log keeps start w) {phase : Phase}
    (htarget : log target = log w.target ++ logged keeps id phase) (b : Blackboard) :
    LogsCalls log keeps start ((w.noteCall id phase).apply ⟨target, b⟩) := by
  have hlog : log target = start ++ (keptCalls keeps w.history ++ logged keeps id phase) := by
    rw [htarget, h, List.append_assoc]
  rw [← Traversal.keptCalls_noteCall] at hlog
  exact hlog

theorem readClock (h : LogsCalls log keeps start w)
    (hclock : ∀ target, log (e.clock.read target).2 = log target) :
    LogsCalls log keeps start (w.readClock e id).2 := by
  rw [LogsCalls, Traversal.keptCalls_readClock]
  exact (hclock w.target).trans h

/-- Nothing is missing from the log where the node does not keep it. -/
theorem note (h : LogsCalls log keeps start w) (hid : keeps id = false) (phase : Phase) :
    LogsCalls log keeps start (w.noteCall id phase) :=
  h.call (by rw [logged_eq_nil hid, List.append_nil]) w.board

end LogsCalls

namespace Node.KeepsLog

variable {e : Setting σ} {n : Node σ} (h : n.KeepsLog e.clock log keeps)

include h

theorem keeps_eq_false {m : Node σ} (hm : m ∈ n.nodes)
    (hcustom : ∀ l design, m ≠ .leaf l (.custom design)) : keeps m.id = false := by
  rw [Bool.eq_false_iff]
  intro hkeeps
  obtain ⟨l, design, rfl⟩ := h.others m hm hkeeps
  exact hcustom l design rfl

theorem leaf {l : Label} {k : LeafKind σ} (hm : .leaf l k ∈ n.nodes)
    {start : List (NodeId × Phase)} {w : Traversal σ} (hw : LogsCalls log keeps start w) :
    LogsCalls log keeps start (k.tick e (Node.leaf l k).info (w.noteCall l.id .tick)).2 := by
  cases k with
  | custom design => exact hw.call ((h.custom l design hm).tick _ rfl) _
  | wait ms => exact (hw.note (h.keeps_eq_false hm nofun) .tick).readClock h.clock
  | runAction name act =>
      have hid : keeps l.id = false := h.keeps_eq_false hm nofun
      refine hw.call ?_ _
      rw [logged_eq_nil hid, List.append_nil]
      exact h.action l name act hm _ _
  | _ => exact hw.note (h.keeps_eq_false hm nofun) .tick

/-- No step of a run lets the log and the journal get out of step. -/
theorem sustains (hn : ∀ m ∈ n.nodes, m.script? = none) (start : List (NodeId × Phase)) :
    Sustains e n (LogsCalls log keeps start) where
  remember hw _ _ _ := hw
  readClock hw _ := hw.readClock h.clock
  push hw _ := hw
  cut hw _ := hw
  report hw _ _ _ := hw.trans (congrArg _ (Traversal.keptCalls_report _ _).symm)
  note _ hm hcustom phase _ hw := hw.note (h.keeps_eq_false hm hcustom) phase
  perform l design hm x hx _ hw := hw.call ((h.custom l design hm).hooks x hx _ rfl) _
  branch := hn
  leaf _ _ hm _ hw := h.leaf hm hw

end Node.KeepsLog
end BehaviorTrees
