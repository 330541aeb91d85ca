import BehaviorTrees.Proofs.Tree.OpenNodes

/-!
# Finishing and opening again

A node that finishes closes those nodes below it that its tick has entered.  Others may have been
left open by the tick before; they stay open until the root has had its turn.  So a node that is run
again below a node that had finished opens again, unless it is such a one, and a node higher up that
repeats its child comes back to it in the same tick.
-/

namespace BehaviorTrees.Tree

variable {σ : Type} {t : Tree σ} {root n : Node σ} {fuel : Nat} {traced : Bool} {target : σ}
  {b₀ b b₂ : Blackboard} {r : TickResult σ} {rs₁ rs₂ : List (TickResult σ)}

/-- At the end of a tick nothing that it did not enter is open. -/
theorem Tidy.flagged_eq_false (h : Tidy t root b r) {id : NodeId} (hid : ¬Entered id r.history) :
    r.board.flagged t.id id = false := by
  rw [← Bool.not_eq_true, h.flagged_iff]
  exact fun hmem => hid (h.entered id hmem)

theorem not_endsEntering_exit {pre : List Entry} {event : Event} {board : Blackboard}
    (hphase : event.phase = .exit) (id : NodeId) :
    ¬EndsEntering id (pre ++ [.report event board]) := by
  rintro ⟨pre', x, ⟨event', board', rfl, hphase', -⟩, heq | heq⟩
  · obtain ⟨rfl, -⟩ : event = event' ∧ board = board' := by
      simpa using (List.append_inj' heq rfl).2
    simp [hphase] at hphase'
  · rw [List.append_cons pre'] at heq
    simpa using (List.append_inj' heq rfl).2

theorem exists_append_of_not_lt_length {α : Type} {xs ys zs ws : List α} (h : xs ++ ys = zs ++ ws)
    (hlen : ¬zs.length < xs.length) : ∃ mid, zs = xs ++ mid ∧ ys = mid ++ ws := by
  rcases List.append_eq_append_iff.1 h with h | ⟨mid, rfl, rfl⟩
  · exact h
  · obtain rfl : mid = [] := List.eq_nil_of_length_eq_zero (by
      rw [List.length_append] at hlen
      omega)
    exact ⟨[], by simp⟩

/-- When a node of an orderly tree has been left and is not running, exactly those nodes below it
are open that the tick before left open and that this tick has not entered up to then.  The next
time one of the nodes below it is run, in this tick or a later one, it is opened, unless it was
open at that moment and is run in the same tick. -/
theorem reopens_after_finish (hroot : root.ids.Nodup) (ho : root.Orderly t.id)
    (ht : t.root = some root) (hb₀ : b₀.hasTree t.id = false) (hrun : t.Run b₀ rs₁ b)
    (htick : t.tick fuel traced target b = .ok r) (hlater : t.Run r.board rs₂ b₂)
    {pre post : List Entry} {event : Event} {board : Blackboard}
    (hexit : r.history = pre ++ .report event board :: post) (hphase : event.phase = .exit)
    (hstatus : event.status ≠ some .running) (hn : n ∈ root.nodes) (hid : n.id = event.node)
    {d : NodeId} (hd : d ∈ n.ids) :
    (board.flagged t.id d = true ↔ d ∈ t.openNodes b ∧ ¬Entered d pre) ∧
      ∀ mid event' board' rest,
        post ++ rs₂.flatMap TickResult.history = mid ++ .report event' board' :: rest →
        event'.phase = .enter → event'.node = d → ¬Entered d mid →
        (board.flagged t.id d = true ∧ mid.length < post.length) ∨
          ∃ x rest', x.Tells .opening d ∧
            rest = .call d .enter :: x :: .call d .opening :: rest' := by
  have hrest : AtRest t root b := hrun.atRest hroot ho ht (.of_hasTree_eq_false hb₀)
  have htidy := tick_tidy hroot ho ht hrest htick
  have hrec := htidy.trans (hlater.recorded hroot ho ht htidy.atRest)
  have hclean := htidy.clean
  rw [hexit] at hclean
  have hflag : board.flagged t.id d = true ↔ d ∈ t.openNodes b ∧ ¬Entered d pre := by
    rw [hclean.report hphase hstatus n hn hid d hd, hrest.flagged_iff, List.nil_append]
  refine ⟨hflag, ?_⟩
  rintro mid event' board' rest hnext hphase' rfl hmid
  by_cases hopen : board.flagged t.id event'.node = true
  · by_cases hshort : mid.length < post.length
    · exact .inl ⟨hopen, hshort⟩
    -- the node is run in a later tick, and this one has not entered it at all
    obtain ⟨mid', rfl, hmid'⟩ := exists_append_of_not_lt_length hnext hshort
    have hnot : ¬Entered event'.node r.history := by
      rw [entered_append, not_or] at hmid
      simp [hexit, hphase, (hflag.1 hopen).2, hmid.1]
    have hlaterrec := hlater.recorded hroot ho ht htidy.atRest
    have hchronicle := hlaterrec.chronicle
    have hprompt := hlaterrec.prompt
    rw [hmid'] at hchronicle hprompt
    refine .inr (exists_opening_of_next_enter hchronicle hprompt ?_
      (htidy.flagged_eq_false hnot) (fun h => hmid (entered_append.2 (.inr h))) hphase')
    rintro ⟨pre', x, -, heq | heq⟩ <;> simp at heq
  · have hall : r.history ++ rs₂.flatMap TickResult.history =
        (pre ++ [.report event board]) ++ (mid ++ .report event' board' :: rest) := by
      rw [hexit, ← hnext]
      simp
    have hchronicle := hrec.chronicle
    have hprompt := hrec.prompt
    rw [hall] at hchronicle hprompt
    have hbefore := htidy.chronicle
    rw [hexit] at hbefore
    refine .inr (exists_opening_of_next_enter (chronicle_append.1 hchronicle).2
      hprompt.of_append (not_endsEntering_exit hphase _) ?_ hmid hphase')
    rw [← hbefore.flagged_report]
    simpa using hopen

/-! ## A leaf that goes on where it was given up -/

def Entry.report? : Entry → Option (Event × Blackboard)
  | .report event board => some (event, board)
  | _ => none

/-- In the second tick the sequence fails before it comes to the leaf that was running.  It is left
while that leaf is still open, and when it is tried again the leaf is entered and goes on. -/
theorem leaf_open_after_finish :
    ∃ rs b, (ofRoot retriedSequence).Run ∅ rs b ∧ "b" ∈ answeringSequence.ids ∧
      ∃ r ∈ rs.getLast?,
        (∃ y ∈ r.history.filterMap Entry.report?, y.1.phase = .exit ∧
          y.1.node = answeringSequence.id ∧ y.1.status = some .failure ∧
          y.2.flagged "t" "b" = true) ∧
        (r.events.filter (·.node ∈ ["s", "b"])).map (fun x => (x.node, x.phase)) =
          [("s", .enter), ("s", .tick), ("s", .close), ("s", .exit), ("s", .enter),
            ("s", .opening), ("s", .tick), ("b", .enter), ("b", .tick), ("b", .exit),
            ("s", .exit)] := by
  obtain ⟨⟨rs, b⟩, hticks, hlast⟩ :
      ∃ x ∈ (ofRoot retriedSequence).ticks 2 true [[.success], [.failure, .success]] ∅,
        ∃ r ∈ x.1.getLast?,
          (∃ y ∈ r.history.filterMap Entry.report?, y.1.phase = .exit ∧
            y.1.node = answeringSequence.id ∧ y.1.status = some .failure ∧
            y.2.flagged "t" "b" = true) ∧
          (r.events.filter (·.node ∈ ["s", "b"])).map (fun x => (x.node, x.phase)) =
            [("s", .enter), ("s", .tick), ("s", .close), ("s", .exit), ("s", .enter),
              ("s", .opening), ("s", .tick), ("b", .enter), ("b", .tick), ("b", .exit),
              ("s", .exit)] := by
    decide +kernel
  exact ⟨rs, b, Run.nil.ticks hticks, by decide, hlast⟩

theorem mem_history_of_report? {y : Event × Blackboard} {H : List Entry}
    (h : y ∈ H.filterMap Entry.report?) : .report y.1 y.2 ∈ H := by
  obtain ⟨x, hx, hy⟩ := List.mem_filterMap.1 h
  cases x with
  | report event board =>
      obtain rfl : (event, board) = y := by simpa [Entry.report?] using hy
      exact hx
  | call node phase => simp [Entry.report?] at hy
  | reading node now => simp [Entry.report?] at hy

theorem reopens_after_finish_retried :
    ∃ rs b r pre event board post, (ofRoot retriedSequence).Run ∅ rs b ∧
      (ofRoot retriedSequence).tick 2 true [.failure, .success] b = .ok r ∧
      r.history = pre ++ .report event board :: post ∧ event.phase = .exit ∧
      event.status ≠ some .running ∧ answeringSequence.id = event.node ∧
      (board.flagged "t" "b" = true ↔
        "b" ∈ (ofRoot retriedSequence).openNodes b ∧ ¬Entered "b" pre) ∧
      ∀ mid event' board' rest, post = mid ++ .report event' board' :: rest →
        event'.phase = .enter → event'.node = "b" → ¬Entered "b" mid →
        (board.flagged "t" "b" = true ∧ mid.length < post.length) ∨
          ∃ x rest', x.Tells .opening "b" ∧
            rest = .call "b" .enter :: x :: .call "b" .opening :: rest' := by
  obtain ⟨⟨rs, b⟩, hticks, r, hr, y, hy, hphase, hnode, hstatus⟩ :
      ∃ x ∈ (ofRoot retriedSequence).ticks 2 true [[.success]] ∅,
        ∃ r ∈ ((ofRoot retriedSequence).tick 2 true [.failure, .success] x.2).toOption,
          ∃ y ∈ r.history.filterMap Entry.report?, y.1.phase = .exit ∧
            answeringSequence.id = y.1.node ∧ y.1.status ≠ some .running := by
    decide +kernel
  have hrun : (ofRoot retriedSequence).Run ∅ rs b := Run.nil.ticks hticks
  have htick : (ofRoot retriedSequence).tick 2 true [.failure, .success] b = .ok r :=
    tick_eq_ok_of_mem_toOption hr
  obtain ⟨pre, post, hexit⟩ := List.append_of_mem (mem_history_of_report? hy)
  obtain ⟨hflag, hnext⟩ := reopens_after_finish (n := answeringSequence) (d := "b") (by decide)
    retriedSequence_orderly rfl (by decide) hrun htick .nil hexit hphase hstatus
    (Node.mem_nodes_of_kid (List.mem_singleton_self _) answeringSequence.mem_nodes_self) hnode
    (by decide)
  refine ⟨rs, b, r, pre, y.1, y.2, post, hrun, htick, hexit, hphase, hstatus, hnode, hflag, ?_⟩
  intro mid event' board' rest hpost
  exact hnext mid event' board' rest (by simpa using hpost)

end BehaviorTrees.Tree
