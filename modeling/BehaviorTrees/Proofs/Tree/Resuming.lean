import BehaviorTrees.Proofs.Execution.Place
import BehaviorTrees.Proofs.Tree.Conduct
import Mathlib.Data.List.Chain

/-!
# Resuming where a child was running

A composite with a memory begins with its first child when it is opened, goes on to the next one
when a child passes, and begins its next turn with the child that was running.  So in one activation
every child passes once at most, and none is left out.
-/

namespace BehaviorTrees

variable {σ : Type}

/-! ## From child to child -/

/-- The runs made lead on to the child at a position: after each of them either the child passed,
and its successor is next, or it was running and is next again. -/
inductive Progress (pass : Status) : List (Nat × Status) → Nat → Prop
  | start : Progress pass [] 0
  | passed {made : List (Nat × Status)} {j : Nat} (h : Progress pass made j) :
      Progress pass (made ++ [(j, pass)]) (j + 1)
  | kept {made : List (Nat × Status)} {j : Nat} (h : Progress pass made j) :
      Progress pass (made ++ [(j, .running)]) j

/-- The runs of one activation: every run is at the place where the one before left off, no child is
run again that passed, and none is left out. -/
structure InTurn (pass : Status) (made : List (Nat × Status)) : Prop where
  first : ∀ r ∈ made.head?, r.1 = 0
  next : made.IsChain fun r r' =>
    (r.2 = pass ∧ r'.1 = r.1 + 1) ∨ (r.2 = .running ∧ r'.1 = r.1)
  once : made.Pairwise fun r r' => r.2 = pass → r'.1 ≠ r.1
  all : ∀ r ∈ made, ∀ k < r.1, (k, pass) ∈ made

namespace Progress

variable {pass : Status} {made : List (Nat × Status)} {j : Nat}

theorem eq_zero_of_nil (h : Progress pass made j) (hnil : made = []) : j = 0 := by
  cases h with
  | start => rfl
  | passed h => simp at hnil
  | kept h => simp at hnil

theorem of_getLast? (h : Progress pass made j) {r : Nat × Status} (hr : r ∈ made.getLast?) :
    (r.2 = pass ∧ j = r.1 + 1) ∨ (r.2 = .running ∧ j = r.1) := by
  cases h with
  | start => simp at hr
  | passed h =>
      obtain rfl : (_, pass) = r := by simpa using hr
      exact .inl ⟨rfl, rfl⟩
  | kept h =>
      obtain rfl : (_, .running) = r := by simpa using hr
      exact .inr ⟨rfl, rfl⟩

/-- The children that passed are those before the one that is next. -/
theorem mem_iff (h : Progress pass made j) (hpass : pass ≠ .running) {k : Nat} :
    (k, pass) ∈ made ↔ k < j := by
  induction h with
  | start => simp
  | passed h ih =>
      rw [List.mem_append, ih, Nat.lt_succ_iff_lt_or_eq]
      simp
  | kept h ih => simp [ih, hpass]

/-- Whatever comes of it, the next run is at the place where the others left off. -/
theorem inTurn_append (h : Progress pass made j) (hpass : pass ≠ .running)
    (hmade : InTurn pass made) (s : Status) : InTurn pass (made ++ [(j, s)]) where
  first r hr := by
    cases made with
    | nil =>
        obtain rfl : (j, s) = r := by simpa using hr
        exact h.eq_zero_of_nil rfl
    | cons r' made => exact hmade.first r (by simpa using hr)
  next := by
    refine List.isChain_append.2 ⟨hmade.next, List.isChain_singleton _, ?_⟩
    intro r hr r' hr'
    obtain rfl : (j, s) = r' := by simpa using hr'
    exact h.of_getLast? hr
  once := by
    refine List.pairwise_append.2 ⟨hmade.once, List.pairwise_singleton .., ?_⟩
    intro r hr r' hr' hr2
    obtain rfl := List.mem_singleton.1 hr'
    exact Nat.ne_of_gt ((h.mem_iff hpass).1 (hr2 ▸ hr))
  all r hr k hk := by
    rcases List.mem_append.1 hr with hr | hr
    · exact List.mem_append_left _ (hmade.all r hr k hk)
    · obtain rfl := List.mem_singleton.1 hr
      exact List.mem_append_left _ ((h.mem_iff hpass).2 hk)

theorem inTurn (h : Progress pass made j) (hpass : pass ≠ .running) : InTurn pass made := by
  induction h with
  | start => exact ⟨by simp, .nil, .nil, by simp⟩
  | passed h ih => exact h.inTurn_append hpass ih _
  | kept h ih => exact h.inTurn_append hpass ih _

end Progress

/-! ## Scans -/

/-- What a scan makes of an activation: all children that were left pass, or some do and the next
one ends the scan. -/
inductive Scanned (pass : Status) (size : Nat) (made : List (Nat × Status)) :
    List (Nat × Status) → Status → Nat → Prop
  | through {now : List (Nat × Status)} (h : Progress pass (made ++ now) size)
      (hnow : ∀ r ∈ now, r.2 = pass) : Scanned pass size made now pass size
  | upTo {now : List (Nat × Status)} {s : Status} {j : Nat} (h : Progress pass (made ++ now) j)
      (hnow : ∀ r ∈ now, r.2 = pass) (hj : j < size) (hs : s ≠ pass) :
      Scanned pass size made (now ++ [(j, s)]) s j

theorem Scanned.cons {pass s : Status} {size i j : Nat} {made now : List (Nat × Status)}
    (h : Scanned pass size (made ++ [(i, pass)]) now s j) :
    Scanned pass size made ((i, pass) :: now) s j := by
  cases h with
  | through h hnow =>
      rw [← List.append_cons] at h
      exact .through h (List.forall_mem_cons.2 ⟨rfl, hnow⟩)
  | upTo h hnow hj hs =>
      rw [← List.append_cons] at h
      exact .upTo h (List.forall_mem_cons.2 ⟨rfl, hnow⟩) hj hs

section

variable {e : Setting σ} {n : Node σ} {P : List Entry} {runs rest : List (Exec σ)} {pass s : Status}
  {made : List (Nat × Status)} {w v : Traversal σ} {i j : Nat}

theorem scan_scanned
    (hruns : ∀ {k run}, runs[k]? = some run → LoggedAs e n P k run)
    (hrest : runs.drop i = rest) (hi : i ≤ runs.length) (hmade : Progress pass made i)
    (h : scan pass i rest w = some (s, j, v)) :
    ∃ now, Scanned pass runs.length made now s j ∧
      v.ledger e n P = (w.ledger e n P).add (deedsOf now) := by
  induction rest generalizing i w made with
  | nil =>
      obtain ⟨rfl, rfl, rfl⟩ : pass = s ∧ i = j ∧ w = v := by simpa [scan] using h
      obtain rfl : i = runs.length := Nat.le_antisymm hi (List.drop_eq_nil_iff.1 hrest)
      exact ⟨[], .through (by simpa using hmade) (by simp), by simp [deedsOf]⟩
  | cons run rest ih =>
      have hrun : runs[i]? = some run := by
        rw [← List.head?_drop, hrest, List.head?_cons]
      have hlt : i < runs.length := (List.getElem?_eq_some_iff.1 hrun).1
      have hnext : runs.drop (i + 1) = rest := by
        rw [← List.tail_drop, hrest, List.tail_cons]
      rw [scan] at h
      cases hsome : run w with
      | none => simp [hsome] at h
      | some answer =>
          obtain ⟨s₁, u⟩ := answer
          simp only [hsome] at h
          split at h
          · rename_i hs
            subst hs
            obtain ⟨now, hscanned, hv⟩ := ih hnext hlt hmade.passed h
            refine ⟨_, hscanned.cons, ?_⟩
            rw [hv, hruns hrun hsome, Ledger.add_add]
            rfl
          · rename_i hs
            obtain ⟨rfl, rfl, rfl⟩ : s₁ = s ∧ i = j ∧ u = v := by simpa using h
            exact ⟨[] ++ [(i, s₁)], .upTo (by simpa using hmade) (by simp) hlt hs,
              hruns hrun hsome⟩

theorem scanOn_scanned
    (hruns : ∀ {k run}, runs[k]? = some run → LoggedAs e n P k run)
    (hplace : (w.ledger e n P).runningChild = some (.ofNat i)) (hi : i ≤ runs.length)
    (hmade : Progress pass made i) (h : scanOn e n.id pass runs w = some (s, v)) :
    ∃ now j, Scanned pass runs.length made now s j ∧
      (v.ledger e n P).opened = (w.ledger e n P).opened ++ deedsOf now ∧
      (v.ledger e n P).ticked = (w.ledger e n P).ticked ++ deedsOf now ∧
      (s = .running → (v.ledger e n P).runningChild = some (.ofNat j)) := by
  have hstart : w.rememberedCount e n.id Key.runningChild = i :=
    Traversal.rememberedCount_eq hplace
  rw [scanOn_eq_map pass runs hstart] at h
  obtain ⟨⟨s₁, j, u⟩, hscan, heq⟩ := Option.map_eq_some_iff.1 h
  obtain ⟨rfl, rfl⟩ : s₁ = s ∧ _ = v := by simpa using heq
  obtain ⟨now, hscanned, hu⟩ := scan_scanned hruns rfl hi hmade hscan
  refine ⟨now, j, hscanned, ?_⟩
  split
  · rw [Traversal.ledger_remember_runningChild, hu]
    exact ⟨rfl, rfl, fun _ => rfl⟩
  · rename_i hs
    rw [hu]
    exact ⟨rfl, rfl, fun hrunning => (hs hrunning).elim⟩

end

/-! ## Composites with a memory -/

/-- The answer after which a composite goes on to the next child, if it has a memory. -/
def CompositeKind.resumesOn? : CompositeKind σ → Option Status
  | memSequence => some .success
  | memPriority => some .failure
  | _ => none

/-- What an execution of a composite makes of its activation: the runs `made` in it so far, of which
those of this execution come last, and the answer. -/
structure Resumed (pass : Status) (size : Nat) (made now : List (Nat × Status)) (s : Status) :
    Prop extends InTurn pass made where
  suffix : now <:+ made
  /-- An answer other than that of a child that passed is the last one, and is handed on. -/
  stops : ∀ earlier r later, now = earlier ++ r :: later → r.2 ≠ pass → later = [] ∧ s = r.2
  /-- The composite passes where all its children did. -/
  passes : s = pass ↔ ∀ k < size, (k, pass) ∈ made

theorem Scanned.resumed {pass s : Status} {size j : Nat} {made now : List (Nat × Status)}
    (h : Scanned pass size made now s j) (hpass : pass ≠ .running) :
    Resumed pass size (made ++ now) now s := by
  cases h with
  | through h hnow =>
      refine ⟨h.inTurn hpass, ⟨made, rfl⟩, ?_, iff_of_true rfl fun k hk => (h.mem_iff hpass).2 hk⟩
      rintro earlier r later rfl hr
      exact (hr (hnow r (by simp))).elim
  | @upTo now s j h hnow hj hs =>
      rw [← List.append_assoc]
      refine ⟨h.inTurn_append hpass (h.inTurn hpass) s, ⟨made, by simp⟩, ?_, ?_⟩
      · intro earlier r later heq hr
        rcases List.eq_nil_or_concat later with rfl | ⟨later, r', rfl⟩
        · obtain ⟨-, hlast⟩ := List.append_inj' heq rfl
          exact ⟨rfl, congrArg Prod.snd (List.singleton_inj.1 hlast)⟩
        · rw [List.concat_eq_append, ← List.cons_append, ← List.append_assoc] at heq
          have hmem : r ∈ now := by
            rw [(List.append_inj' heq rfl).1]
            simp
          exact (hr (hnow r hmem)).elim
      · -- the child that ended the scan is one of those left
        refine iff_of_false hs fun hall => ?_
        have hmem := hall j hj
        rw [List.mem_append, h.mem_iff hpass] at hmem
        rcases hmem with hlt | hlast
        · exact Nat.lt_irrefl j hlt
        · exact hs (congrArg Prod.snd (List.mem_singleton.1 hlast)).symm

/-- While a composite is open it remembers to which child the runs made have led. -/
def Placed (pass : Status) (size : Nat) (ℓ : Ledger) : Prop :=
  ∃ j ≤ size, Progress pass (runsIn ℓ.opened) j ∧ ℓ.runningChild = some (.ofNat j)

theorem Placed.tick {pass : Status} {size : Nat} {ℓ : Ledger} (h : Placed pass size ℓ) :
    Placed pass size ℓ.tick := by
  simpa [Placed] using h

section

variable {k : CompositeKind σ} {pass : Status} (hk : k.resumesOn? = some pass)

include hk

theorem CompositeKind.ne_running_of_resumesOn? : pass ≠ .running := by
  cases k with
  | memSequence => obtain rfl := Option.some.inj hk; nofun
  | memPriority => obtain rfl := Option.some.inj hk; nofun
  | _ => cases hk

theorem CompositeKind.resumes_of_resumesOn? : k.resumes = true := by
  cases k with
  | memSequence => rfl
  | memPriority => rfl
  | _ => cases hk

theorem CompositeKind.tick_of_resumesOn? (e : Setting σ) (self : Info) (runs : List (Exec σ)) :
    k.tick e self runs = scanOn e self.id pass runs := by
  cases k with
  | memSequence => obtain rfl := Option.some.inj hk; rfl
  | memPriority => obtain rfl := Option.some.inj hk; rfl
  | _ => cases hk

theorem resuming_conduct (l : Label) (cs : List (Node σ)) :
    (Node.composite l k cs).Conduct (fun isOpen ℓ => isOpen = true → Placed pass cs.length ℓ)
      (fun ℓ s => Resumed pass cs.length (runsIn ℓ.opened) (runsIn ℓ.ticked) s) where
  fresh := nofun
  closed _ := nofun
  resumed h hopen := (h hopen).tick
  opened {e P w ℓ} _ hw _ := by
    rw [Traversal.renew_composite, if_pos (CompositeKind.resumes_of_resumesOn? hk)]
    have hrenewed : (w.remember e l.id Key.runningChild (.ofNat 0)).ledger e
        (.composite l k cs) P = { ℓ with opened := [], runningChild := some (.ofNat 0) } :=
      Traversal.ledger_remember_runningChild _ |>.trans (by rw [hw])
    rw [hrenewed]
    exact Placed.tick ⟨0, Nat.zero_le _, .start, rfl⟩
  ticked {e fuel P w v s} hlogs hw hnone htick := by
    have hpass := CompositeKind.ne_running_of_resumesOn? hk
    obtain ⟨i, hi, hmade, hplace⟩ := hw rfl
    change k.tick e _ (cs.map (Node.execute e fuel)) w = some (s, v) at htick
    rw [CompositeKind.tick_of_resumesOn? hk] at htick
    have hruns : ∀ {j run}, (cs.map (Node.execute e fuel))[j]? = some run →
        LoggedAs e (.composite l k cs) P j run := by
      intro j run hrun
      obtain ⟨c, hc, rfl⟩ : ∃ c, cs[j]? = some c ∧ Node.execute e fuel c = run := by
        simpa using hrun
      exact hlogs hc
    obtain ⟨now, j, hscanned, hopened, hticked, hnext⟩ :=
      scanOn_scanned hruns hplace (by simpa using hi) hmade htick
    rw [List.length_map] at hscanned
    rw [hnone] at hticked
    rw [hopened, hticked]
    simp only [runsIn_append, runsIn_deedsOf, List.nil_append]
    refine ⟨hscanned.resumed hpass, fun hrunning => ?_⟩
    obtain rfl := of_decide_eq_true hrunning
    cases hscanned with
    | through => exact (hpass rfl).elim
    | @upTo now _ j h hnow hj hs =>
        refine ⟨j, Nat.le_of_lt hj, ?_, hnext rfl⟩
        rw [hopened, runsIn_append, runsIn_deedsOf, ← List.append_assoc]
        exact h.kept

end

namespace Tree

variable {t : Tree σ} {root n : Node σ} {l : Label} {k : CompositeKind σ} {cs : List (Node σ)}
  {pass : Status} {b₀ b : Blackboard} {rs : List (TickResult σ)}

/-- Whenever a composite with a memory is left, in any tick of an orderly tree, the runs of its
children since it was opened began with the first child and went on from each one that passed to the
next, and from each one that was running to the same one again.  A child that answered otherwise, or
is running, was the last one to be run; its answer is that of the composite, which is open after
that only if it is running.  The composite passes if and only if all its children have. -/
theorem memory_composite_resumes (hroot : root.ids.Nodup) (ho : root.Orderly t.id)
    (ht : t.root = some root) (hb₀ : b₀.hasTree t.id = false) (hrun : t.Run b₀ rs b)
    (hcomposite : n = .composite l k cs) (hk : k.resumesOn? = some pass) (hn : n ∈ root.nodes)
    {pre post : List Entry} {event : Event} {board : Blackboard}
    (hhist : rs.flatMap TickResult.history = pre ++ .report event board :: post)
    (hphase : event.phase = .exit) (hnode : event.node = n.id) :
    (∃ x ∈ pre, x.Tells .opening n.id) ∧
      ∃ s, event.status = some s ∧ board.flagged t.id n.id = decide (s = .running) ∧
        Resumed pass cs.length (n.runs (since .opening n.id pre)) (n.runs (since .tick n.id pre))
          s := by
  have hc : n.Conduct _ _ := hcomposite ▸ resuming_conduct hk l cs
  have hreport := hrun.accounts hroot ho ht hn hc hb₀ hhist
  obtain ⟨s, hstatus, hresumed, hflag, hopening, -⟩ := hreport.left hphase hnode
  exact ⟨hopening, s, hstatus, hflag, hresumed⟩

/-! ## A sequence that goes on in a later tick -/

def resumedSequence : Node (List Status) :=
  .composite { id := "s", title := "MemSequence" } .memSequence [answering "a", answering "b"]

theorem resumedSequence_orderly : resumedSequence.Orderly "t" := by
  intro m hm
  have hmem : m = resumedSequence ∨ m = answering "a" ∨ m = answering "b" := by
    simpa [resumedSequence, answering, Node.nodes, Node.nodesOf] using hm
  rcases hmem with rfl | rfl | rfl
  · trivial
  · exact answering_standard "t" "a"
  · exact answering_standard "t" "b"

/-- The second child is running in the first tick; the second tick begins with it and does not ask
the first child again. -/
theorem memory_composite_resumes_second_child :
    ∃ rs b pre event board post, (ofRoot resumedSequence).Run ∅ rs b ∧
      rs.flatMap TickResult.history = pre ++ .report event board :: post ∧
      event.phase = .exit ∧ event.node = "s" ∧ event.status = some .success ∧
      board.flagged "t" "s" = false ∧
      Resumed .success 2 [(0, .success), (1, .running), (1, .success)] [(1, .success)]
        .success := by
  obtain ⟨⟨rs, b⟩, hticks, x, hx, hphase, hnode, hopened, hticked, hsuccess⟩ :
      ∃ x ∈ (ofRoot resumedSequence).ticks 0 true [[.success, .running], [.success]] ∅,
        ∃ y ∈ reports (x.1.flatMap TickResult.history), y.2.1.phase = .exit ∧ y.2.1.node = "s" ∧
          resumedSequence.runs (since .opening "s" y.1) =
            [(0, .success), (1, .running), (1, .success)] ∧
          resumedSequence.runs (since .tick "s" y.1) = [(1, .success)] ∧
          y.2.1.status = some .success := by
    decide +kernel
  have hrun : (ofRoot resumedSequence).Run ∅ rs b := Run.nil.ticks hticks
  obtain ⟨post, hhist⟩ := exists_of_mem_reports hx
  obtain ⟨-, s, hstatus, hflag, hresumed⟩ :=
    memory_composite_resumes (by decide) resumedSequence_orderly rfl (by decide) hrun
      (n := resumedSequence) rfl rfl resumedSequence.mem_nodes_self hhist hphase hnode
  obtain rfl : Status.success = s := Option.some.inj (hsuccess.symm.trans hstatus)
  have hid : resumedSequence.id = "s" := rfl
  rw [hid, hopened, hticked] at hresumed
  exact ⟨rs, b, x.1, x.2.1, x.2.2, post, hrun, hhist, hphase, hnode, hsuccess, hflag, hresumed⟩

end Tree
end BehaviorTrees
