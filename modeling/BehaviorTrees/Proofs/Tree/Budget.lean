import BehaviorTrees.Proofs.Tree.Conduct

/-!
# The budget of a limiter

A limiter counts those runs of its child that came to an end, for as long as the tree lives, and
runs it no more once their number is that of its bound.
-/

namespace BehaviorTrees

variable {σ : Type}

/-! ## Runs within a budget -/

/-- How many of the runs came to an end. -/
def finishedIn (made : List (Nat × Status)) : Nat := made.countP fun r => r.2.isTerminal

/-- Every run was made while less than `m` of them had come to an end. -/
def WithinBudget (m : Nat) (made : List (Nat × Status)) : Prop :=
  ∀ earlier r later, made = earlier ++ r :: later → finishedIn earlier < m

section

variable {m : Nat} {made : List (Nat × Status)} {r : Nat × Status}

@[simp] theorem finishedIn_nil : finishedIn [] = 0 := rfl

theorem finishedIn_append_singleton :
    finishedIn (made ++ [r]) = finishedIn made + if r.2.isTerminal then 1 else 0 := by
  rw [finishedIn, List.countP_append, List.countP_singleton]
  rfl

theorem withinBudget_nil (m : Nat) : WithinBudget m [] := by
  intro earlier r later h
  simp at h

theorem WithinBudget.append_singleton (h : WithinBudget m made) (hlt : finishedIn made < m)
    (r : Nat × Status) : WithinBudget m (made ++ [r]) := by
  intro earlier q later heq
  rcases List.eq_nil_or_concat later with rfl | ⟨later, r', rfl⟩
  · obtain ⟨rfl, -⟩ := List.append_inj' heq rfl
    exact hlt
  · rw [List.concat_eq_append, ← List.cons_append, ← List.append_assoc] at heq
    exact h earlier q later (List.append_inj' heq rfl).1

theorem WithinBudget.finishedIn_le (h : WithinBudget m made) : finishedIn made ≤ m := by
  rcases List.eq_nil_or_concat made with rfl | ⟨earlier, r, rfl⟩
  · simp
  · have hlt := h earlier r [] (List.concat_eq_append ..)
    rw [List.concat_eq_append, finishedIn_append_singleton]
    split <;> omega

end

/-! ## Limiters -/

/-- The number in the memory of a node, where none is zero. -/
def Json.counted (value : Option Json) : Nat := (value.bind Json.natural?).getD 0

/-- The number remembered is that of the runs that came to an end. -/
structure Limited (m : Nat) (ℓ : Ledger) : Prop where
  counted : Json.counted ℓ.count = finishedIn (runsIn ℓ.ever)
  within : WithinBudget m (runsIn ℓ.ever)

/-- A node ran its child once, if that was within the budget, and handed on the answer; else it ran
nothing and failed. -/
def Spent (m : Nat) (before now : List (Nat × Status)) (s : Status) : Prop :=
  (finishedIn before < m ∧ now = [(0, s)]) ∨ (finishedIn before = m ∧ now = [] ∧ s = .failure)

theorem Limited.tick {m : Nat} {ℓ : Ledger} (h : Limited m ℓ) : Limited m ℓ.tick :=
  ⟨by simpa using h.counted, by simpa using h.within⟩

/-- What a run adds to the ledger within the budget. -/
theorem Limited.run {m : Nat} {ℓ : Ledger} (h : Limited m ℓ)
    (hroom : finishedIn (runsIn ℓ.ever) < m) (s : Status) {value : Option Json}
    (hvalue : Json.counted value =
      finishedIn (runsIn ℓ.ever) + if s.isTerminal then 1 else 0) :
    Limited m { ℓ.add [.runs 0 s] with count := value } where
  counted := by simpa [finishedIn_append_singleton] using hvalue
  within := by simpa using h.within.append_singleton hroom (0, s)

/-- Where the budget is spent a limiter fails, and else it runs its child and counts the run if that
came to an end. -/
theorem limitRun_ledger {e : Setting σ} {n : Node σ} {P : List Entry} {run : Exec σ} {m : Nat}
    {w v : Traversal σ} {s : Status}
    (hrun : LoggedAs e n P 0 run)
    (hw : Limited m (w.ledger e n P)) (h : limitRun e n.id m run w = some (s, v)) :
    (finishedIn (runsIn (w.ledger e n P).ever) = m ∧ s = .failure ∧ v = w) ∨
      (finishedIn (runsIn (w.ledger e n P).ever) < m ∧ ∃ value,
        Json.counted value =
            finishedIn (runsIn (w.ledger e n P).ever) + (if s.isTerminal then 1 else 0) ∧
          v.ledger e n P = { (w.ledger e n P).add [.runs 0 s] with count := value }) := by
  have hcount : w.rememberedCount e n.id Key.count = finishedIn (runsIn (w.ledger e n P).ever) :=
    hw.counted
  simp only [limitRun, hcount] at h
  split at h
  · rename_i hfull
    obtain ⟨rfl, rfl⟩ : Status.failure = s ∧ w = v := by simpa using h
    exact .inl ⟨Nat.le_antisymm hw.within.finishedIn_le hfull, rfl, rfl⟩
  · rename_i hroom
    split at h
    · cases h
    · rename_i s₁ u hsome
      obtain ⟨rfl, rfl⟩ : s₁ = s ∧ _ = v := by simpa using h
      refine .inr ⟨Nat.not_le.1 hroom, ?_⟩
      rw [← hrun hsome]
      split
      · exact ⟨_, by simp [Json.counted], Traversal.ledger_remember_count _⟩
      · refine ⟨(u.ledger e n P).count, ?_, rfl⟩
        rw [hrun hsome]
        exact hw.counted

theorem limiter_conduct (l : Label) (m : Nat) (c : Node σ) :
    (Node.decorator l (.limiter m) (some c)).Conduct (fun _ ℓ => Limited m ℓ)
      (fun ℓ s => ∃ before, runsIn ℓ.ever = before ++ runsIn ℓ.ticked ∧
        Spent m before (runsIn ℓ.ticked) s) where
  fresh := ⟨rfl, withinBudget_nil m⟩
  closed h := h
  resumed h := h.tick
  opened {e P w ℓ} h hw := by
    change Limited m (w.ledger e _ P).tick
    rw [hw]
    exact Limited.tick ⟨h.counted, h.within⟩
  ticked {e fuel P w v s} hlogs hw hnone htick := by
    change limitRun e l.id m (c.execute e fuel) w = some (s, v) at htick
    rcases limitRun_ledger (hlogs (k := 0) rfl) hw htick with
      ⟨hfull, rfl, rfl⟩ | ⟨hroom, value, hvalue, hv⟩
    · exact ⟨⟨_, by rw [hnone]; simp, .inr ⟨hfull, by rw [hnone]; rfl, rfl⟩⟩, hw⟩
    · rw [hv]
      refine ⟨⟨runsIn (w.ledger e _ P).ever, ?_, .inl ⟨hroom, ?_⟩⟩, hw.run hroom s hvalue⟩
      · simp [hnone]
      · simp [hnone]

namespace Tree

variable {t : Tree σ} {root n c : Node σ} {l : Label} {m : Nat} {b₀ b : Blackboard}
  {rs : List (TickResult σ)}

/-- Over all the ticks of an orderly tree, whenever a limiter is not at work the number in its
memory is that of the runs of its child that came to an end since the first tick, and no run is made
when that number has reached the bound.  The limiter runs its child, once and with the answer it
then gives itself, exactly where the number is below the bound; else it fails, and nothing of its
own is left on the stack. -/
theorem limiter_within_budget (hroot : root.ids.Nodup) (ho : root.Orderly t.id)
    (ht : t.root = some root) (hb₀ : b₀.hasTree t.id = false) (hrun : t.Run b₀ rs b)
    (hlimiter : n = .decorator l (.limiter m) (some c)) (hn : n ∈ root.nodes) :
    (∀ pre event board post, rs.flatMap TickResult.history = pre ++ .report event board :: post →
        (¬AtWork n.id pre →
          Json.counted (board.get Key.count (.ofNode t.id n.id)) = finishedIn (n.runs pre) ∧
            finishedIn (n.runs pre) ≤ m) ∧
        (event.phase = .exit → event.node = n.id →
          ∃ s before now, event.status = some s ∧ n.runs pre = before ++ now ∧
            n.runs (since .tick n.id pre) = now ∧
            (now = [(0, s)] ↔ finishedIn before < m) ∧
            (¬finishedIn before < m → finishedIn before = m ∧ now = [] ∧ s = .failure ∧
              (∃ w', n.EndsIn t b₀ rs s pre board w') ∧
              ∀ w', n.EndsIn t b₀ rs s pre board w' → ∀ i ∈ n.ids, i ∉ w'.openNodes))) ∧
      Json.counted (b.get Key.count (.ofNode t.id n.id)) =
        finishedIn (n.runs (rs.flatMap TickResult.history)) ∧
      finishedIn (n.runs (rs.flatMap TickResult.history)) ≤ m ∧
      WithinBudget m (n.runs (rs.flatMap TickResult.history)) := by
  have hon : n.Orderly t.id := fun d hd => ho d (Node.mem_nodes_trans hn hd)
  have hc : n.Conduct _ _ := hlimiter ▸ limiter_conduct l m c
  have hend := (hrun.inAccord hroot ho ht hn hc hb₀ List.prefix_rfl).holds
  refine ⟨fun pre event board post hhist => ?_, hend.counted, hend.within.finishedIn_le,
    hend.within⟩
  have hreport := hrun.accounts hroot ho ht hn hc hb₀ hhist
  refine ⟨fun hidle => ?_, fun hphase hnode => ?_⟩
  · obtain ⟨-, hlimited⟩ := hreport.between hidle
    exact ⟨hlimited.counted, hlimited.within.finishedIn_le⟩
  · obtain ⟨s, hstatus, ⟨before, hever, hspent⟩, -, -, hends⟩ := hreport.left hphase hnode
    refine ⟨s, before, n.runs (since .tick n.id pre), hstatus, hever, rfl, ?_⟩
    rcases hspent with ⟨hroom, hnow⟩ | ⟨hfull, hnow, rfl⟩
    · exact ⟨iff_of_true hnow hroom, fun hnot => (hnot hroom).elim⟩
    · have hnone : n.runs (since .tick n.id pre) = [] := hnow
      rw [hnone]
      refine ⟨iff_of_false (by simp) (by omega), fun _ => ⟨hfull, rfl, rfl, hends, ?_⟩⟩
      intro w' hw' i hi
      exact hw'.notMem_openNodes (Node.nodup_ids_of_mem hroot hn) hon (by decide) hi

/-! ## A limiter that is tried again -/

def limitedAnswers : Node (List Status) :=
  .decorator { id := "l", title := "Limiter" } (.limiter 1) (some (answering "a"))

def retriedLimiter : Node (List Status) :=
  .decorator { id := "r", title := "Repeater" } (.repeater (some 2)) (some limitedAnswers)

theorem retriedLimiter_orderly : retriedLimiter.Orderly "t" := by
  intro m hm
  have hmem : m = retriedLimiter ∨ m = limitedAnswers ∨ m = answering "a" := by
    simpa [retriedLimiter, limitedAnswers, answering, Node.nodes] using hm
  rcases hmem with rfl | rfl | rfl
  · trivial
  · trivial
  · exact answering_standard "t" "a"

/-- The child is running in the first tick and succeeds in the second, in which the limiter is run
once more. -/
theorem limiter_within_budget_retried :
    ∃ rs b pre event board post, (ofRoot retriedLimiter).Run ∅ rs b ∧
      rs.flatMap TickResult.history = pre ++ .report event board :: post ∧
      event.phase = .exit ∧ event.node = "l" ∧
      limitedAnswers.runs pre = [(0, .running), (0, .success)] ∧
      event.status = some .failure ∧ limitedAnswers.runs (since .tick "l" pre) = [] ∧
      Json.counted (b.get Key.count (.ofNode "t" "l")) = 1 ∧
      ∃ w', limitedAnswers.EndsIn (ofRoot retriedLimiter) ∅ rs .failure pre board w' ∧
        ∀ i ∈ limitedAnswers.ids, i ∉ w'.openNodes := by
  obtain ⟨⟨rs, b⟩, hticks, hall, x, hx, hphase, hnode, hruns, hnone⟩ :
      ∃ x ∈ (ofRoot retriedLimiter).ticks 0 true [[.running], [.success]] ∅,
        limitedAnswers.runs (x.1.flatMap TickResult.history) = [(0, .running), (0, .success)] ∧
        ∃ y ∈ reports (x.1.flatMap TickResult.history), y.2.1.phase = .exit ∧ y.2.1.node = "l" ∧
          limitedAnswers.runs y.1 = [(0, .running), (0, .success)] ∧
          limitedAnswers.runs (since .tick "l" y.1) = [] := by
    decide +kernel
  have hrun : (ofRoot retriedLimiter).Run ∅ rs b := Run.nil.ticks hticks
  obtain ⟨post, hhist⟩ := exists_of_mem_reports hx
  obtain ⟨heach, hcount, -⟩ := limiter_within_budget (by decide) retriedLimiter_orderly rfl
    (by decide) hrun (n := limitedAnswers) rfl
    (Node.mem_nodes_of_kid (List.mem_singleton_self _) limitedAnswers.mem_nodes_self)
  obtain ⟨s, before, now, hstatus, hbefore, hnow, -, hfull⟩ := (heach _ _ _ _ hhist).2 hphase hnode
  obtain rfl : [] = now := hnone.symm.trans hnow
  obtain rfl : before = [(0, .running), (0, .success)] := by simpa [hruns] using hbefore.symm
  obtain ⟨-, -, rfl, ⟨w', hends⟩, hoff⟩ := hfull (by decide)
  exact ⟨rs, b, x.1, x.2.1, x.2.2, post, hrun, hhist, hphase, hnode, hruns, hstatus, hnone,
    hcount.trans (by rw [hall]; rfl), w', hends, hoff w' hends⟩

end Tree
end BehaviorTrees
