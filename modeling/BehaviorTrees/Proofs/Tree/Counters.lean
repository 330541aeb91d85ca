import BehaviorTrees.Proofs.Execution.Visit
import BehaviorTrees.Proofs.Execution.Work
import BehaviorTrees.Proofs.Tree.Repetition

/-!
# Counts stay within their bounds

A limiter and a repeater count runs of their children in their memories, where they find whatever
was left there.  A run that may count is made only while the count is below the bound, so that no
count is raised past it, be it wrong from the start or shared with other nodes of the same id.
-/

namespace BehaviorTrees

variable {σ : Type}

/-! ## Counters -/

/-- Up to which bound a node counts, and which answers. -/
structure Counter where
  bound : Nat
  counts : Status → Bool

namespace Counter

variable {q : Counter} {i : Nat} {answers : List Status}

/-- The count after one more answer. -/
def after (q : Counter) (i : Nat) (s : Status) : Nat := if q.counts s then i + 1 else i

/-- Every answer was asked for while the count, `i` at first, was below the bound. -/
def Admits (q : Counter) : Nat → List Status → Prop
  | _, [] => True
  | i, s :: later => i < q.bound ∧ q.Admits (q.after i s) later

theorem after_le (h : i < q.bound) (s : Status) : q.after i s ≤ q.bound := by
  rw [after]
  split <;> omega

/-- A count is raised no further than to the bound. -/
theorem Admits.foldl_le (h : q.Admits i answers) : answers.foldl q.after i ≤ max i q.bound := by
  induction answers generalizing i with
  | nil => exact Nat.le_max_left ..
  | cons s later ih =>
      obtain ⟨hlt, hlater⟩ := h
      have hafter := after_le hlt s
      have hrest := ih hlater
      rw [List.foldl_cons]
      omega

end Counter

/-- The counter of a decorator that keeps one and has a bound for it. -/
def DecoratorKind.counter? : DecoratorKind σ → Option Counter
  | limiter m => some ⟨m, Status.isTerminal⟩
  | k => k.repetition?.bind fun q => q.bound.map (⟨·, q.counts⟩)

def Node.counter? : Node σ → Option Counter
  | .decorator _ k _ => k.counter?
  | _ => none

/-! ## Ticks of nodes that count -/

/-- Some runs are made, all of them while the count found in memory and raised by those before it
is below the bound, and where they change the count it is written down. -/
def Counted (e : Setting σ) (q : Counter) (id : NodeId) (run : Node σ → Exec σ)
    (kids : List (Node σ)) (w w' : Traversal σ) : Prop :=
  ∃ rs, Course run kids (Calm id) (fun _ => True) w rs w' ∧
    q.Admits (w.rememberedCount e id Key.count) (rs.map (·.2)) ∧
    ((rs.map (·.2)).foldl q.after (w.rememberedCount e id Key.count) ≠
        w.rememberedCount e id Key.count →
      w'.remembered e id Key.count =
        some (.ofNat ((rs.map (·.2)).foldl q.after (w.rememberedCount e id Key.count))))

section

variable {e : Setting σ} {fuel : Nat} {q : Counter} {id : NodeId} {run : Node σ → Exec σ}
  {kids : List (Node σ)} {c : Node σ} {w w' : Traversal σ} {s : Status}

theorem Traversal.remembered_remember_self (w : Traversal σ) (key : String) (value : Json) :
    (w.remember e id key value).remembered e id key = some value := by
  simp [remembered_remember]

theorem Counted.idle (h : Calm id w w') : Counted e q id run kids w w' :=
  ⟨[], .done h, trivial, fun hne => absurd rfl hne⟩

variable (hc : c ∈ kids)

include hc

-- The turns left are those up to the bound, so the induction on them carries the guard along.
theorem turns_counted {quiet : Traversal σ → Traversal σ → Prop} (hrefl : ∀ w, quiet w w)
    {left i j : Nat} {s₀ : Status} (hleft : left = q.bound - i)
    (h : turns (run c) q.counts true left i s₀ w = some (s, j, w')) :
    ∃ rs, Course run kids quiet (fun _ => True) w rs w' ∧ q.Admits i (rs.map (·.2)) ∧
      (rs.map (·.2)).foldl q.after i = j := by
  induction left generalizing i s₀ w with
  | zero =>
      obtain ⟨rfl, rfl, rfl⟩ : s₀ = s ∧ i = j ∧ w = w' := by simpa [turns] using h
      exact ⟨[], .done (hrefl w), trivial, rfl⟩
  | succ left ih =>
      have hroom : i < q.bound := by omega
      rw [turns] at h
      cases hrun : run c w with
      | none => simp [hrun] at h
      | some answer =>
          obtain ⟨s₁, v⟩ := answer
          simp only [hrun] at h
          split at h
          · rename_i hs
            have hafter : q.after i s₁ = i + 1 := if_pos hs
            obtain ⟨rs, hcourse, hadmits, hj⟩ := ih (by omega) h
            refine ⟨(c, s₁) :: rs, .next (hrefl w) hc hrun (fun _ => trivial) hcourse,
              ⟨hroom, ?_⟩, ?_⟩
            · rwa [hafter]
            · rwa [List.map_cons, List.foldl_cons, hafter]
          · rename_i hs
            have hafter : q.after i s₁ = i := if_neg hs
            obtain ⟨rfl, rfl, rfl⟩ : s₁ = s ∧ i = j ∧ v = w' := by simpa using h
            exact ⟨[(c, s₁)], .single hrefl hc hrun, ⟨hroom, trivial⟩, hafter⟩

theorem repeatRun_counted {idle : Status}
    (h : repeatRun e fuel id (some q.bound) q.counts idle (run c) w = some (s, w')) :
    Counted e q id run kids w w' := by
  simp only [repeatRun, Option.isSome_some] at h
  split at h
  · cases h
  · rename_i s₁ j v hturns
    obtain ⟨rs, hcourse, hadmits, rfl⟩ := turns_counted hc (Calm.refl id) rfl hturns
    obtain ⟨rfl, rfl⟩ : s₁ = s ∧ v.remember e id Key.count (.ofNat _) = w' := by simpa using h
    refine ⟨rs, ?_, hadmits, fun _ => v.remembered_remember_self _ _⟩
    exact hcourse.quiet_right (fun _ _ _ => .trans) (Quiet.remember (e := e) v (by decide) _).toCalm

theorem limitRun_counted {m : Nat} (h : limitRun e id m (run c) w = some (s, w')) :
    Counted e ⟨m, Status.isTerminal⟩ id run kids w w' := by
  simp only [limitRun] at h
  split at h
  · obtain ⟨-, rfl⟩ : Status.failure = s ∧ w = w' := by simpa using h
    exact .idle (.refl id w)
  · rename_i hroom
    split at h
    · cases h
    · rename_i s₁ v hrun
      obtain ⟨rfl, rfl⟩ : s₁ = s ∧ _ = w' := by simpa using h
      refine ⟨[(c, s₁)], ?_, ⟨Nat.not_le.1 hroom, trivial⟩, fun hne => ?_⟩
      · apply (Course.single (Calm.refl id) hc hrun).quiet_right fun _ _ _ => .trans
        split
        · exact (Quiet.remember (e := e) v (by decide) _).toCalm
        · exact .refl id v
      · cases hs : s₁.isTerminal with
        | true => simp [Counter.after, hs, Traversal.remembered_remember_self]
        | false => simp [Counter.after, hs] at hne

end

theorem DecoratorKind.counter?_eq_some {k : DecoratorKind σ} {q : Counter}
    (h : k.counter? = some q) :
    k = .limiter q.bound ∧ q.counts = Status.isTerminal ∨
      ∃ r, k.repetition? = some r ∧ r.bound = some q.bound ∧ r.counts = q.counts := by
  cases k with
  | limiter m =>
      obtain rfl := Option.some.inj h
      exact .inl ⟨rfl, rfl⟩
  | inverter | maxTime | custom => cases h
  | repeater m | repeatUntilSuccess m | repeatUntilFailure m =>
      obtain ⟨b, rfl, rfl⟩ := Option.map_eq_some_iff.1 h
      exact .inr ⟨_, rfl, rfl, rfl⟩

theorem Node.tickWith_counted {e : Setting σ} {fuel : Nat} {n : Node σ} {q : Counter}
    {run : Node σ → Exec σ} {w w' : Traversal σ} {s : Status} (hq : n.counter? = some q)
    (h : n.tickWith e fuel (n.kids.map run) w = some (s, w')) :
    Counted e q n.id run n.kids w w' := by
  rcases n with ⟨l, k, cs⟩ | ⟨l, k, _ | c⟩ | ⟨l, k⟩
  · cases hq
  · have hsame : w = w' := by
      cases k with
      | custom design => cases hq
      | _ => exact (show Status.error = s ∧ w = w' by
          simpa [tickWith, kids, DecoratorKind.tick, overChild] using h).2
    exact hsame ▸ .idle (.refl _ w)
  · have hc : c ∈ (Node.decorator l k (some c)).kids := by simp [kids]
    change k.tick e fuel _ (some (run c)) w = some (s, w') at h
    rcases DecoratorKind.counter?_eq_some hq with ⟨rfl, hcounts⟩ | ⟨r, hr, hbound, hcounts⟩
    · obtain ⟨m, counts⟩ := q
      obtain rfl : counts = Status.isTerminal := hcounts
      exact limitRun_counted hc h
    · rw [DecoratorKind.tick_of_repetition? hr, hbound, hcounts] at h
      exact repeatRun_counted hc h
  · cases hq

/-! ## Visits of nodes that count -/

namespace Visit

variable {e : Setting σ} {fuel : Nat} {n : Node σ} {w w' : Traversal σ} {s : Status}

/-- The count a node finds in its memory when it ticks. -/
def found (e : Setting σ) (x : Visit σ) : Nat :=
  (x.start.begin e x.node).rememberedCount e x.node.id Key.count

/-- The count a node has come to at the end of its tick. -/
def reached (e : Setting σ) (q : Counter) (x : Visit σ) : Nat :=
  (x.inner.map status).foldl q.after (x.found e)

/-- A node visits those it holds only while its count is below its bound, and where the count is
raised it is remembered. -/
structure KeepsCount (e : Setting σ) (fuel : Nat) (q : Counter) (x : Visit σ) : Prop where
  admits : q.Admits (x.found e) (x.inner.map status)
  remembers : ∃ v,
    x.node.tickWith e fuel (x.node.kids.map (Node.execute e fuel)) (x.start.begin e x.node) =
      some (x.status, v) ∧
    (x.reached e q ≠ x.found e →
      v.remembered e x.node.id Key.count = some (.ofNat (x.reached e q)))

theorem KeepsCount.reached_le_max {q : Counter} {x : Visit σ} (h : x.KeepsCount e fuel q) :
    x.reached e q ≤ max (x.found e) q.bound :=
  h.admits.foldl_le

/-- A run is a visit in which all nodes that count keep within their bounds. -/
theorem exists_keepsCount_of_execute (h : n.execute e fuel w = some (s, w')) :
    ∃ xs, (Occurs e fuel (mk n w s xs) ∧ ∀ y, Within y (mk n w s xs) →
        ∀ q, y.node.counter? = some q → y.KeepsCount e fuel q) ∧
      w'.passages = w.passages ++ passages e (mk n w s xs) := by
  refine exists_of_execute_of_course (fun _ => True) (fun m _ {w v s} htick => ?_) h
  cases hq : m.counter? with
  | none =>
      obtain ⟨rs, hcourse⟩ := Node.course htick
      exact ⟨rs, hcourse, fun xs _ _ q hsome => nomatch hq.symm.trans hsome⟩
  | some q =>
      obtain ⟨rs, hcourse, hadmits, hremembers⟩ := Node.tickWith_counted hq htick
      refine ⟨rs, hcourse, fun xs hrs _ q' hsome => ?_⟩
      obtain rfl : q = q' := Option.some.inj (hq.symm.trans hsome)
      have hanswers : xs.map status = rs.map (·.2) := by rw [← hrs, List.map_map]; rfl
      rw [← hanswers] at hadmits hremembers
      exact ⟨hadmits, v, htick, hremembers⟩

end Visit
end BehaviorTrees
