import BehaviorTrees.Proofs.Tree.Conduct

/-!
# Repetition

A repeater runs its child again for as long as the answers count and their number is below its
bound.  The number is that of one activation of the repeater, and it is kept while the repeater is
running, over as many ticks as that takes.
-/

namespace BehaviorTrees

variable {σ : Type}

/-! ## Rounds -/

/-- How often a child may be run, which of its answers count, and what is answered without a run. -/
structure Repetition where
  bound : Bound
  counts : Status → Bool
  idle : Status

def DecoratorKind.repetition? : DecoratorKind σ → Option Repetition
  | repeater m => some ⟨m, Status.isTerminal, .success⟩
  | repeatUntilSuccess m => some ⟨m, (· == .failure), .error⟩
  | repeatUntilFailure m => some ⟨m, (· == .success), .error⟩
  | _ => none

namespace Repetition

variable {q : Repetition} {i : Nat} {now : List (Nat × Status)}

/-- One more run is allowed when `i` of them were counted. -/
def Allows (q : Repetition) (i : Nat) : Prop := ∀ m ∈ q.bound, i < m

instance (q : Repetition) (i : Nat) : Decidable (q.Allows i) :=
  inferInstanceAs (Decidable (∀ m ∈ q.bound, i < m))

def counted (q : Repetition) (made : List (Nat × Status)) : Nat := made.countP fun r => q.counts r.2

@[simp] theorem counted_nil : q.counted [] = 0 := rfl

theorem counted_append (made made' : List (Nat × Status)) :
    q.counted (made ++ made') = q.counted made + q.counted made' := List.countP_append

theorem counted_cons_of_counts {r : Nat × Status} (h : q.counts r.2 = true) :
    q.counted (r :: now) = q.counted now + 1 := List.countP_cons_of_pos h

theorem counted_cons_of_not_counts {r : Nat × Status} (h : q.counts r.2 = false) :
    q.counted (r :: now) = q.counted now :=
  List.countP_cons_of_neg (by simp [h])

/-- The runs made in one go, when `i` of those before were counted. -/
inductive Rounds (q : Repetition) : Nat → List (Nat × Status) → Prop
  | none {i : Nat} (hfull : ¬q.Allows i) : Rounds q i []
  | last {i : Nat} {s : Status} (hroom : q.Allows i) (hs : q.counts s = false) :
      Rounds q i [(0, s)]
  | next {i : Nat} {s : Status} {now : List (Nat × Status)} (hroom : q.Allows i)
      (hs : q.counts s = true) (hrest : Rounds q (i + 1) now) : Rounds q i ((0, s) :: now)

namespace Rounds

theorem ne_nil_iff (h : Rounds q i now) : now ≠ [] ↔ q.Allows i := by
  cases h with
  | none hfull => simp [hfull]
  | last hroom _ => simp [hroom]
  | next hroom _ _ => simp [hroom]

/-- After a run there is another one if it counts and leaves room. -/
theorem again_iff (h : Rounds q i now) {earlier later : List (Nat × Status)} {r : Nat × Status}
    (hnow : now = earlier ++ r :: later) :
    later ≠ [] ↔ q.counts r.2 = true ∧ q.Allows (i + q.counted (earlier ++ [r])) := by
  induction h generalizing earlier with
  | none => simp at hnow
  | @last i s hroom hs =>
      cases earlier with
      | nil =>
          obtain ⟨rfl, rfl⟩ := List.cons.inj hnow
          simp [hs]
      | cons r' earlier => simp at hnow
  | @next i s now hroom hs hrest ih =>
      cases earlier with
      | nil =>
          obtain ⟨rfl, rfl⟩ := List.cons.inj hnow
          simp [hrest.ne_nil_iff, hs, counted_cons_of_counts]
      | cons r' earlier =>
          obtain ⟨rfl, hlater⟩ := List.cons.inj hnow
          rw [ih hlater, List.cons_append, counted_cons_of_counts hs, Nat.add_right_comm,
            Nat.add_assoc]

theorem counted_le (h : Rounds q i now) {m : Nat} (hm : m ∈ q.bound) (hi : i ≤ m) :
    i + q.counted now ≤ m := by
  induction h with
  | none => simpa using hi
  | last _ hs => simpa [counted_cons_of_not_counts, hs] using hi
  | next hroom hs _ ih =>
      have hlt := hroom m hm
      have hrest := ih (by omega)
      rw [counted_cons_of_counts hs]
      omega

/-- Where the last answer does not count there is room for more. -/
theorem allows_of_getLast? (h : Rounds q i now) {r : Nat × Status} (hr : r ∈ now.getLast?)
    (hs : q.counts r.2 = false) : q.Allows (i + q.counted now) := by
  induction h with
  | none => simp at hr
  | @last i s hroom hs => simpa [counted_cons_of_not_counts, hs] using hroom
  | @next i s now hroom hcounts hrest ih =>
      cases now with
      | nil =>
          obtain rfl : (0, s) = r := by simpa using hr
          simp [hs] at hcounts
      | cons r' now =>
          rw [List.getLast?_cons_cons] at hr
          have hallows := ih hr
          rwa [counted_cons_of_counts hcounts, Nat.add_comm (q.counted _), ← Nat.add_assoc]

/-- Where the answer is that the child is running there is room for more. -/
theorem allows_of_running (h : Rounds q i now) (hrunning : q.counts .running = false)
    (hidle : q.idle ≠ .running) (hs : (now.getLast?.map (·.2)).getD q.idle = .running) :
    q.Allows (i + q.counted now) := by
  cases hlast : now.getLast? with
  | none =>
      rw [hlast] at hs
      exact (hidle hs).elim
  | some r =>
      have hr : r.2 = .running := by simpa [hlast] using hs
      exact h.allows_of_getLast? hlast (by rw [hr]; exact hrunning)

end Rounds
end Repetition

section

variable {e : Setting σ} {n : Node σ} {P : List Entry} {run : Exec σ} {q : Repetition}
  {w v : Traversal σ} {s : Status} {i j left fuel : Nat}

theorem turns_rounds
    (hrun : LoggedAs e n P 0 run)
    (hleft : ∀ m ∈ q.bound, left = m - i) {s₀ : Status}
    (h : turns run q.counts q.bound.isSome left i s₀ w = some (s, j, v)) :
    ∃ now, q.Rounds i now ∧ v.ledger e n P = (w.ledger e n P).add (deedsOf now) ∧
      j = i + q.counted now ∧ s = (now.getLast?.map (·.2)).getD s₀ := by
  induction left generalizing i s₀ w with
  | zero =>
      rw [turns] at h
      split at h
      · rename_i hbounded
        obtain ⟨m, hm⟩ := Option.isSome_iff_exists.1 hbounded
        obtain ⟨rfl, rfl, rfl⟩ : s₀ = s ∧ i = j ∧ w = v := by simpa using h
        refine ⟨[], .none fun hroom => ?_, by simp [deedsOf], by simp, rfl⟩
        have hlt := hroom m hm
        have hzero := hleft m hm
        omega
      · cases h
  | succ left ih =>
      have hroom : q.Allows i := fun m hm => by
        have hsucc := hleft m hm
        omega
      rw [turns] at h
      cases hsome : run w with
      | none => simp [hsome] at h
      | some answer =>
          obtain ⟨s₁, u⟩ := answer
          simp only [hsome] at h
          split at h
          · rename_i hs
            obtain ⟨now, hrounds, hv, rfl, rfl⟩ := ih (fun m hm => by
              have hsucc := hleft m hm
              omega) h
            refine ⟨(0, s₁) :: now, .next hroom hs hrounds, ?_, ?_, ?_⟩
            · rw [hv, hrun hsome, Ledger.add_add]
              rfl
            · rw [Repetition.counted_cons_of_counts hs]
              omega
            · cases now <;> simp [List.getLast?_cons]
          · rename_i hs
            obtain ⟨rfl, rfl, rfl⟩ : s₁ = s ∧ i = j ∧ u = v := by simpa using h
            rw [Bool.not_eq_true] at hs
            exact ⟨[(0, s₁)], .last hroom hs, hrun hsome,
              by rw [Repetition.counted_cons_of_not_counts hs]; rfl, rfl⟩

theorem repeatRun_rounds
    (hrun : LoggedAs e n P 0 run)
    (hcount : (w.ledger e n P).count = some (.ofNat i))
    (h : repeatRun e fuel n.id q.bound q.counts q.idle run w = some (s, v)) :
    ∃ now, q.Rounds i now ∧
      v.ledger e n P =
        { (w.ledger e n P).add (deedsOf now) with count := some (.ofNat (i + q.counted now)) } ∧
      s = (now.getLast?.map (·.2)).getD q.idle := by
  have hstart : w.rememberedCount e n.id Key.count = i := Traversal.rememberedCount_eq hcount
  simp only [repeatRun, hstart] at h
  split at h
  · cases h
  · rename_i s₁ j u hturns
    obtain ⟨rfl, rfl⟩ : s₁ = s ∧ _ = v := by simpa using h
    obtain ⟨now, hrounds, hu, rfl, hs⟩ := turns_rounds hrun (fun m hm => by
      rw [Option.mem_def.1 hm]) hturns
    exact ⟨now, hrounds, by rw [Traversal.ledger_remember_count, hu], hs⟩

end

/-! ## Repeaters -/

/-- What an execution of a repeater makes of its activation: `before` it the child was run, and
`now` it is run again. -/
structure Repeated (q : Repetition) (before now : List (Nat × Status)) (s : Status) : Prop where
  /-- The child is run at all if that is allowed. -/
  first : now ≠ [] ↔ q.Allows (q.counted before)
  /-- After a run there is another one if it counts and leaves room. -/
  again : ∀ earlier r later, now = earlier ++ r :: later →
    (later ≠ [] ↔ q.counts r.2 = true ∧ q.Allows (q.counted (before ++ earlier ++ [r])))
  answer : ∀ r ∈ now.getLast?, s = r.2
  /-- Nothing is run only where nothing is ever allowed. -/
  idle : now = [] ↔ q.bound = some 0
  idle_answer : q.bound = some 0 → s = q.idle
  within : ∀ m ∈ q.bound, q.counted (before ++ now) ≤ m

/-- While a repeater is open it remembers how many of the runs counted, and more are allowed. -/
structure Counting (q : Repetition) (ℓ : Ledger) : Prop where
  count : ℓ.count = some (.ofNat (q.counted (runsIn ℓ.opened)))
  allows : runsIn ℓ.opened ≠ [] → q.Allows (q.counted (runsIn ℓ.opened))

namespace Counting

variable {q : Repetition} {ℓ : Ledger} {now : List (Nat × Status)} {s : Status}

theorem tick (h : Counting q ℓ) : Counting q ℓ.tick :=
  ⟨by simpa using h.count, by simpa using h.allows⟩

theorem counted_le (h : Counting q ℓ) {m : Nat} (hm : m ∈ q.bound) :
    q.counted (runsIn ℓ.opened) ≤ m := by
  by_cases hnil : runsIn ℓ.opened = []
  · simp [hnil]
  · exact Nat.le_of_lt (h.allows hnil m hm)

theorem allows_iff (h : Counting q ℓ) :
    q.Allows (q.counted (runsIn ℓ.opened)) ↔ q.bound ≠ some 0 := by
  by_cases hnil : runsIn ℓ.opened = []
  · rw [hnil, Repetition.counted_nil, Repetition.Allows]
    cases q.bound with
    | none => simp
    | some m => simp [Nat.pos_iff_ne_zero]
  · refine iff_of_true (h.allows hnil) fun hzero => ?_
    exact absurd (h.allows hnil 0 hzero) (by omega)

theorem repeated (h : Counting q ℓ) (hrounds : q.Rounds (q.counted (runsIn ℓ.opened)) now)
    (hs : s = (now.getLast?.map (·.2)).getD q.idle) :
    Repeated q (runsIn ℓ.opened) now s where
  first := hrounds.ne_nil_iff
  again earlier r later hnow := by
    rw [hrounds.again_iff hnow, List.append_assoc, Repetition.counted_append (runsIn ℓ.opened)]
  answer r hr := by rw [hs, Option.mem_def.1 hr]; rfl
  idle := by rw [← not_iff_not, ← ne_eq, hrounds.ne_nil_iff, h.allows_iff]
  idle_answer hzero := by
    have hnone : now = [] := by
      by_contra hne
      exact h.allows_iff.1 (hrounds.ne_nil_iff.1 hne) hzero
    simp [hs, hnone]
  within m hm := by
    rw [Repetition.counted_append]
    exact hrounds.counted_le hm (h.counted_le hm)

end Counting

section

variable {k : DecoratorKind σ} {q : Repetition} (hk : k.repetition? = some q)

include hk

theorem DecoratorKind.running_of_repetition? :
    q.counts .running = false ∧ q.idle ≠ .running := by
  cases k with
  | repeater m => obtain rfl := Option.some.inj hk; exact ⟨rfl, nofun⟩
  | repeatUntilSuccess m => obtain rfl := Option.some.inj hk; exact ⟨rfl, nofun⟩
  | repeatUntilFailure m => obtain rfl := Option.some.inj hk; exact ⟨rfl, nofun⟩
  | _ => cases hk

theorem DecoratorKind.renew_of_repetition? (e : Setting σ) (l : Label) (c : Node σ)
    (w : Traversal σ) :
    w.renew e (.decorator l k (some c)) = w.remember e l.id Key.count (.ofNat 0) := by
  cases k with
  | repeater m => rfl
  | repeatUntilSuccess m => rfl
  | repeatUntilFailure m => rfl
  | _ => cases hk

theorem DecoratorKind.tick_of_repetition? (e : Setting σ) (fuel : Nat) (self : Info)
    (run : Exec σ) :
    k.tick e fuel self (some run) = repeatRun e fuel self.id q.bound q.counts q.idle run := by
  cases k with
  | repeater m => obtain rfl := Option.some.inj hk; rfl
  | repeatUntilSuccess m => obtain rfl := Option.some.inj hk; rfl
  | repeatUntilFailure m => obtain rfl := Option.some.inj hk; rfl
  | _ => cases hk

theorem repeater_conduct (l : Label) (c : Node σ) :
    (Node.decorator l k (some c)).Conduct (fun isOpen ℓ => isOpen = true → Counting q ℓ)
      (fun ℓ s => ∃ before, runsIn ℓ.opened = before ++ runsIn ℓ.ticked ∧
        Repeated q before (runsIn ℓ.ticked) s ∧
        ℓ.count = some (.ofNat (q.counted (runsIn ℓ.opened)))) where
  fresh := nofun
  closed _ := nofun
  resumed h _ := (h rfl).tick
  opened {e P w ℓ} _ hw _ := by
    rw [DecoratorKind.renew_of_repetition? hk]
    have hrenewed : (w.remember e l.id Key.count (.ofNat 0)).ledger e
        (.decorator l k (some c)) P = { ℓ with opened := [], count := some (.ofNat 0) } :=
      Traversal.ledger_remember_count _ |>.trans (by rw [hw])
    rw [hrenewed]
    exact Counting.tick ⟨rfl, fun hne => (hne rfl).elim⟩
  ticked {e fuel P w v s} hlogs hw hnone htick := by
    obtain ⟨hrunning, hidle⟩ := DecoratorKind.running_of_repetition? hk
    have hopen := hw rfl
    change k.tick e fuel _ (some (c.execute e fuel)) w = some (s, v) at htick
    rw [DecoratorKind.tick_of_repetition? hk] at htick
    obtain ⟨now, hrounds, hv, hs⟩ := repeatRun_rounds (hlogs (k := 0) rfl) hopen.count htick
    rw [hv]
    set ℓ := w.ledger e (.decorator l k (some c)) P
    have hopened : runsIn (ℓ.add (deedsOf now)).opened = runsIn ℓ.opened ++ now := by simp
    have hticked : runsIn (ℓ.add (deedsOf now)).ticked = now := by simp [hnone]
    have hcounted : q.counted (runsIn (ℓ.add (deedsOf now)).opened) =
        q.counted (runsIn ℓ.opened) + q.counted now := by
      rw [hopened, Repetition.counted_append]
    refine ⟨⟨runsIn ℓ.opened, ?_, ?_, ?_⟩, fun hrun => ⟨?_, fun _ => ?_⟩⟩
    · rw [hopened, hticked]
    · rw [hticked]
      exact hopen.repeated hrounds hs
    · rw [hcounted]
    · rw [hcounted]
    · rw [hcounted]
      exact hrounds.allows_of_running hrunning hidle (hs ▸ of_decide_eq_true hrun)

end

namespace Tree

variable {t : Tree σ} {root n c : Node σ} {l : Label} {k : DecoratorKind σ} {q : Repetition}
  {b₀ b : Blackboard} {rs : List (TickResult σ)}

/-- Whenever a repeater of an orderly tree is left, its child has been run since it was entered for
as long as the answers counted and their number, over all the activation, was below the bound.  That
number never passes the bound and is the one remembered, and the answer is that of the last run. -/
theorem repeater_counts_activation (hroot : root.ids.Nodup) (ho : root.Orderly t.id)
    (ht : t.root = some root) (hb₀ : b₀.hasTree t.id = false) (hrun : t.Run b₀ rs b)
    (hrepeater : n = .decorator l k (some c)) (hk : k.repetition? = some q) (hn : n ∈ root.nodes)
    {pre post : List Entry} {event : Event} {board : Blackboard}
    (hhist : rs.flatMap TickResult.history = pre ++ .report event board :: post)
    (hphase : event.phase = .exit) (hnode : event.node = n.id) :
    (∃ x ∈ pre, x.Tells .opening n.id) ∧ ∃ s before, event.status = some s ∧
      n.runs (since .opening n.id pre) = before ++ n.runs (since .tick n.id pre) ∧
      Repeated q before (n.runs (since .tick n.id pre)) s ∧
      board.get Key.count (.ofNode t.id n.id) =
        some (.ofNat (q.counted (n.runs (since .opening n.id pre)))) := by
  have hc : n.Conduct _ _ := hrepeater ▸ repeater_conduct hk l c
  have hreport := hrun.accounts hroot ho ht hn hc hb₀ hhist
  obtain ⟨s, hstatus, ⟨before, hmade, hrepeated, hcount⟩, -, hopening, -⟩ :=
    hreport.left hphase hnode
  exact ⟨hopening, s, before, hstatus, hmade, hrepeated, hcount⟩

/-! ## A repeater that is running for a while -/

def repeatedAnswers : Node (List Status) :=
  .decorator { id := "r", title := "Repeater" } (.repeater (some 3)) (some (answering "a"))

theorem repeatedAnswers_orderly : repeatedAnswers.Orderly "t" := by
  intro m hm
  have hmem : m = repeatedAnswers ∨ m = answering "a" := by
    simpa [repeatedAnswers, answering, Node.nodes] using hm
  rcases hmem with rfl | rfl
  · trivial
  · exact answering_standard "t" "a"

/-- One run is counted in the first tick and two in the second, which fills the bound. -/
theorem repeater_counts_activation_resumed :
    ∃ rs b pre event board post, (ofRoot repeatedAnswers).Run ∅ rs b ∧
      rs.flatMap TickResult.history = pre ++ .report event board :: post ∧
      event.phase = .exit ∧ event.node = "r" ∧ event.status = some .success ∧
      repeatedAnswers.runs (since .opening "r" pre) =
        [(0, .success), (0, .running), (0, .failure), (0, .success)] ∧
      Repeated ⟨some 3, Status.isTerminal, .success⟩ [(0, .success), (0, .running)]
        [(0, .failure), (0, .success)] .success ∧
      board.get Key.count (.ofNode "t" "r") = some (.ofNat 3) := by
  obtain ⟨⟨rs, b⟩, hticks, x, hx, hphase, hnode, hopened, hticked, hsuccess⟩ :
      ∃ x ∈ (ofRoot repeatedAnswers).ticks 0 true
          [[.success, .running], [.failure, .success]] ∅,
        ∃ y ∈ reports (x.1.flatMap TickResult.history), y.2.1.phase = .exit ∧ y.2.1.node = "r" ∧
          repeatedAnswers.runs (since .opening "r" y.1) =
            [(0, .success), (0, .running), (0, .failure), (0, .success)] ∧
          repeatedAnswers.runs (since .tick "r" y.1) = [(0, .failure), (0, .success)] ∧
          y.2.1.status = some .success := by
    decide +kernel
  have hrun : (ofRoot repeatedAnswers).Run ∅ rs b := Run.nil.ticks hticks
  obtain ⟨post, hhist⟩ := exists_of_mem_reports hx
  obtain ⟨-, s, before, hstatus, hmade, hrepeated, hcount⟩ :=
    repeater_counts_activation (by decide) repeatedAnswers_orderly rfl (by decide) hrun
      (n := repeatedAnswers) rfl rfl repeatedAnswers.mem_nodes_self hhist hphase hnode
  obtain rfl : Status.success = s := Option.some.inj (hsuccess.symm.trans hstatus)
  have hid : repeatedAnswers.id = "r" := rfl
  rw [hid, hopened, hticked] at hmade
  have hsplit : [(0, .success), (0, .running)] ++ [(0, .failure), (0, .success)] =
      before ++ [(0, .failure), (0, .success)] := hmade
  obtain rfl := List.append_cancel_right hsplit
  rw [hid, hticked] at hrepeated
  rw [hid, hopened] at hcount
  exact ⟨rs, b, x.1, x.2.1, x.2.2, post, hrun, hhist, hphase, hnode, hsuccess, hopened, hrepeated,
    hcount⟩

end Tree
end BehaviorTrees
