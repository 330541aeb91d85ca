import BehaviorTrees.Proofs.Tree.Conduct

/-!
# Timers

Two nodes read the clock when they are opened and again whenever they are ticked: one that waits for
some time to pass, and one that gives its child a limited time.  What they answer depends on the
time between these two readings, however long ago the first was and whatever has become of the clock
in between.  A clock that has gone back counts as one that stands still.
-/

namespace BehaviorTrees

variable {σ : Type} {e : Setting σ} {fuel : Nat} {n : Node σ} {P : List Entry}
  {w v : Traversal σ} {s : Status} {t₀ : Nat}

/-! ## The time of the opening -/

/-- The node was opened at `t₀`: the first of its deeds since then is to read this time, and it
remembers it. -/
structure Started (t₀ : Nat) (ℓ : Ledger) : Prop where
  opened : [.reads t₀, .ticks] <+: ℓ.opened
  startTime : ℓ.startTime = some (.ofNat t₀)

namespace Started

variable {ℓ : Ledger}

theorem add (h : Started t₀ ℓ) (ds : List Deed) : Started t₀ (ℓ.add ds) :=
  ⟨h.opened.trans (List.prefix_append ..), h.startTime⟩

theorem tick (h : Started t₀ ℓ) : Started t₀ ℓ.tick :=
  ⟨h.opened.trans (List.prefix_append ..), h.startTime⟩

/-- The time that has passed when the clock is read again. -/
theorem elapsed_readClock (h : Started t₀ (w.ledger e n P)) (now : Nat) :
    elapsed e n.id now (w.readClock e n.id).2 = now - t₀ := by
  have hget : (w.readClock e n.id).2.remembered e n.id Key.startTime = some (.ofNat t₀) :=
    h.startTime
  simp [elapsed, hget]

end Started

/-- What a timer does once it is ticked and what it answers, by the time at which it was opened. -/
def Timed (law : Nat → List Deed → Status → Prop) (ℓ : Ledger) (s : Status) : Prop :=
  ∃ t₀, [.reads t₀, .ticks] <+: ℓ.opened ∧ law t₀ ℓ.ticked s

/-- A node that remembers the time of its opening has to be looked at for one tick only. -/
theorem timer_conduct {law : Nat → List Deed → Status → Prop}
    (hrenew : ∀ (e : Setting σ) (w : Traversal σ),
      w.renew e n = w.rememberTime e n.id Key.startTime)
    (htick : ∀ {e : Setting σ} {fuel : Nat} {P : List Entry} {w v : Traversal σ} {s : Status}
      {t₀ : Nat}, n.Logs e fuel P → Started t₀ (w.ledger e n P) →
        n.tickWith e fuel (n.kids.map (Node.execute e fuel)) w = some (s, v) →
        ∃ ds, v.ledger e n P = (w.ledger e n P).add ds ∧ law t₀ ds s) :
    n.Conduct (fun isOpen ℓ => isOpen = true → ∃ t₀, Started t₀ ℓ) (Timed law) where
  fresh := nofun
  closed _ := nofun
  resumed h hopen := by
    obtain ⟨t₀, hstarted⟩ := h hopen
    exact ⟨t₀, hstarted.tick⟩
  opened {e P w ℓ} _ hw _ := by
    have hrenewed : (w.renew e n).ledger e n P =
        { ℓ with
          ever := ℓ.ever ++ [.reads (w.readClock e n.id).1]
          opened := [.reads (w.readClock e n.id).1]
          ticked := ℓ.ticked ++ [.reads (w.readClock e n.id).1]
          startTime := some (.ofNat (w.readClock e n.id).1) } := by
      rw [hrenew, Traversal.rememberTime, Traversal.ledger_remember_startTime,
        Traversal.ledger_readClock, hw]
      rfl
    rw [hrenewed]
    exact ⟨(w.readClock e n.id).1, List.prefix_rfl, rfl⟩
  ticked hlogs hw hnone hticked := by
    obtain ⟨t₀, hstarted⟩ := hw rfl
    obtain ⟨ds, hv, hlaw⟩ := htick hlogs hstarted hticked
    have hafter := hstarted.add ds
    rw [hv]
    refine ⟨⟨t₀, hafter.opened, ?_⟩, fun _ => ⟨t₀, hafter⟩⟩
    rwa [Ledger.add_ticked, hnone]

/-! ## Waiting -/

/-- A node that waits for `ms` reads the clock, and succeeds when so much time has passed. -/
def Waits (ms t₀ : Nat) (ds : List Deed) (s : Status) : Prop :=
  ∃ now, ds = [.reads now] ∧ s = if ms ≤ now - t₀ then .success else .running

theorem wait_conduct (l : Label) (ms : Nat) :
    (Node.leaf l (.wait ms) : Node σ).Conduct
      (fun isOpen ℓ => isOpen = true → ∃ t₀, Started t₀ ℓ) (Timed (Waits ms)) := by
  refine timer_conduct (fun _ _ => rfl) fun {e fuel P w v s t₀} _ hstarted htick => ?_
  set n : Node σ := .leaf l (.wait ms)
  have helapsed := hstarted.elapsed_readClock (w.readClock e n.id).1
  change some (if ms ≤ elapsed e n.id (w.readClock e n.id).1 (w.readClock e n.id).2
    then Status.success else .running, (w.readClock e n.id).2) = some (s, v) at htick
  obtain ⟨rfl, rfl⟩ : _ = s ∧ (w.readClock e n.id).2 = v := by simpa using htick
  exact ⟨_, Traversal.ledger_readClock, _, rfl, by rw [helapsed]⟩

/-! ## Limited time -/

/-- A node that limits the time of its child reads the clock and runs the child whatever it has
read.  If more time has passed it fails, and else it answers as the child does. -/
def LimitsTime (limit t₀ : Nat) (ds : List Deed) (s : Status) : Prop :=
  ∃ now a, ds = [.reads now, .runs 0 a] ∧ s = if limit < now - t₀ then .failure else a

theorem tickWith_maxTime {l : Label} {limit : Nat} {c : Node σ}
    (hn : n = .decorator l (.maxTime limit) (some c))
    (h : n.tickWith e fuel (n.kids.map (Node.execute e fuel)) w = some (s, v)) :
    ∃ a, c.execute e fuel (w.readClock e n.id).2 = some (a, v) ∧
      s = if limit < elapsed e n.id (w.readClock e n.id).1 (w.readClock e n.id).2 then .failure
        else a := by
  subst hn
  change timeRun e l.id limit (c.execute e fuel) w = some (s, v) at h
  simp only [timeRun] at h
  split at h
  · cases h
  · rename_i a u hrun
    obtain ⟨rfl, rfl⟩ : _ = s ∧ u = v := by simpa using h
    exact ⟨a, hrun, rfl⟩

theorem maxTime_conduct (l : Label) (limit : Nat) (c : Node σ) :
    (Node.decorator l (.maxTime limit) (some c)).Conduct
      (fun isOpen ℓ => isOpen = true → ∃ t₀, Started t₀ ℓ) (Timed (LimitsTime limit)) := by
  refine timer_conduct (fun _ _ => rfl) fun {e fuel P w v s t₀} hlogs hstarted htick => ?_
  obtain ⟨a, hrun, hs⟩ := tickWith_maxTime rfl htick
  rw [hstarted.elapsed_readClock] at hs
  refine ⟨_, ?_, _, a, rfl, hs⟩
  rw [hlogs (k := 0) rfl hrun, Traversal.ledger_readClock, Ledger.add_add]
  rfl

/-- The clock is read first of all when the node is ticked, and so before its child is run. -/
theorem Node.EndsIn.reads_first {t : Tree σ} {l : Label} {limit : Nat} {c : Node σ}
    {H : List Entry} {b₀ b : Blackboard} {rs : List (Tree.TickResult σ)} {w' : Traversal σ}
    (h : n.EndsIn t b₀ rs s H b w')
    (hlimit : n = .decorator l (.maxTime limit) (some c)) (hn : n.ids.Nodup)
    (ho : n.Orderly t.id) :
    ∃ now later, since .tick n.id H = .call n.id .tick :: .reading n.id now :: later := by
  obtain ⟨traced, fuel, P, w, u, -, ⟨-, -, v, L, hstages⟩, rfl, -, -⟩ := h
  obtain ⟨a, hrun, -⟩ := tickWith_maxTime hlimit hstages.tick
  have hmeanwhile := (execute_kid hn ho (k := 0) (by rw [hlimit]; rfl) hrun).trans hstages.release
  obtain ⟨later, hu, -, hlater⟩ := hmeanwhile.history
  obtain ⟨K, b, hbegin⟩ : ∃ K b, (w.begin (t.setting traced) n).history =
      K ++ told (t.setting traced) n .tick none b := ⟨_, _, history_tick⟩
  rw [Traversal.history_readClock, hbegin] at hu
  set now := ((w.begin (t.setting traced) n).readClock (t.setting traced) n.id).1
  have hhist : P ++ u.history = P ++ K ++ .report ⟨t.id, n.id, n.name, .tick, none⟩ b ::
      .call n.id .tick :: .reading n.id now :: later := by
    rw [hu]
    simp [told, Tree.setting]
  rw [hhist, since_append_cons (by simp)]
  · exact ⟨now, later, rfl⟩
  · simpa using fun x hx => (hlater x hx).not_tells (by decide)

/-! ## Runs -/

/-- When the node was opened for the last time it first read the time `t₀`, and then it was
ticked. -/
structure Node.OpenedAt (n : Node σ) (t₀ : Nat) (H : List Entry) : Prop where
  opening : ∃ x ∈ H, x.Tells .opening n.id
  reads : [.reads t₀, .ticks] <+: n.deeds (since .opening n.id H)

namespace Tree

variable {t : Tree σ} {root : Node σ} {b₀ b : Blackboard} {rs : List (TickResult σ)}

/-- Over all the ticks of an orderly tree, whenever a timer is left, its answer depends on the time
`t₀` read when it was opened for the last time and on the time `now` read in this tick, which is
read before its child is run if it has one.  The child is run once, whatever the time is; and when
it took too long, none of the nodes entered below the timer is open any more, and each was closed
after it had been entered for the last time. -/
theorem timers_measure_activation (hroot : root.ids.Nodup) (ho : root.Orderly t.id)
    (ht : t.root = some root) (hb₀ : b₀.hasTree t.id = false) (hrun : t.Run b₀ rs b)
    (hn : n ∈ root.nodes) {pre post : List Entry} {event : Event} {board : Blackboard}
    (hhist : rs.flatMap TickResult.history = pre ++ .report event board :: post)
    (hphase : event.phase = .exit) (hnode : event.node = n.id) :
    (∀ l ms, n = .leaf l (.wait ms) → ∃ t₀ now, n.OpenedAt t₀ pre ∧
        n.deeds (since .tick n.id pre) = [.reads now] ∧
        event.status = some (if ms ≤ now - t₀ then .success else .running)) ∧
      ∀ l limit c, n = .decorator l (.maxTime limit) (some c) →
        ∃ t₀ now later a, n.OpenedAt t₀ pre ∧
          since .tick n.id pre = .call n.id .tick :: .reading n.id now :: later ∧
          n.deeds later = [.runs 0 a] ∧
          event.status = some (if limit < now - t₀ then .failure else a) ∧
          (limit < now - t₀ → ∀ d ∈ c.nodes, Entered d.id later →
            board.flagged t.id d.id = false ∧
              ∃ x ∈ since .enter d.id pre, x.Tells .close d.id) := by
  have hnodup := Node.nodup_ids_of_mem hroot hn
  have hon : n.Orderly t.id := fun d hd => ho d (Node.mem_nodes_trans hn hd)
  refine ⟨fun l ms hwait => ?_, fun l limit c hlimit => ?_⟩
  · have hc : n.Conduct _ _ := hwait ▸ wait_conduct l ms
    have hreport := hrun.accounts hroot ho ht hn hc hb₀ hhist
    obtain ⟨s, hstatus, ⟨t₀, hopened, now, hticked, rfl⟩, -, hopening, -⟩ :=
      hreport.left hphase hnode
    exact ⟨t₀, now, ⟨hopening, hopened⟩, hticked, hstatus⟩
  · have hc : n.Conduct _ _ := hlimit ▸ maxTime_conduct l limit c
    have hreport := hrun.accounts hroot ho ht hn hc hb₀ hhist
    obtain ⟨s, hstatus, ⟨t₀, hopened, now, a, hticked, rfl⟩, -, hopening, w', hends⟩ :=
      hreport.left hphase hnode
    obtain ⟨now', later, hsince⟩ := hends.reads_first hlimit hnodup hon
    have hdeeds : n.deeds (since .tick n.id pre) = .reads now' :: n.deeds later := by
      rw [hsince, Node.deeds_call_cons, Node.deeds_reading_cons]
    obtain ⟨hnow, hlater⟩ : Deed.reads now' = .reads now ∧ n.deeds later = [.runs 0 a] :=
      List.cons.inj (hdeeds.symm.trans hticked)
    obtain rfl := Deed.reads.inj hnow
    refine ⟨t₀, now', later, a, ⟨hopening, hopened⟩, hsince, hlater, hstatus, ?_⟩
    intro hover d hd hentered
    have hkid : c ∈ n.kids := by
      rw [hlimit]
      exact List.mem_singleton_self c
    refine hends.closed hnodup hon (by simp [hover])
      (Node.ids_subset_of_kid hkid (Node.id_mem_ids hd)) ?_
    rw [hsince]
    simpa using hentered

/-! ## A child that takes too long -/

def limitedRunner : Node Nat :=
  .decorator { id := "m", title := "MaxTime" } (.maxTime 5)
    (some (.leaf { id := "a", title := "Runner" } .runner))

/-- The clock shows the time that the target tells. -/
def limitedTree : Tree Nat where
  id := "t"
  root := some limitedRunner
  clock := .showing fun now => now

theorem limitedRunner_orderly : limitedRunner.Orderly "t" := by
  intro m hm
  have hmem : m = limitedRunner ∨ m = .leaf { id := "a", title := "Runner" } .runner := by
    simpa [limitedRunner, Node.nodes] using hm
  rcases hmem with rfl | rfl <;> trivial

/-- In the third tick the time is up, after the clock had gone back in the second. -/
theorem timers_measure_activation_late :
    ∃ rs b pre event board post, limitedTree.Run ∅ rs b ∧
      rs.flatMap TickResult.history = pre ++ .report event board :: post ∧
      event.phase = .exit ∧ event.node = "m" ∧ event.status = some .failure ∧
      limitedRunner.OpenedAt 3 pre ∧
      limitedRunner.deeds (since .tick "m" pre) = [.reads 9, .runs 0 .running] ∧
      board.flagged "t" "a" = false ∧ ∃ x ∈ since .enter "a" pre, x.Tells .close "a" := by
  obtain ⟨⟨rs, b⟩, hticks, x, hx, hphase, hnode, hfirst, hticked, hentered, hfailure⟩ :
      ∃ x ∈ limitedTree.ticks 0 true [3, 1, 9] ∅,
        ∃ y ∈ reports (x.1.flatMap TickResult.history), y.2.1.phase = .exit ∧ y.2.1.node = "m" ∧
          (limitedRunner.deeds (since .opening "m" y.1)).head? = some (.reads 3) ∧
          limitedRunner.deeds (since .tick "m" y.1) = [.reads 9, .runs 0 .running] ∧
          Entered "a" (since .tick "m" y.1) ∧ y.2.1.status = some .failure := by
    decide +kernel
  have hrun : limitedTree.Run ∅ rs b := Run.nil.ticks hticks
  obtain ⟨post, hhist⟩ := exists_of_mem_reports hx
  obtain ⟨-, hlimit⟩ := timers_measure_activation (n := limitedRunner) (by decide)
    limitedRunner_orderly rfl (by decide) hrun limitedRunner.mem_nodes_self hhist hphase hnode
  obtain ⟨t₀, now, later, a, hopened, hsince, hlater, hstatus, hclosed⟩ := hlimit _ _ _ rfl
  have hid : limitedRunner.id = "m" := rfl
  obtain rfl : t₀ = 3 := by
    obtain ⟨more, hmore⟩ := hopened.reads
    rw [← hid, ← hmore] at hfirst
    simpa using hfirst
  have hdeeds := hticked
  rw [← hid, hsince, Node.deeds_call_cons, Node.deeds_reading_cons, hlater] at hdeeds
  obtain ⟨rfl, rfl⟩ : now = 9 ∧ a = .running := by simpa using hdeeds
  have hlate : Entered "a" later := by
    rw [← hid, hsince] at hentered
    simpa using hentered
  obtain ⟨hflag, hclose⟩ := hclosed (by decide) (.leaf { id := "a", title := "Runner" } .runner)
    (Node.mem_nodes_self _) hlate
  exact ⟨rs, b, x.1, x.2.1, x.2.2, post, hrun, hhist, hphase, hnode, hfailure, hopened, hticked,
    hflag, hclose⟩

end Tree
end BehaviorTrees
