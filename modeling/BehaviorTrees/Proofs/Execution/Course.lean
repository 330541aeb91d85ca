import BehaviorTrees.Execution
import BehaviorTrees.Proofs.Node.Orderly

/-!
# Ticks as courses of runs

Whatever its kind, a node that is ticked runs some of the nodes it holds, one after the other, and
in between changes nothing that has to do with the lives of nodes.  `Course` lists these runs with
their answers.  The kinds of the library go on only after a run that finished, and answer that they
are running only if the last run did.
-/

namespace BehaviorTrees

variable {σ : Type}

/-! ## Between two runs -/

/-- No node is entered and none is left; of the clock there may be readings. -/
structure Calm (id : NodeId) (w w' : Traversal σ) : Prop where
  stack : w'.stack = w.stack
  count : w'.count = w.count
  history : ∃ R, (∀ x ∈ R, ∃ now, x = Entry.reading id now) ∧ w'.history = w.history ++ R

/-- Moreover, of the records of the runs only those of the node itself change, and not whether it
is open. -/
structure Quiet (e : Setting σ) (id : NodeId) (w w' : Traversal σ) : Prop extends
    Calm id w w' where
  ofTree : ∀ key ∈ Key.ofTree,
    w'.board.get key (.ofTree e.tree) = w.board.get key (.ofTree e.tree)
  ofNode : ∀ key ∈ Key.ofNode, ∀ i, key = Key.isOpen ∨ i ≠ id →
    w'.remembered e i key = w.remembered e i key

theorem Calm.refl (id : NodeId) (w : Traversal σ) : Calm id w w :=
  ⟨rfl, rfl, [], by simp, by simp⟩

theorem Calm.trans {id : NodeId} {u v w : Traversal σ} (h : Calm id u v) (h' : Calm id v w) :
    Calm id u w := by
  obtain ⟨R, hR, hv⟩ := h.history
  obtain ⟨R', hR', hw⟩ := h'.history
  refine ⟨h'.stack.trans h.stack, h'.count.trans h.count, R ++ R', ?_, ?_⟩
  · intro x hx
    rcases List.mem_append.1 hx with hx | hx
    · exact hR x hx
    · exact hR' x hx
  · rw [hw, hv, List.append_assoc]

theorem Calm.apply (id : NodeId) (w : Traversal σ) (effect : Effect σ) :
    Calm id w (w.apply effect) :=
  ⟨rfl, rfl, [], by simp, by simp [Traversal.apply, Traversal.history]⟩

namespace Quiet

variable {e : Setting σ} {id : NodeId}

theorem refl (e : Setting σ) (id : NodeId) (w : Traversal σ) : Quiet e id w w :=
  ⟨.refl id w, fun _ _ => rfl, fun _ _ _ _ => rfl⟩

theorem trans {u v w : Traversal σ} (h : Quiet e id u v) (h' : Quiet e id v w) :
    Quiet e id u w where
  toCalm := h.toCalm.trans h'.toCalm
  ofTree key hkey := (h'.ofTree key hkey).trans (h.ofTree key hkey)
  ofNode key hkey i hi := (h'.ofNode key hkey i hi).trans (h.ofNode key hkey i hi)

theorem isOpen {w w' : Traversal σ} (h : Quiet e id w w') (i : NodeId) :
    w'.isOpen e i = w.isOpen e i := by
  simp only [Traversal.isOpen, h.ofNode Key.isOpen (by simp [Key.ofNode]) i (.inl rfl)]

/-- A node writes one of its own records. -/
theorem remember (w : Traversal σ) {key : String} (hkey : key ≠ Key.isOpen) (value : Json) :
    Quiet e id w (w.remember e id key value) where
  stack := rfl
  count := rfl
  history := ⟨[], by simp, by simp [Traversal.history]⟩
  ofTree key' _ := by
    simp [Traversal.remember, Blackboard.get_set, Scope.address, Scope.ofTree, Scope.ofNode]
  ofNode key' _ i hi := by
    rw [Traversal.remembered_remember, if_neg]
    rintro ⟨rfl, rfl⟩
    exact hi.elim hkey fun hne => hne rfl

theorem readClock (w : Traversal σ) : Quiet e id w (w.readClock e id).2 where
  stack := rfl
  count := rfl
  history := ⟨[.reading id (w.readClock e id).1], by simp, by
    simp [Traversal.readClock, Traversal.history]⟩
  ofTree _ _ := rfl
  ofNode _ _ _ _ := rfl

theorem apply (w : Traversal σ) {effect : Effect σ}
    (h : w.board.SameRecords e.tree effect.board) : Quiet e id w (w.apply effect) where
  toCalm := .apply id w effect
  ofTree := h.ofTree
  ofNode key hkey i _ := h.ofNode key hkey i

end Quiet

/-- A node of the library does no more than read the clock and write records of its own. -/
inductive Tends (e : Setting σ) (id : NodeId) (w : Traversal σ) : Traversal σ → Prop
  | stay : Tends e id w w
  | reads {v : Traversal σ} (h : Tends e id w v) : Tends e id w (v.readClock e id).2
  | writes {v : Traversal σ} (h : Tends e id w v) {key : String} (hkey : key ≠ Key.isOpen)
      (value : Json) : Tends e id w (v.remember e id key value)

namespace Tends

variable {e : Setting σ} {id : NodeId}

theorem refl (e : Setting σ) (id : NodeId) (w : Traversal σ) : Tends e id w w := .stay

theorem trans {u v w : Traversal σ} (h : Tends e id u v) (h' : Tends e id v w) :
    Tends e id u w := by
  induction h' with
  | stay => exact h
  | reads _ ih => exact ih.reads
  | writes _ hkey value ih => exact ih.writes hkey value

theorem quiet {w w' : Traversal σ} (h : Tends e id w w') : Quiet e id w w' := by
  induction h with
  | stay => exact .refl e id w
  | @reads v _ ih => exact ih.trans (.readClock v)
  | @writes v _ key hkey value ih => exact ih.trans (.remember v hkey value)

end Tends

/-! ## Courses -/

/-- Some of the nodes `kids` are run, one after the other, and answer as listed.  Between the runs
the state changes as `quiet` allows, and after a run there is another only where `more` allows. -/
inductive Course (run : Node σ → Exec σ) (kids : List (Node σ))
    (quiet : Traversal σ → Traversal σ → Prop) (more : Status → Prop) :
    Traversal σ → List (Node σ × Status) → Traversal σ → Prop
  | done {w w' : Traversal σ} (hq : quiet w w') : Course run kids quiet more w [] w'
  | next {w u v w' : Traversal σ} {c : Node σ} {s : Status} {rs : List (Node σ × Status)}
      (hq : quiet w u) (hc : c ∈ kids) (hrun : run c u = some (s, v))
      (hmore : rs ≠ [] → more s) (hrest : Course run kids quiet more v rs w') :
      Course run kids quiet more w ((c, s) :: rs) w'

namespace Course

variable {run : Node σ → Exec σ} {kids : List (Node σ)}
  {quiet quiet' : Traversal σ → Traversal σ → Prop} {more more' : Status → Prop}
  {u w w' : Traversal σ} {rs : List (Node σ × Status)}

theorem mono (h : Course run kids quiet more w rs w') (hq : ∀ u v, quiet u v → quiet' u v)
    (hmore : ∀ s, more s → more' s) : Course run kids quiet' more' w rs w' := by
  induction h with
  | done hquiet => exact .done (hq _ _ hquiet)
  | next hquiet hc hrun hm _ ih => exact .next (hq _ _ hquiet) hc hrun (fun h => hmore _ (hm h)) ih

theorem quiet_left (htrans : ∀ a b c, quiet a b → quiet b c → quiet a c) (hq : quiet u w)
    (h : Course run kids quiet more w rs w') : Course run kids quiet more u rs w' := by
  cases h with
  | done hquiet => exact .done (htrans _ _ _ hq hquiet)
  | next hquiet hc hrun hm hrest => exact .next (htrans _ _ _ hq hquiet) hc hrun hm hrest

theorem quiet_right (htrans : ∀ a b c, quiet a b → quiet b c → quiet a c)
    (h : Course run kids quiet more w rs w') (hq : quiet w' u) :
    Course run kids quiet more w rs u := by
  induction h with
  | done hquiet => exact .done (htrans _ _ _ hquiet hq)
  | next hquiet hc hrun hm _ ih => exact .next hquiet hc hrun hm (ih hq)

/-- Where any run may follow another, a course may go on as another one. -/
theorem append (htrans : ∀ a b c, quiet a b → quiet b c → quiet a c) {rs' : List (Node σ × Status)}
    (h : Course run kids quiet (fun _ => True) u rs w)
    (h' : Course run kids quiet (fun _ => True) w rs' w') :
    Course run kids quiet (fun _ => True) u (rs ++ rs') w' := by
  induction h with
  | done hq => exact h'.quiet_left htrans hq
  | next hq hc hrun _ _ ih => exact .next hq hc hrun (fun _ => trivial) (ih h')

/-- What is kept by all the runs and by all that happens between them is kept by the course. -/
theorem keeps {I : Traversal σ → Prop} (hquiet : ∀ {u v}, quiet u v → I u → I v)
    (hruns : ∀ c ∈ kids, ∀ {u v s}, run c u = some (s, v) → I u → I v)
    (h : Course run kids quiet more w rs w') (hw : I w) : I w' := by
  induction h with
  | done hq => exact hquiet hq hw
  | next hq hc hrun _ _ ih => exact ih (hruns _ hc hrun (hquiet hq hw))

theorem single (hrefl : ∀ w, quiet w w) {c : Node σ} {s : Status} (hc : c ∈ kids)
    (hrun : run c w = some (s, w')) : Course run kids quiet more w [(c, s)] w' :=
  .next (hrefl w) hc hrun (fun h => (h rfl).elim) (.done (hrefl w'))

end Course

/-- The last of the runs listed was still running. -/
def EndsRunning (rs : List (Node σ × Status)) : Prop := ∃ c, rs.getLast? = some (c, .running)

theorem EndsRunning.cons {rs : List (Node σ × Status)} (h : EndsRunning rs)
    (r : Node σ × Status) : EndsRunning (r :: rs) := by
  obtain ⟨c, hc⟩ := h
  exact ⟨c, by simp [List.getLast?_cons, hc]⟩

theorem endsRunning_single (c : Node σ) : EndsRunning [(c, .running)] := ⟨c, rfl⟩

theorem Status.ne_running_of_isTerminal {s : Status} (h : s.isTerminal = true) :
    s ≠ .running := by
  rintro rfl
  cases h

/-- How an answer depends on the runs before it: the last run hands on an answer that is not
terminal, unless the node is late and fails, and only the last run hands on such an answer. -/
structure Answers (late : Prop) (rs : List (Node σ × Status)) (s : Status) : Prop where
  last : ∀ r ∈ rs.getLast?,
    (late → s = .failure) ∧ (¬late → r.2.isTerminal = false → s = r.2)
  own : s.isTerminal = false → rs = [] ∨ ∃ r ∈ rs.getLast?, r.2 = s

namespace Answers

variable {late : Prop} {rs : List (Node σ × Status)} {s : Status}

theorem nil (late : Prop) (s : Status) : Answers late ([] : List (Node σ × Status)) s :=
  ⟨by simp, fun _ => .inl rfl⟩

theorem single (c : Node σ) (s : Status) : Answers False [(c, s)] s :=
  ⟨by simp, fun _ => .inr ⟨_, rfl, rfl⟩⟩

theorem cons (h : Answers late rs s) {r : Node σ × Status} (hr : r.2.isTerminal = true)
    (hnil : rs = [] → ¬late ∧ s.isTerminal = true) : Answers late (r :: rs) s := by
  cases rs with
  | nil =>
      obtain ⟨hlate, hs⟩ := hnil rfl
      exact ⟨by simp [hlate, hr], by simp [hs]⟩
  | cons r' rs =>
      have hlast : (r :: r' :: rs).getLast? = (r' :: rs).getLast? := List.getLast?_cons_cons
      exact ⟨hlast ▸ h.last, fun hs => .inr (hlast ▸ (h.own hs).resolve_left (by simp))⟩

theorem endsRunning (h : Answers late rs s) (hnil : rs = [] → s ≠ .running)
    (hs : s = .running) : EndsRunning rs := by
  subst hs
  obtain hrs | ⟨r, hr, heq⟩ := h.own rfl
  · exact absurd rfl (hnil hrs)
  · exact ⟨r.1, heq ▸ hr⟩

end Answers

/-! ## The loops of the library -/

section

variable {run : Node σ → Exec σ} {kids : List (Node σ)}
  {quiet : Traversal σ → Traversal σ → Prop} {w w' : Traversal σ} {s : Status}

theorem scan_course (hrefl : ∀ w, quiet w w) {pass : Status} (hpass : pass.isTerminal = true)
    {cs : List (Node σ)} (hcs : cs ⊆ kids) {i j : Nat}
    (h : scan pass i (cs.map run) w = some (s, j, w')) :
    ∃ rs, Course run kids quiet (·.isTerminal = true) w rs w' ∧ Answers False rs s ∧
      (rs = [] → s = pass) := by
  induction cs generalizing i w with
  | nil =>
      obtain ⟨rfl, rfl, rfl⟩ : pass = s ∧ i = j ∧ w = w' := by simpa [scan] using h
      exact ⟨[], .done (hrefl w), .nil _ _, fun _ => rfl⟩
  | cons c rest ih =>
      have hc : c ∈ kids := hcs List.mem_cons_self
      rw [List.map_cons, scan] at h
      cases hrun : run c w with
      | none => simp [hrun] at h
      | some answer =>
          obtain ⟨s₁, v⟩ := answer
          simp only [hrun] at h
          split at h
          · rename_i hs
            obtain ⟨rs, hcourse, hanswer, hnil⟩ :=
              ih (fun d hd => hcs (List.mem_cons_of_mem _ hd)) h
            refine ⟨(c, s₁) :: rs, .next (hrefl w) hc hrun (fun _ => hs ▸ hpass) hcourse, ?_,
              by simp⟩
            exact hanswer.cons (hs ▸ hpass) fun hrs => ⟨id, hnil hrs ▸ hpass⟩
          · obtain ⟨rfl, rfl, rfl⟩ : s₁ = s ∧ i = j ∧ v = w' := by simpa using h
            exact ⟨[(c, s₁)], .single hrefl hc hrun, .single c s₁, by simp⟩

theorem turns_course (hrefl : ∀ w, quiet w w) {counts : Status → Bool}
    (hcounts : ∀ s, counts s = true → s.isTerminal = true) {bounded : Bool} {c : Node σ}
    (hc : c ∈ kids) {left i j : Nat} {s₀ : Status}
    (h : turns (run c) counts bounded left i s₀ w = some (s, j, w')) :
    ∃ rs, Course run kids quiet (·.isTerminal = true) w rs w' ∧ Answers False rs s ∧
      (rs = [] → s = s₀) := by
  induction left generalizing i s₀ w with
  | zero =>
      rw [turns] at h
      split at h
      · obtain ⟨rfl, rfl, rfl⟩ : s₀ = s ∧ i = j ∧ w = w' := by simpa using h
        exact ⟨[], .done (hrefl w), .nil _ _, fun _ => rfl⟩
      · cases h
  | succ left ih =>
      rw [turns] at h
      cases hrun : run c w with
      | none => simp [hrun] at h
      | some answer =>
          obtain ⟨s₁, v⟩ := answer
          simp only [hrun] at h
          split at h
          · rename_i hs
            have hterminal := hcounts s₁ hs
            obtain ⟨rs, hcourse, hanswer, hnil⟩ := ih h
            refine ⟨(c, s₁) :: rs, .next (hrefl w) hc hrun (fun _ => hterminal) hcourse, ?_,
              by simp⟩
            exact hanswer.cons hterminal fun hrs => ⟨id, hnil hrs ▸ hterminal⟩
          · obtain ⟨rfl, rfl, rfl⟩ : s₁ = s ∧ i = j ∧ v = w' := by simpa using h
            exact ⟨[(c, s₁)], .single hrefl hc hrun, .single c s₁, by simp⟩

end

/-! ## The kinds of the library -/

section

variable {e : Setting σ} {fuel : Nat} {run : Node σ → Exec σ} {kids : List (Node σ)}
  {id : NodeId} {w w' : Traversal σ} {s : Status}

/-- Some of the nodes `kids` are run as a node of the library does it. -/
def StandardCourse (e : Setting σ) (id : NodeId) (run : Node σ → Exec σ) (kids : List (Node σ))
    (w : Traversal σ) (rs : List (Node σ × Status)) (w' : Traversal σ) : Prop :=
  Course run kids (Quiet e id) (·.isTerminal = true) w rs w'

/-- More time than a limit allows has passed when the clock is read. -/
def Overdue (e : Setting σ) (id : NodeId) (maxTime : Nat) (w : Traversal σ) : Prop :=
  maxTime < elapsed e id (w.readClock e id).1 (w.readClock e id).2

instance (e : Setting σ) (id : NodeId) (maxTime : Nat) (w : Traversal σ) :
    Decidable (Overdue e id maxTime w) := inferInstanceAs (Decidable (_ < _))

/-- A node of the library that is no leaf goes on only after a run that finished, and in between
sees to nothing but its own records. -/
def StandardAnswer (e : Setting σ) (id : NodeId) (late : Prop) (run : Node σ → Exec σ)
    (kids : List (Node σ)) (w : Traversal σ) (s : Status) (w' : Traversal σ) : Prop :=
  ∃ rs, Course run kids (Tends e id) (·.isTerminal = true) w rs w' ∧ Answers late rs s ∧
    (rs = [] → s ≠ .running)

theorem scanAll_course {pass : Status} (hpass : pass.isTerminal = true)
    (h : scanAll pass (kids.map run) w = some (s, w')) :
    StandardAnswer e id False run kids w s w' := by
  rw [scanAll] at h
  cases hscan : scan pass 0 (kids.map run) w with
  | none => simp [hscan] at h
  | some answer =>
      obtain ⟨s₁, j, v⟩ := answer
      obtain ⟨rfl, rfl⟩ : s₁ = s ∧ v = w' := by simpa [hscan] using h
      obtain ⟨rs, hcourse, hanswer, hnil⟩ :=
        scan_course (Tends.refl e id) hpass (List.Subset.refl kids) hscan
      exact ⟨rs, hcourse, hanswer, fun hrs => hnil hrs ▸ Status.ne_running_of_isTerminal hpass⟩

theorem scanOn_course {pass : Status} (hpass : pass.isTerminal = true)
    (h : scanOn e id pass (kids.map run) w = some (s, w')) :
    StandardAnswer e id False run kids w s w' := by
  rw [scanOn] at h
  simp only [← List.map_drop] at h
  split at h
  · cases h
  · rename_i s₁ j v hscan
    obtain ⟨rs, hcourse, hanswer, hnil⟩ :=
      scan_course (Tends.refl e id) hpass (List.drop_subset _ kids) hscan
    have htends : Tends e id v
        (if s₁ = .running then v.remember e id Key.runningChild (.ofNat j) else v) := by
      split
      · exact .writes .stay (by decide) _
      · exact .stay
    obtain ⟨rfl, rfl⟩ : s₁ = s ∧ _ = w' := by simpa using h
    exact ⟨rs, hcourse.quiet_right (fun _ _ _ => Tends.trans) htends, hanswer,
      fun hrs => hnil hrs ▸ Status.ne_running_of_isTerminal hpass⟩

variable {c : Node σ} (hc : c ∈ kids)

include hc

theorem invertRun_course (h : invertRun (run c) w = some (s, w')) :
    StandardAnswer e id False run kids w s w' := by
  rw [invertRun] at h
  split at h
  · cases h
  · rename_i s₁ v hrun
    obtain ⟨rfl, rfl⟩ : s₁.invert = s ∧ v = w' := by simpa using h
    refine ⟨[(c, s₁)], .single (Tends.refl e id) hc hrun, ⟨?_, ?_⟩, nofun⟩ <;>
      cases s₁ <;> simp [Status.invert, Status.isTerminal]

theorem limitRun_course {m : Nat} (h : limitRun e id m (run c) w = some (s, w')) :
    StandardAnswer e id False run kids w s w' := by
  simp only [limitRun] at h
  split at h
  · obtain ⟨rfl, rfl⟩ : Status.failure = s ∧ w = w' := by simpa using h
    exact ⟨[], .done .stay, .nil _ _, nofun⟩
  · split at h
    · cases h
    · rename_i s₁ v hrun
      have htends (i : Nat) : Tends e id v
          (if s₁.isTerminal then v.remember e id Key.count (.ofNat i) else v) := by
        split
        · exact .writes .stay (by decide) _
        · exact .stay
      obtain ⟨rfl, rfl⟩ : s₁ = s ∧ _ = w' := by simpa using h
      exact ⟨[(c, s₁)], (Course.single (Tends.refl e id) hc hrun).quiet_right
        (fun _ _ _ => Tends.trans) (htends _), .single c s₁, nofun⟩

theorem timeRun_course {m : Nat} (h : timeRun e id m (run c) w = some (s, w')) :
    StandardAnswer e id (Overdue e id m w) run kids w s w' := by
  rw [timeRun] at h
  simp only at h
  split at h
  · cases h
  · rename_i s₁ v hrun
    change some (if Overdue e id m w then Status.failure else s₁, v) = some (s, w') at h
    obtain ⟨rfl, rfl⟩ : (if Overdue e id m w then Status.failure else s₁) = s ∧ v = w' := by
      simpa using h
    refine ⟨[(c, s₁)], (Course.single (Tends.refl e id) hc hrun).quiet_left
      (fun _ _ _ => Tends.trans) (.reads .stay), ?_, nofun⟩
    by_cases hoverdue : Overdue e id m w <;> constructor <;>
      simp [hoverdue, Status.isTerminal]

theorem repeatRun_course {bound : Bound} {counts : Status → Bool} {idle : Status}
    (hcounts : ∀ s, counts s = true → s.isTerminal = true) (hidle : idle ≠ .running)
    (h : repeatRun e fuel id bound counts idle (run c) w = some (s, w')) :
    StandardAnswer e id False run kids w s w' := by
  simp only [repeatRun] at h
  split at h
  · cases h
  · rename_i s₁ j v hturns
    obtain ⟨rs, hcourse, hanswer, hnil⟩ := turns_course (Tends.refl e id) hcounts hc hturns
    obtain ⟨rfl, rfl⟩ : s₁ = s ∧ v.remember e id Key.count (.ofNat j) = w' := by
      simpa using h
    exact ⟨rs, hcourse.quiet_right (fun _ _ _ => Tends.trans) (.writes .stay (by decide) _),
      hanswer, fun hrs => hnil hrs ▸ hidle⟩

end

/-- A leaf does not touch the lives of nodes when it ticks. -/
theorem LeafKind.tick_quiet {e : Setting σ} {k : LeafKind σ} (hk : k.KeepsRecords e.tree)
    (self : Info) (w : Traversal σ) : Quiet e self.id w (k.tick e self w).2 := by
  cases k with
  | wait ms => exact .readClock w
  | runAction name act => exact .apply w (hk w.target w.board)
  | custom design => exact .apply w (hk.2 (w.scene e self) rfl)
  | _ => exact .refl e self.id w

theorem LeafKind.tick_calm (e : Setting σ) (k : LeafKind σ) (self : Info) (w : Traversal σ) :
    Calm self.id w (k.tick e self w).2 := by
  cases k with
  | wait ms => exact (Quiet.readClock (e := e) w).toCalm
  | runAction name act => exact .apply _ w _
  | custom design => exact .apply _ w _
  | _ => exact .refl self.id w

/-! ## Scripts -/

theorem Script.exec_course {e : Setting σ} {self : Info} {run : Node σ → Exec σ}
    {kids : List (Node σ)} {quiet : Traversal σ → Traversal σ → Prop} (hrefl : ∀ w, quiet w w)
    (htrans : ∀ a b c, quiet a b → quiet b c → quiet a c) {P : Hook σ → Prop}
    (hact : ∀ effect, P effect → ∀ w : Traversal σ, quiet w (w.apply (effect (w.scene e self))))
    {script : Script σ} (hscript : script.All P) {w w' : Traversal σ} {s : Status}
    (h : script.exec e self (kids.map run) w = some (s, w')) :
    ∃ rs, Course run kids quiet (fun _ => True) w rs w' := by
  induction script generalizing w with
  | finish status =>
      obtain ⟨rfl, rfl⟩ : status = s ∧ w = w' := by simpa [exec] using h
      exact ⟨[], .done (hrefl w)⟩
  | act effect next ih =>
      rw [exec] at h
      obtain ⟨rs, hcourse⟩ := ih _ (hscript.2 _) h
      exact ⟨rs, hcourse.quiet_left htrans (hact effect hscript.1 w)⟩
  | run i next ih =>
      rw [exec] at h
      split at h
      · exact ih _ (hscript _) h
      · rename_i child hchild
        obtain ⟨c, hc, rfl⟩ : ∃ c, kids[i]? = some c ∧ run c = child := by
          simpa using hchild
        split at h
        · cases h
        · rename_i s₁ v hrun
          obtain ⟨rs, hcourse⟩ := ih _ (hscript _) h
          exact ⟨(c, s₁) :: rs,
            .next (hrefl w) (List.mem_of_getElem? hc) hrun (fun _ => trivial) hcourse⟩

/-! ## Nodes -/

/-- How a node ticks, by the runs of the nodes it holds. -/
def Node.tickWith (e : Setting σ) (fuel : Nat) (runs : List (Exec σ)) : Node σ → Exec σ
  | n@(.composite _ k _) => k.tick e n.info runs
  | n@(.decorator _ k _) => k.tick e fuel n.info runs.head?
  | n@(.leaf _ k) => fun w => some (k.tick e n.info w)

theorem Node.execute_eq (e : Setting σ) (fuel : Nat) (n : Node σ) :
    n.execute e fuel = n.live e (n.tickWith e fuel (n.kids.map (Node.execute e fuel))) := by
  rcases n with ⟨l, k, cs⟩ | ⟨l, k, _ | c⟩ | ⟨l, k⟩ <;>
    simp [Node.execute, Node.tickWith, Node.kids, Node.executeAll_eq_map]

/-- A time limit has passed when the node is ticked. -/
def Node.Late (e : Setting σ) (w : Traversal σ) : Node σ → Prop
  | .decorator l (.maxTime m) _ => Overdue e l.id m w
  | _ => False

/-- How a standard node that is no leaf answers. -/
theorem Node.Standard.answer {e : Setting σ} {fuel : Nat} {n : Node σ} {run : Node σ → Exec σ}
    {w w' : Traversal σ} {s : Status} (hn : n.Standard e.tree) (hleaf : ∀ l k, n ≠ .leaf l k)
    (h : n.tickWith e fuel (n.kids.map run) w = some (s, w')) :
    StandardAnswer e n.id (n.Late e w) run n.kids w s w' := by
  rcases n with ⟨l, k, cs⟩ | ⟨l, k, _ | c⟩ | ⟨l, k⟩
  · cases k with
    | sequence => exact scanAll_course rfl h
    | priority => exact scanAll_course rfl h
    | memSequence => exact scanOn_course rfl h
    | memPriority => exact scanOn_course rfl h
    | custom design => exact hn.elim
  · have herror : w = w' ∧ s = .error := by
      cases k with
      | custom design => exact hn.elim
      | _ =>
          obtain ⟨rfl, rfl⟩ : Status.error = s ∧ w = w' := by
            simpa [tickWith, kids, DecoratorKind.tick, overChild] using h
          exact ⟨rfl, rfl⟩
    obtain ⟨rfl, rfl⟩ := herror
    exact ⟨[], .done .stay, .nil _ _, nofun⟩
  · have hc : c ∈ (Node.decorator l k (some c)).kids := by simp [kids]
    cases k with
    | inverter => exact invertRun_course hc h
    | limiter m => exact limitRun_course hc h
    | maxTime m => exact timeRun_course hc h
    | repeater m => exact repeatRun_course hc (fun _ hs => hs) (by decide) h
    | repeatUntilSuccess m =>
        refine repeatRun_course hc ?_ (by decide) h
        intro s hs
        rw [eq_of_beq hs]
        rfl
    | repeatUntilFailure m =>
        refine repeatRun_course hc ?_ (by decide) h
        intro s hs
        rw [eq_of_beq hs]
        rfl
    | custom design => exact hn.elim
  · exact absurd rfl (hleaf l k)

/-- A standard node goes on only after runs that finished, and a branching one answers that it is
running only if its last run did. -/
theorem Node.Standard.course {e : Setting σ} {fuel : Nat} {n : Node σ} {run : Node σ → Exec σ}
    {w w' : Traversal σ} {s : Status} (hn : n.Standard e.tree)
    (h : n.tickWith e fuel (n.kids.map run) w = some (s, w')) :
    ∃ rs, StandardCourse e n.id run n.kids w rs w' ∧
      (s = .running → (∃ l k, n = .leaf l k) ∨ EndsRunning rs) := by
  by_cases hleaf : ∃ l k, n = .leaf l k
  · obtain ⟨l, k, rfl⟩ := hleaf
    have htick : k.tick e (leaf l k).info w = (s, w') := by simpa [tickWith] using h
    have hquiet : Quiet e (leaf l k).info.id w w' := by
      simpa only [htick] using LeafKind.tick_quiet hn (leaf l k).info w
    exact ⟨[], .done hquiet, fun _ => .inl ⟨l, k, rfl⟩⟩
  · obtain ⟨rs, hcourse, hanswer, hnil⟩ := hn.answer (fun l k heq => hleaf ⟨l, k, heq⟩) h
    exact ⟨rs, hcourse.mono (fun _ _ => Tends.quiet) fun _ hs => hs,
      fun hs => .inr (hanswer.endsRunning hnil hs)⟩

/-- A node that runs no script goes on only after runs that finished, whatever its leaves write. -/
theorem Node.answer_of_script? {e : Setting σ} {fuel : Nat} {n : Node σ} {run : Node σ → Exec σ}
    {w w' : Traversal σ} {s : Status} (hn : n.script? = none)
    (h : n.tickWith e fuel (n.kids.map run) w = some (s, w')) :
    ∃ rs, Course run n.kids (Calm n.id) (·.isTerminal = true) w rs w' ∧
      Answers (n.Late e w) rs s := by
  by_cases hleaf : ∃ l k, n = .leaf l k
  · obtain ⟨l, k, rfl⟩ := hleaf
    have htick : k.tick e (leaf l k).info w = (s, w') := by simpa [tickWith] using h
    have hcalm : Calm (leaf l k).info.id w w' := by
      simpa only [htick] using k.tick_calm e (leaf l k).info w
    exact ⟨[], .done hcalm, .nil _ _⟩
  · have hstandard := (standard_or_leaf_of_script? hn e.tree).resolve_right hleaf
    obtain ⟨rs, hcourse, hanswer, -⟩ :=
      hstandard.answer (fun l k heq => hleaf ⟨l, k, heq⟩) h
    exact ⟨rs, hcourse.mono (fun _ _ hq => hq.quiet.toCalm) fun _ hs => hs, hanswer⟩

namespace Node

variable {e : Setting σ} {fuel : Nat} {n : Node σ} {run : Node σ → Exec σ}
  {w w' : Traversal σ} {s : Status}

/-- A branching node of the caller's own runs its script, whatever it holds. -/
theorem tickWith_of_script? {script : Script σ} (hscript : n.script? = some script)
    (h : n.tickWith e fuel (n.kids.map run) w = some (s, w')) :
    script.exec e n.info (n.kids.map run) w = some (s, w') := by
  rcases n with ⟨l, k, cs⟩ | ⟨l, k, c⟩ | ⟨l, k⟩
  · cases k with
    | custom design =>
        obtain rfl := Option.some.inj hscript
        simpa [tickWith, CompositeKind.tick, kids] using h
    | _ => cases hscript
  · cases k with
    | custom design =>
        obtain rfl := Option.some.inj hscript
        have hruns : (c.toList.map run).head?.toList = c.toList.map run := by cases c <;> rfl
        have hlength : (c.toList.map run).length = c.toList.length := List.length_map run
        simpa only [tickWith, DecoratorKind.tick, kids, hruns, hlength] using h
    | _ => cases hscript
  · cases hscript

/-- Of what kind a node may be, its tick is made of runs of the nodes it holds. -/
theorem course (h : n.tickWith e fuel (n.kids.map run) w = some (s, w')) :
    ∃ rs, Course run n.kids (Calm n.id) (fun _ => True) w rs w' := by
  cases hscript : n.script? with
  | some script =>
      exact Script.exec_course (.refl n.id) (fun _ _ _ => .trans)
        (fun _ _ w => .apply n.id w _) (script.all_of_forall fun _ => trivial)
        (tickWith_of_script? hscript h)
  | none =>
      obtain ⟨rs, hcourse, -⟩ := answer_of_script? hscript h
      exact ⟨rs, hcourse.mono (fun _ _ hq => hq) fun _ _ => trivial⟩

/-- If the node keeps the records, only its own change between the runs. -/
theorem KeepsRecords.course (hn : n.KeepsRecords e.tree)
    (h : n.tickWith e fuel (n.kids.map run) w = some (s, w')) :
    ∃ rs, Course run n.kids (Quiet e n.id) (fun _ => True) w rs w' := by
  cases hscript : n.script? with
  | some script =>
      exact Script.exec_course (.refl e n.id) (fun _ _ _ => .trans)
        (fun effect heffect w => .apply w (heffect (w.scene e n.info) rfl))
        (hn.script hscript) (tickWith_of_script? hscript h)
  | none =>
      obtain ⟨rs, hcourse, -⟩ := (hn.standard hscript).course h
      exact ⟨rs, Course.mono hcourse (fun _ _ hq => hq) fun _ _ => trivial⟩

end Node
end BehaviorTrees
