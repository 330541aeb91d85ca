import BehaviorTrees.Proofs.Execution.Visit
import BehaviorTrees.Proofs.Tree.OpenNodes

/-!
# Answers that stop a tick

An answer that is not terminal, `running` or `error`, ends the tick of the node that gets it from a
child: nothing more is visited, and the answer goes up to the root.  Only a time limit that has
passed puts its failure in place of the answer.
-/

namespace BehaviorTrees

variable {σ : Type} {e : Setting σ} {fuel : Nat}

namespace Visit

variable {x y k : Visit σ} {s : Status}

/-- After an answer that is not terminal nothing more is visited. -/
theorem Yields.stops (hx : x.Yields e) {front back : List (Visit σ)}
    (hinner : x.inner = front ++ k :: back) (hk : k.status.isTerminal = false) :
    back = [] ∧ (x.Late e → x.status = .failure) ∧ (¬x.Late e → x.status = k.status) := by
  have hback : back = [] := by
    rw [List.eq_nil_iff_forall_not_mem]
    intro y hy
    have hpairs := hx.inner
    rw [hinner, List.pairwise_append] at hpairs
    simpa [hk] using (List.pairwise_cons.1 hpairs.2.1).1 y hy
  subst hback
  have hlast := hx.answers.last (k.node, k.status) (by simp [hinner])
  exact ⟨rfl, hlast.1, fun hlate => hlast.2 hlate hk⟩

theorem Yields.status_eq (hx : x.Yields e) (hlate : ¬x.Late e) (hmem : k ∈ x.inner)
    (hk : k.status.isTerminal = false) : x.status = k.status := by
  obtain ⟨front, back, hinner⟩ := List.append_of_mem hmem
  exact (hx.stops hinner hk).2.2 hlate

/-- Where no time limit has passed an answer that is not terminal goes all the way up. -/
theorem status_eq_of_within (hx : ∀ y, Within y x → y.Yields e)
    (hlate : ∀ y, Within y x → ¬y.Late e) (hy : Within y x) (hs : y.status.isTerminal = false) :
    x.status = y.status := by
  induction hy with
  | refl => rfl
  | @inner x k y hk h ih =>
      have hup : k.status = y.status :=
        ih (fun z hz => hx z (.inner hk hz)) (fun z hz => hlate z (.inner hk hz)) hs
      rw [← hup] at hs ⊢
      exact (hx x (.refl x)).status_eq (hlate x (.refl x)) hk hs

/-- Only what is visited is left with an answer. -/
theorem exists_within_of_mem_passages (hx : x.Occurs e fuel) {a : Event}
    (ha : a ∈ x.passages e) (hs : a.status = some s) : ∃ y, Within y x ∧ y.status = s := by
  induction hx with
  | @intro n w v status xs htick hrow hinner ih =>
      rw [passages_eq, List.mem_cons, List.mem_append, List.mem_flatMap] at ha
      rcases ha with rfl | ⟨k, hk, ha⟩ | ha
      · cases hs
      · obtain ⟨y, hy, hstatus⟩ := ih k hk ha
        exact ⟨y, .inner hk hy, hstatus⟩
      · obtain rfl := List.mem_singleton.1 ha
        exact ⟨_, .refl _, Option.some.inj hs⟩

/-- Once a node is left with an answer that is not terminal, nodes are only left, and all of them
with this answer. -/
theorem pairwise_passages (hx : x.Occurs e fuel) (hyields : ∀ y, Within y x → y.Yields e)
    (hlate : ∀ y, Within y x → ¬y.Late e) :
    (x.passages e).Pairwise fun a b =>
      ∀ s, a.status = some s → s.isTerminal = false → b.phase = .exit ∧ b.status = some s := by
  induction hx with
  | @intro n w v status xs htick hrow hinner ih =>
      -- what is left with such an answer within a visit gives the visit this answer
      have hup : ∀ k ∈ xs, ∀ a ∈ k.passages e, ∀ s, a.status = some s → s.isTerminal = false →
          k.status = s := by
        intro k hk a ha s hs hterminal
        obtain ⟨y, hy, rfl⟩ := exists_within_of_mem_passages (hinner k hk) ha hs
        exact status_eq_of_within (fun z hz => hyields z (.inner hk hz))
          (fun z hz => hlate z (.inner hk hz)) hy hterminal
      have hself := hyields _ (.refl _)
      rw [passages_eq]
      refine List.pairwise_cons.2 ⟨fun b hb s hs => ?_, List.pairwise_append.2 ⟨?_, ?_, ?_⟩⟩
      · cases hs
      · refine List.pairwise_flatMap.2 ⟨fun k hk => ?_, hself.inner.imp_of_mem ?_⟩
        · exact ih k hk (fun z hz => hyields z (.inner hk hz)) fun z hz => hlate z (.inner hk hz)
        · intro k k' hk _ hterminal a ha b _ s hs hnot
          rw [← hup k hk a ha s hs hnot, hterminal] at hnot
          cases hnot
      · exact List.pairwise_singleton ..
      · intro a ha b hb s hs hterminal
        obtain rfl := List.mem_singleton.1 hb
        obtain ⟨k, hk, ha⟩ := List.mem_flatMap.1 ha
        obtain rfl := hup k hk a ha s hs hterminal
        exact ⟨rfl, congrArg some (hself.status_eq (hlate _ (.refl _)) hk hterminal)⟩

/-- An answer that is not terminal is that of the node entered last. -/
theorem exists_last_entered (hx : x.Occurs e fuel) (hyields : ∀ y, Within y x → y.Yields e)
    (hs : x.status.isTerminal = false) :
    ∃ (front back : List Event) (m : Node σ), (∀ b ∈ back, b.phase = .exit) ∧
      x.passages e = front ++ ⟨e.tree, m.id, m.name, .enter, none⟩ ::
        ⟨e.tree, m.id, m.name, .exit, some x.status⟩ :: back := by
  induction hx with
  | @intro n w v status xs htick hrow hinner ih =>
      rcases (hyields _ (.refl _)).answers.own hs with hnil | ⟨r, hr, hstatus⟩
      · obtain rfl : xs = [] := List.map_eq_nil_iff.1 hnil
        exact ⟨[], [], n, by simp, passages_eq _⟩
      · obtain ⟨k, hk, rfl⟩ : ∃ k, xs.getLast? = some k ∧ (k.node, k.status) = r := by
          simpa [inner] using hr
        obtain ⟨earlier, rfl⟩ := List.getLast?_eq_some_iff.1 hk
        have hmem : k ∈ earlier ++ [k] := by simp
        have hup : k.status = status := hstatus
        obtain ⟨front, back, m, hback, hpassages⟩ :=
          ih k hmem (fun z hz => hyields z (.inner hmem hz)) (hup ▸ hs)
        refine ⟨⟨e.tree, n.id, n.name, .enter, none⟩ :: (earlier.flatMap (passages e) ++ front),
          back ++ [⟨e.tree, n.id, n.name, .exit, some status⟩], m, ?_, ?_⟩
        · simpa [or_imp, forall_and] using hback
        · rw [hup] at hpassages
          rw [passages_eq]
          simp only [inner, List.flatMap_append, List.flatMap_singleton, hpassages,
            List.append_assoc, List.cons_append]
          rfl

end Visit

/-! ## Ticks -/

namespace Tree

variable {t : Tree σ} {root : Node σ} {traced : Bool} {target : σ} {b : Blackboard}
  {r : TickResult σ}

theorem passages_afterDiff (t : Tree σ) (root : Node σ) (traced : Bool) (b : Blackboard)
    (w : Traversal σ) : (t.afterDiff root traced b w).passages = w.passages :=
  Traversal.passages_sweep Traversal.passages_release _ w

/-- In every tick of a tree whose branching nodes are those of the library, whatever its leaves do:
after a child has answered `running` or `error` a node visits no more children and answers the
same, unless it is a time limit that has passed, which fails.  If none has passed, nothing is
entered after such an answer, and all that are left from then on, the root at last, are left with
it.  If the tick gives such an answer, it is that of the node entered last. -/
theorem running_or_error_stops (ht : t.root = some root)
    (hroot : ∀ m ∈ root.nodes, m.script? = none)
    (htick : t.tick fuel traced target b = .ok r) :
    ∃ x : Visit σ, x.Occurs (t.setting traced) fuel ∧ x.node = root ∧
      x.start = { target, board := b } ∧ x.status = r.status ∧
      Event.passages r.events = x.passages (t.setting traced) ∧
      (∀ y : Visit σ, y.Within x → ∀ front (k : Visit σ) back, y.inner = front ++ k :: back →
        k.status.isTerminal = false → back = [] ∧
          (y.Late (t.setting traced) → y.status = .failure) ∧
          (¬y.Late (t.setting traced) → y.status = k.status)) ∧
      ((∀ y : Visit σ, y.Within x → ¬y.Late (t.setting traced)) →
        (∀ y z : Visit σ, y.Within x → z.Within y → z.status.isTerminal = false →
          y.status = z.status) ∧
        (Event.passages r.events).Pairwise fun a b =>
          ∀ s, a.status = some s → s.isTerminal = false →
            b.phase = .exit ∧ b.status = some s) ∧
      (r.status.isTerminal = false →
        ∃ (front back : List Event) (m : Node σ), (∀ a ∈ back, a.phase = .exit) ∧
          Event.passages r.events = front ++ ⟨t.id, m.id, m.name, .enter, none⟩ ::
            ⟨t.id, m.id, m.name, .exit, some r.status⟩ :: back) := by
  obtain ⟨s, w, hexec, rfl⟩ := (tick_eq_ok_iff ht).1 htick
  obtain ⟨xs, ⟨hoccurs, hyields⟩, hpassages⟩ := Visit.exists_of_execute hroot hexec
  set x := Visit.mk root { target, board := b } s xs
  have hevents : Event.passages ((t.afterDiff root traced b w).history.filterMap Entry.event?) =
      x.passages (t.setting traced) := by
    have hdiff := passages_afterDiff t root traced b w
    rw [hpassages] at hdiff
    exact hdiff
  refine ⟨x, hoccurs, rfl, rfl, rfl, hevents, fun y hy front k back => (hyields y hy).stops,
    fun hlate => ⟨fun y z hy hz => ?_, ?_⟩, fun hs => ?_⟩
  · exact Visit.status_eq_of_within (fun v hv => hyields v (hv.trans hy))
      (fun v hv => hlate v (hv.trans hy)) hz
  · rw [TickResult.events, hevents]
    exact Visit.pairwise_passages hoccurs hyields hlate
  · rw [TickResult.events, hevents]
    exact Visit.exists_last_entered hoccurs hyields hs

theorem running_or_error_stops_retried :
    ∃ (r : TickResult (List Status)) (front back : List Event) (m : Node (List Status)),
      (ofRoot retriedSequence).tick 2 false [.failure, .error] ∅ = .ok r ∧
        r.status = .error ∧ (∀ a ∈ back, a.phase = .exit) ∧
        Event.passages r.events = front ++ ⟨"t", m.id, m.name, .enter, none⟩ ::
          ⟨"t", m.id, m.name, .exit, some .error⟩ :: back := by
  obtain ⟨r, hr, hstatus⟩ :
      ∃ r ∈ ((ofRoot retriedSequence).tick 2 false [.failure, .error] ∅).toOption,
        r.status = .error := by
    decide +kernel
  have htick := tick_eq_ok_of_mem_toOption hr
  have hscript : ∀ m ∈ retriedSequence.nodes, m.script? = none :=
    fun m hm => (retriedSequence_orderly m hm).script?
  obtain ⟨x, -, -, -, -, -, -, -, hlast⟩ := running_or_error_stops rfl hscript htick
  obtain ⟨front, back, m, hback, hpassages⟩ := hlast (by rw [hstatus]; rfl)
  rw [hstatus] at hpassages
  exact ⟨r, front, back, m, htick, hstatus, hback, hpassages⟩

end Tree
end BehaviorTrees
