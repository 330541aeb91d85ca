import BehaviorTrees.Proofs.Execution.Release

/-!
# Visits

A `Visit` is a run of a node with the visits it is made of.  It `Occurs` where these are in fact the
runs of the nodes it holds that the node takes when it ticks.  What is reported of nodes that are
entered and left then follows from the visit alone.
-/

namespace BehaviorTrees

variable {σ : Type} {e : Setting σ} {fuel : Nat} {n : Node σ} {w w' : Traversal σ} {s : Status}

/-- A run of a node, from a state to an answer, and the runs of others in it. -/
inductive Visit (σ : Type) where
  | mk (node : Node σ) (start : Traversal σ) (status : Status) (inner : List (Visit σ))

namespace Visit

def node : Visit σ → Node σ
  | mk n _ _ _ => n

def start : Visit σ → Traversal σ
  | mk _ w _ _ => w

def status : Visit σ → Status
  | mk _ _ s _ => s

def inner : Visit σ → List (Visit σ)
  | mk _ _ _ xs => xs

/-- The node of the visit is a time limit that has passed. -/
def Late (e : Setting σ) (x : Visit σ) : Prop := x.node.Late e (x.start.begin e x.node)

/-- One visit is part of another. -/
inductive Within : Visit σ → Visit σ → Prop
  | refl (x : Visit σ) : Within x x
  | inner {x k y : Visit σ} (hk : k ∈ x.inner) (h : Within y k) : Within y x

theorem Within.trans {x y z : Visit σ} (h : Within z y) (h' : Within y x) : Within z x := by
  induction h' with
  | refl => exact h
  | inner hk _ ih => exact .inner hk (ih h)

/-- A node visits those it holds, one after the other, and in between nothing is entered or left. -/
inductive Row (e : Setting σ) (fuel : Nat) (n : Node σ) :
    Traversal σ → List (Visit σ) → Traversal σ → Prop
  | done {w w' : Traversal σ} (hcalm : Calm n.id w w') : Row e fuel n w [] w'
  | next {w v w' : Traversal σ} {x : Visit σ} {xs : List (Visit σ)} (hcalm : Calm n.id w x.start)
      (hkid : x.node ∈ n.kids) (hrun : x.node.execute e fuel x.start = some (x.status, v))
      (hrest : Row e fuel n v xs w') : Row e fuel n w (x :: xs) w'

inductive Occurs (e : Setting σ) (fuel : Nat) : Visit σ → Prop
  | intro {n : Node σ} {w v : Traversal σ} {s : Status} {xs : List (Visit σ)}
      (htick : n.tickWith e fuel (n.kids.map (Node.execute e fuel)) (w.begin e n) = some (s, v))
      (hrow : Row e fuel n (w.begin e n) xs v) (hinner : ∀ x ∈ xs, Occurs e fuel x) :
      Occurs e fuel (mk n w s xs)

end Visit

/-! ## What is reported of nodes that are entered and left -/

/-- The event tells that a node is entered or left. -/
def Event.isPassage (x : Event) : Bool := x.phase = .enter || x.phase = .exit

def Event.passages (events : List Event) : List Event := events.filter isPassage

theorem Event.passages_append (E E' : List Event) :
    passages (E ++ E') = passages E ++ passages E' := List.filter_append ..

namespace Visit

mutual

/-- What the visit reports of nodes that are entered and left. -/
def passages (e : Setting σ) : Visit σ → List Event
  | mk n _ s xs =>
      ⟨e.tree, n.id, n.name, .enter, none⟩ ::
        (passagesOf e xs ++ [⟨e.tree, n.id, n.name, .exit, some s⟩])

def passagesOf (e : Setting σ) : List (Visit σ) → List Event
  | [] => []
  | x :: xs => passages e x ++ passagesOf e xs

end

theorem passagesOf_eq_flatMap (xs : List (Visit σ)) :
    passagesOf e xs = xs.flatMap (passages e) := by
  induction xs with
  | nil => rfl
  | cons x xs ih => rw [passagesOf, ih, List.flatMap_cons]

theorem passages_eq (x : Visit σ) :
    x.passages e = ⟨e.tree, x.node.id, x.node.name, .enter, none⟩ ::
      (x.inner.flatMap (passages e) ++
        [⟨e.tree, x.node.id, x.node.name, .exit, some x.status⟩]) := by
  cases x
  rw [passages, passagesOf_eq_flatMap]
  rfl

end Visit

namespace Traversal

def passages (w : Traversal σ) : List Event := Event.passages w.events

theorem passages_tell (w : Traversal σ) (n : Node σ) (phase : Phase) (status : Option Status) :
    (w.tell e n phase status).passages =
      w.passages ++ Event.passages [⟨e.tree, n.id, n.name, phase, status⟩] := by
  rw [passages, events_tell, Event.passages_append]
  rfl

theorem passages_enter : (w.enter e n).passages =
    w.passages ++ [⟨e.tree, n.id, n.name, .enter, none⟩] := passages_tell ..

theorem passages_exit : (w.exit e n s).passages =
    w.passages ++ [⟨e.tree, n.id, n.name, .exit, some s⟩] := passages_tell ..

theorem passages_close (w : Traversal σ) (n : Node σ) :
    (w.close e n).passages = w.passages := by
  have htell := passages_tell (e := e) (w.remember e n.id Key.isOpen (.bool false)) n .close none
  rw [show Event.passages [⟨e.tree, n.id, n.name, .close, none⟩] = [] from rfl,
    List.append_nil] at htell
  exact htell

theorem passages_of_calm {id : NodeId} (h : Calm id w w') : w'.passages = w.passages := by
  obtain ⟨R, hR, hw⟩ := h.history
  rw [passages, events, hw, List.filterMap_append, events_readings hR, List.append_nil]
  rfl

theorem passages_begin : (w.begin e n).passages =
    w.passages ++ [⟨e.tree, n.id, n.name, .enter, none⟩] := by
  have htick (u : Traversal σ) : (u.tell e n .tick none).passages = u.passages :=
    (passages_tell u n .tick none).trans (List.append_nil _)
  have hopening (u : Traversal σ) :
      ((u.remember e n.id Key.isOpen (.bool true)).tell e n .opening none).passages = u.passages :=
    (passages_tell _ n .opening none).trans (List.append_nil _)
  rw [begin]
  split
  · rw [htick, passages_enter]
  · rw [htick, passages_of_calm (startUp_calm _ n), hopening, passages_enter]

theorem passages_sweep {free : Node σ → Traversal σ → Traversal σ}
    (hfree : ∀ m w, (free m w).passages = w.passages) (ids : List NodeId) (w : Traversal σ) :
    (sweep e n free ids w).passages = w.passages :=
  sweep_keeps (I := fun u => u.passages = w.passages) (fun m _ u hu => (hfree m u).trans hu) ids rfl

/-- Nothing is entered or left in a release. -/
theorem passages_release (n : Node σ) (w : Traversal σ) :
    (w.release e n).passages = w.passages :=
  releaseWithin_keeps (I := fun u => u.passages = w.passages) (fun _ _ _ hu => hu)
    (fun m _ u hu => (passages_close u m).trans hu) w.stack.length rfl

theorem passages_finish : (w.finish e n s).passages =
    w.passages ++ [⟨e.tree, n.id, n.name, .exit, some s⟩] := by
  rw [finish]
  split
  · exact passages_exit
  · rw [passages_exit, passages_release]

end Traversal

/-! ## Every run is a visit -/

namespace Visit

/-- No further child is visited after one whose answer is not terminal, and the node answers the
same, or fails if it is late; where it gives such an answer itself, the last child gave it. -/
structure Yields (e : Setting σ) (x : Visit σ) : Prop where
  inner : x.inner.Pairwise fun k _ => k.status.isTerminal = true
  answers : Answers (x.Late e) (x.inner.map fun k => (k.node, k.status)) x.status

theorem Row.of_course {more : Status → Prop} {P : Visit σ → Prop}
    (hkids : ∀ c ∈ n.kids, ∀ {w w' s}, c.execute e fuel w = some (s, w') →
      ∃ xs, P (mk c w s xs) ∧ w'.passages = w.passages ++ passages e (mk c w s xs))
    {rs : List (Node σ × Status)}
    (h : Course (Node.execute e fuel) n.kids (Calm n.id) more w rs w') :
    ∃ xs, Row e fuel n w xs w' ∧ (∀ x ∈ xs, P x) ∧
      (xs.map fun x => (x.node, x.status)) = rs ∧
      w'.passages = w.passages ++ xs.flatMap (passages e) ∧
      xs.Pairwise fun x _ => more x.status := by
  induction h with
  | done hcalm =>
      exact ⟨[], .done hcalm, by simp, rfl, by simp [Traversal.passages_of_calm hcalm], .nil⟩
  | @next w u v w' c s rs hcalm hc hrun hmore hrest ih =>
      obtain ⟨ys, hy, hpassages⟩ := hkids c hc hrun
      obtain ⟨xs, hrow, hxs, rfl, hpassages', hpairs⟩ := ih
      refine ⟨mk c u s ys :: xs, .next hcalm hc hrun hrow, List.forall_mem_cons.2 ⟨hy, hxs⟩, rfl,
        ?_, List.pairwise_cons.2 ⟨fun x hx => hmore ?_, hpairs⟩⟩
      · rw [hpassages', hpassages, Traversal.passages_of_calm hcalm, List.flatMap_cons,
          List.append_assoc]
      · exact List.ne_nil_of_mem (List.mem_map_of_mem hx)

/-- Where every tick is a course of runs, and what these answer makes `Q` of the visit, a run is a
visit all parts of which are `Q`. -/
theorem exists_of_execute_of_course (more : Status → Prop) {Q : Visit σ → Prop}
    (hcourse : ∀ m ∈ n.nodes, ∀ {w v s},
      m.tickWith e fuel (m.kids.map (Node.execute e fuel)) (w.begin e m) = some (s, v) →
      ∃ rs, Course (Node.execute e fuel) m.kids (Calm m.id) more (w.begin e m) rs v ∧
        ∀ xs : List (Visit σ), (xs.map fun x => (x.node, x.status)) = rs →
          (xs.Pairwise fun x _ => more x.status) → Q (mk m w s xs))
    (h : n.execute e fuel w = some (s, w')) :
    ∃ xs, (Occurs e fuel (mk n w s xs) ∧ ∀ y, Within y (mk n w s xs) → Q y) ∧
      w'.passages = w.passages ++ passages e (mk n w s xs) := by
  induction n using Node.induct generalizing w w' s with
  | step n ih =>
      obtain ⟨v, htick, rfl⟩ := Node.execute_eq_some_iff.1 h
      obtain ⟨rs, hruns, hQ⟩ := hcourse n n.mem_nodes_self htick
      obtain ⟨xs, hrow, hxs, hrs, hpassages, hpairs⟩ := Row.of_course
        (P := fun x => Occurs e fuel x ∧ ∀ y, Within y x → Q y)
        (fun c hc {w w' s} hrun =>
          ih c hc (fun m hm => hcourse m (Node.mem_nodes_of_kid hc hm)) hrun) hruns
      refine ⟨xs, ⟨.intro htick hrow fun x hx => (hxs x hx).1, fun y hy => ?_⟩, ?_⟩
      · cases hy with
        | refl => exact hQ xs hrs hpairs
        | inner hk hy => exact (hxs _ hk).2 y hy
      · rw [Traversal.passages_finish, hpassages, Traversal.passages_begin, passages_eq]
        simp [inner, node, status]

/-- A run of a node that holds none with a script is a visit in which every answer that is not
terminal is handed on. -/
theorem exists_of_execute (hn : ∀ m ∈ n.nodes, m.script? = none)
    (h : n.execute e fuel w = some (s, w')) :
    ∃ xs, (Occurs e fuel (mk n w s xs) ∧ ∀ y, Within y (mk n w s xs) → y.Yields e) ∧
      w'.passages = w.passages ++ passages e (mk n w s xs) := by
  refine exists_of_execute_of_course (·.isTerminal = true) (fun m hm {w v s} htick => ?_) h
  obtain ⟨rs, hcourse, hanswers⟩ := Node.answer_of_script? (hn m hm) htick
  exact ⟨rs, hcourse, fun xs hrs hpairs => ⟨hpairs, hrs ▸ hanswers⟩⟩

end Visit
end BehaviorTrees
