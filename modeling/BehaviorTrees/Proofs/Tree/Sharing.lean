import BehaviorTrees.Proofs.Execution.Seclusion
import BehaviorTrees.Proofs.Tree.Diff
import BehaviorTrees.Proofs.Tree.Session

/-!
# Trees that share a blackboard

Two trees with different ids tick on one blackboard, in any order, each on a target of its own.  If
their leaves use the memory of their own nodes only, each of the trees behaves as if it had the
blackboard to itself.
-/

namespace BehaviorTrees

theorem Entry.events_eq_of_agrees {t : TreeId} {H H' : List Entry}
    (h : List.Forall₂ (Entry.Agrees t) H H') :
    H'.filterMap Entry.event? = H.filterMap Entry.event? := by
  induction h with
  | nil => rfl
  | cons hx _ ih =>
      cases hx with
      | report event hb => exact congrArg (List.cons event) ih
      | call node phase => exact ih
      | reading node now => exact ih

namespace Tree

variable {σ τ : Type} {t : Tree σ} {u : Tree τ} {fuel : Nat} {traced : Bool} {target : σ}
  {b b' : Blackboard} {r : TickResult σ}

/-- The nodes of a tree are of the library, and its leaves use the memory of their own nodes
only. -/
def Secluded (t : Tree σ) : Prop :=
  ∀ root, t.root = some root → ∀ m ∈ root.nodes, m.Secluded t.id

/-! ## Ticks on two blackboards -/

/-- Two ticks of a tree that show no difference in anything that belongs to it. -/
structure TickResult.Agrees (t : TreeId) (r r' : TickResult σ) : Prop where
  status : r'.status = r.status
  target : r'.target = r.target
  events : r'.events = r.events
  history : List.Forall₂ (Entry.Agrees t) r.history r'.history
  board : r.board.AgreesAt t r'.board

inductive SameAnswer (t : TreeId) :
    Except TickFault (TickResult σ) → Except TickFault (TickResult σ) → Prop
  | ok {r r' : TickResult σ} (h : r.Agrees t r') : SameAnswer t (.ok r) (.ok r')
  | fault (fault : TickFault) : SameAnswer t (.error fault) (.error fault)

theorem openNodes_eq_of_agreesAt (h : b.AgreesAt t.id b') : t.openNodes b' = t.openNodes b := by
  rw [openNodes, openNodes, Scope.ofTree, h]

theorem sameOutside_keepRecord (e : Setting σ) (current : List NodeId) (w : Traversal σ) :
    w.board.SameOutside e.tree (keepRecord e current w) := by
  intro key scope hne
  refine get_keepRecord e current w key fun haddress => hne ?_
  have htree : scope.address = (Scope.ofTree e.tree).address := haddress
  exact Scope.tree_eq_of_address_eq htree

theorem keepRecord_agreesAt {e : Setting σ} {w w' : Traversal σ}
    (h : Alongside e.tree b b' w w') (current : List NodeId) :
    (keepRecord e current w).AgreesAt e.tree (keepRecord e current w') := by
  rw [keepRecord, keepRecord, h.count]
  exact (h.board.set _ _ _).set _ _ _

/-- On blackboards that agree on the memory of the tree a tick either fails in the same way, or it
does the same and changes nothing that does not belong to the tree. -/
theorem tick_alongside (h : t.Secluded) (fuel : Nat) (traced : Bool) (target : σ)
    (hb : b.AgreesAt t.id b') :
    SameAnswer t.id (t.tick fuel traced target b) (t.tick fuel traced target b') ∧
      ∀ r, t.tick fuel traced target b = .ok r → b.SameOutside t.id r.board := by
  cases ht : t.root with
  | none =>
      simp only [tick, ht]
      exact ⟨.fault .noRoot, by simp⟩
  | some root =>
      have hlock := alongside_lockstep (e := t.setting traced) (h root ht) b b'
      have hstart : Alongside t.id b b' ({ target, board := b } : Traversal σ)
          { target, board := b' } :=
        ⟨rfl, rfl, rfl, .nil, hb, fun _ _ _ => rfl, fun _ _ _ => rfl⟩
      rcases eq_none_or_exists_of_rel
          (hlock.execute_ends root.mem_nodes_self fuel _ _ hstart) with
        ⟨hnone, hnone'⟩ | ⟨⟨s, w⟩, ⟨s', w'⟩, hsome, hsome', hs, hw⟩
      · simp only [tick, ht, hnone, hnone']
        exact ⟨.fault .outOfFuel, by simp⟩
      · obtain rfl : s' = s := hs
        have hopen : w'.openNodes = w.openNodes := congrArg List.reverse hw.stack
        have hafter : Alongside t.id b b' (t.afterDiff root traced b w)
            (t.afterDiff root traced b' w') := by
          rw [afterDiff, afterDiff, openNodes_eq_of_agreesAt hb, hopen]
          exact hlock.closeStale _ hw
        have hhistory : List.Forall₂ (Entry.Agrees t.id) (t.afterDiff root traced b w).history
            (t.afterDiff root traced b' w').history :=
          List.rel_reverse hafter.journal
        have hrecord := keepRecord_agreesAt (e := t.setting traced) hafter w.openNodes
        have hok' := (tick_eq_ok_iff ht).2 ⟨s', w', hsome', rfl⟩
        rw [hopen] at hok'
        rw [(tick_eq_ok_iff ht).2 ⟨s', w, hsome, rfl⟩, hok']
        refine ⟨.ok ⟨rfl, hafter.target, Entry.events_eq_of_agrees hhistory, hhistory, hrecord⟩, ?_⟩
        rintro _ ⟨⟩
        exact hafter.outside.trans
          (sameOutside_keepRecord (t.setting traced) w.openNodes (t.afterDiff root traced b w))

/-! ## Ticks of two trees -/

/-- What a number of ticks of one tree answered, and the target and blackboard after them. -/
structure Stretch (σ : Type) where
  answers : List (Except TickFault (TickResult σ))
  target : σ
  board : Blackboard

def Stretch.cons (answer : Except TickFault (TickResult σ)) (s : Stretch σ) : Stretch σ :=
  { s with answers := answer :: s.answers }

/-- The target and the blackboard after a tick; if it failed, they are as they were. -/
def leftBehind (target : σ) (b : Blackboard) : Except TickFault (TickResult σ) → σ × Blackboard
  | .ok r => (r.target, r.board)
  | .error _ => (target, b)

/-- A tick with what is done to the target before it. -/
def move (t : Tree σ) (fuel : Nat) (m : Move σ) (target : σ) (b : Blackboard) :
    Except TickFault (TickResult σ) × σ × Blackboard :=
  let answer := t.tick fuel m.traced (m.change target) b
  (answer, leftBehind (m.change target) b answer)

/-- The ticks of a tree that has the blackboard to itself. -/
def alone (t : Tree σ) (fuel : Nat) : List (Move σ) → σ → Blackboard → Stretch σ
  | [], target, b => ⟨[], target, b⟩
  | m :: later, target, b =>
      let (answer, target, b) := t.move fuel m target b
      (t.alone fuel later target b).cons answer

theorem alone_cons (m : Move σ) (later : List (Move σ)) (target : σ) (b : Blackboard) :
    t.alone fuel (m :: later) target b =
      (t.alone fuel later (t.move fuel m target b).2.1 (t.move fuel m target b).2.2).cons
        (t.move fuel m target b).1 := rfl

/-- The ticks of two trees on one blackboard. -/
def together (t : Tree σ) (u : Tree τ) (fuel : Nat) :
    List (Move σ ⊕ Move τ) → σ → τ → Blackboard → Stretch σ × Stretch τ
  | [], x, y, b => (⟨[], x, b⟩, ⟨[], y, b⟩)
  | .inl m :: later, x, y, b =>
      let (answer, x, b) := t.move fuel m x b
      let (left, right) := together t u fuel later x y b
      (left.cons answer, right)
  | .inr m :: later, x, y, b =>
      let (answer, y, b) := u.move fuel m y b
      let (left, right) := together t u fuel later x y b
      (left, right.cons answer)

structure Stretch.Agrees (t : TreeId) (s s' : Stretch σ) : Prop where
  answers : List.Forall₂ (SameAnswer t) s.answers s'.answers
  target : s'.target = s.target
  board : s.board.AgreesAt t s'.board

theorem Stretch.Agrees.cons {t : TreeId} {s s' : Stretch σ} (h : s.Agrees t s')
    {answer answer' : Except TickFault (TickResult σ)} (ha : SameAnswer t answer answer') :
    (s.cons answer).Agrees t (s'.cons answer') :=
  ⟨.cons ha h.answers, h.target, h.board⟩

theorem move_agrees (h : t.Secluded) (fuel : Nat) (m : Move σ) (target : σ)
    (hb : b.AgreesAt t.id b') :
    SameAnswer t.id (t.move fuel m target b).1 (t.move fuel m target b').1 ∧
      (t.move fuel m target b').2.1 = (t.move fuel m target b).2.1 ∧
      (t.move fuel m target b).2.2.AgreesAt t.id (t.move fuel m target b').2.2 := by
  obtain ⟨hanswer, -⟩ := tick_alongside h fuel m.traced (m.change target) hb
  refine ⟨hanswer, ?_⟩
  rw [move, move]
  generalize t.tick fuel m.traced (m.change target) b = answer at hanswer
  generalize t.tick fuel m.traced (m.change target) b' = answer' at hanswer
  cases hanswer with
  | ok hr => exact ⟨hr.target, hr.board⟩
  | fault f => exact ⟨rfl, hb⟩

theorem move_sameOutside (h : t.Secluded) (fuel : Nat) (m : Move σ) (target : σ)
    (b : Blackboard) : b.SameOutside t.id (t.move fuel m target b).2.2 := by
  have hsame : b.AgreesAt t.id b := fun _ _ => rfl
  obtain ⟨-, houtside⟩ := tick_alongside h fuel m.traced (m.change target) hsame
  rw [move]
  cases htick : t.tick fuel m.traced (m.change target) b with
  | error fault => exact fun _ _ _ => rfl
  | ok r => exact houtside r htick

/-- In every interleaving each of the two trees goes through its ticks as it does alone. -/
theorem together_agrees (hne : t.id ≠ u.id) (ht : t.Secluded) (hu : u.Secluded) (fuel : Nat)
    (moves : List (Move σ ⊕ Move τ)) (x : σ) (y : τ) {bt bu : Blackboard}
    (hbt : bt.AgreesAt t.id b) (hbu : bu.AgreesAt u.id b) :
    (t.alone fuel (moves.filterMap Sum.getLeft?) x bt).Agrees t.id
        (together t u fuel moves x y b).1 ∧
      (u.alone fuel (moves.filterMap Sum.getRight?) y bu).Agrees u.id
        (together t u fuel moves x y b).2 := by
  induction moves generalizing x y b bt bu with
  | nil => exact ⟨⟨.nil, rfl, hbt⟩, ⟨.nil, rfl, hbu⟩⟩
  | cons m later ih =>
      cases m with
      | inl m =>
          obtain ⟨hanswer, htarget, hboard⟩ := move_agrees ht fuel m x hbt
          -- For the other tree the tick did not happen.
          have hother := (move_sameOutside ht fuel m x b).agreesAt hne.symm
          obtain ⟨hleft, hright⟩ := ih (t.move fuel m x b).2.1 y hboard (hbu.trans hother)
          rw [List.filterMap_cons_some Sum.getLeft?_inl, List.filterMap_cons_none Sum.getRight?_inl]
          refine ⟨?_, hright⟩
          rw [alone_cons, ← htarget]
          exact hleft.cons hanswer
      | inr m =>
          obtain ⟨hanswer, htarget, hboard⟩ := move_agrees hu fuel m y hbu
          have hother := (move_sameOutside hu fuel m y b).agreesAt hne
          obtain ⟨hleft, hright⟩ := ih x (u.move fuel m y b).2.1 (hbt.trans hother) hboard
          rw [List.filterMap_cons_none Sum.getLeft?_inr, List.filterMap_cons_some Sum.getRight?_inr]
          refine ⟨hleft, ?_⟩
          rw [alone_cons, ← htarget]
          exact hright.cons hanswer

/-- Two trees with different ids, whose leaves use the memory of their own nodes only, tick on one
blackboard.  Each goes through its ticks as it does on a blackboard of its own that holds the same
for it, and no tick changes what does not belong to its tree. -/
theorem together_agrees_alone (hne : t.id ≠ u.id) (ht : t.Secluded) (hu : u.Secluded)
    {bt bu : Blackboard} (hbt : bt.AgreesAt t.id b) (hbu : bu.AgreesAt u.id b) :
    (∀ fuel (moves : List (Move σ ⊕ Move τ)) x y,
      (t.alone fuel (moves.filterMap Sum.getLeft?) x bt).Agrees t.id
          (together t u fuel moves x y b).1 ∧
        (u.alone fuel (moves.filterMap Sum.getRight?) y bu).Agrees u.id
          (together t u fuel moves x y b).2) ∧
      (∀ fuel traced target b r, t.tick fuel traced target b = .ok r →
        b.SameOutside t.id r.board) ∧
      ∀ fuel traced target b r, u.tick fuel traced target b = .ok r →
        b.SameOutside u.id r.board := by
  have hsame : ∀ (v : TreeId) (b : Blackboard), b.AgreesAt v b := fun _ _ _ _ => rfl
  refine ⟨fun fuel moves x y => together_agrees hne ht hu fuel moves x y hbt hbu, ?_, ?_⟩
  · exact fun fuel traced target b r htick =>
      (tick_alongside ht fuel traced target (hsame t.id b)).2 r htick
  · exact fun fuel traced target b r htick =>
      (tick_alongside hu fuel traced target (hsame u.id b)).2 r htick

/-! ## Two leaves that count -/

/-- Counts its ticks in its own memory. -/
def tally : Node Unit :=
  .leaf { id := "a", title := "Tally" } (.custom
    { name := "Tally"
      tick := fun s =>
        (.running, s.remember "n" (.ofNat (((s.remembered "n").bind Json.natural?).getD 0 + 1))) })

theorem confined_set {α : Type} (t : TreeId) (id : NodeId) (key : String) (a : α)
    {value : Blackboard → Json}
    (h : ∀ b b', b.SameMemory t id b' → value b' = value b) :
    Confined t id fun b => (a, b.set key (value b) (.ofNode t id)) where
  reads b b' hb := by
    refine ⟨rfl, fun key' => ?_⟩
    simp only [Blackboard.get_set, h b b' hb, hb key']
  writes b key' scope haddress := by
    have hnode : (Scope.ofNode t id).address = .node t id := rfl
    simp only [Blackboard.get_set, hnode, haddress, and_false, if_false]

theorem tally_secluded (t : Tree Unit) (ht : t.root = some tally) : t.Secluded := by
  intro root hroot m hm
  obtain rfl : tally = root := Option.some.inj (ht.symm.trans hroot)
  obtain rfl := List.mem_singleton.1 hm
  refine ⟨Hooks.secluded_default t.id, fun s hs => ?_⟩
  rw [← hs]
  refine confined_set s.tree s.self.id "n" (Status.running, s.target) fun b b' hb => ?_
  rw [Scene.remembered, Scene.remembered, hb]

theorem together_agrees_alone_tally :
    (ofRoot tally).id ≠ { ofRoot tally with id := "u" }.id ∧ (ofRoot tally).Secluded ∧
      { ofRoot tally with id := "u" }.Secluded ∧
      ((ofRoot tally).alone 0 [⟨fun u => u, true⟩, ⟨fun u => u, true⟩] () ∅).Agrees "t"
        (together (ofRoot tally) { ofRoot tally with id := "u" } 0
          [.inl ⟨fun u => u, true⟩, .inr ⟨fun u => u, true⟩, .inl ⟨fun u => u, true⟩] () () ∅).1 := by
  have hne : (ofRoot tally).id ≠ { ofRoot tally with id := "u" }.id := by decide
  have ht := tally_secluded (ofRoot tally) rfl
  have hu := tally_secluded { ofRoot tally with id := "u" } rfl
  have hsame : ∀ t, (∅ : Blackboard).AgreesAt t ∅ := fun _ _ _ => rfl
  obtain ⟨hall, -, -⟩ := together_agrees_alone hne ht hu (hsame _) (hsame _)
  exact ⟨hne, ht, hu, (hall 0 [.inl ⟨fun u => u, true⟩, .inr ⟨fun u => u, true⟩,
    .inl ⟨fun u => u, true⟩] () ()).1⟩

end Tree
end BehaviorTrees
