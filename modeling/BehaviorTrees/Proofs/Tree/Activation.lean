import BehaviorTrees.Proofs.Tree.OpenNodes

/-!
# Activations

An activation of a node lasts from an opening to the next closing.  In a chronicle the openings and
closings of a node take turns, so over all the ticks of an orderly tree every opening is closed at
most once, and those not closed yet are those of the stored list.
-/

namespace BehaviorTrees

/-! ## Turns -/

/-- The openings and closings of a node, in their order. -/
def Event.activations (id : NodeId) (events : List Event) : List Phase :=
  (events.filter fun x => x.node = id ∧ (x.phase = .opening ∨ x.phase = .close)).map (·.phase)

/-- What comes at a position if openings and closings take turns. -/
def Phase.turn (isOpen : Bool) (k : Nat) : Phase :=
  if (k % 2 = 0) = (isOpen = true) then .close else .opening

theorem Phase.turn_zero (isOpen : Bool) :
    Phase.turn isOpen 0 = if isOpen then .close else .opening := by
  cases isOpen <;> simp [turn]

theorem Phase.turn_succ (isOpen : Bool) (k : Nat) :
    Phase.turn isOpen (k + 1) = Phase.turn (!isOpen) k := by
  have hparity : (k + 1) % 2 = 0 ↔ ¬k % 2 = 0 := by omega
  cases isOpen <;> by_cases hk : k % 2 = 0 <;> simp [turn, hparity, hk]

/-- An entry that opens or closes a node is the first of its openings and closings, and any other
entry is none of them. -/
theorem Entry.activations_cons {t : TreeId} {before : NodeId → Bool} {x : Entry}
    (hx : x.Fits t before) (id : NodeId) (H : List Entry) :
    (Event.activations id ((x :: H).filterMap Entry.event?) =
        Event.activations id (H.filterMap Entry.event?) ∧ x.mark before id = before id) ∨
      (Event.activations id ((x :: H).filterMap Entry.event?) =
        Phase.turn (before id) 0 :: Event.activations id (H.filterMap Entry.event?) ∧
          x.mark before id = !before id) := by
  cases x with
  | call node phase => exact .inl ⟨rfl, rfl⟩
  | reading node now => exact .inl ⟨rfl, rfl⟩
  | report event board =>
      by_cases hid : event.node = id
      · subst hid
        cases hp : event.phase with
        | opening =>
            have hclosed := hx.1 hp
            right
            simp [Event.activations, Entry.event?, Entry.mark, Phase.turn_zero, hp, hclosed]
        | close =>
            have hopen := hx.2.1 hp
            right
            simp [Event.activations, Entry.event?, Entry.mark, Phase.turn_zero, hp, hopen]
        | _ =>
            left
            simp [Event.activations, Entry.event?, Entry.mark, hp]
      · left
        simp [Event.activations, Entry.event?, Entry.mark, hid]

namespace Chronicle

variable {t : TreeId} {before : NodeId → Bool} {H : List Entry}

theorem activations_getElem? (h : Chronicle t before H) (id : NodeId) {k : Nat} {p : Phase}
    (hk : (Event.activations id (H.filterMap Entry.event?))[k]? = some p) :
    p = Phase.turn (before id) k := by
  induction H generalizing before k with
  | nil => simp [Event.activations] at hk
  | cons x H ih =>
      obtain ⟨hx, hH⟩ := h
      rcases Entry.activations_cons hx id H with ⟨heq, hmark⟩ | ⟨heq, hmark⟩
      · rw [heq] at hk
        rw [ih hH hk, hmark]
      · rw [heq] at hk
        cases k with
        | zero => simpa using hk.symm
        | succ k =>
            rw [List.getElem?_cons_succ] at hk
            rw [ih hH hk, hmark, Phase.turn_succ]

/-- A node is open after a chronicle if the last of its openings and closings is an opening; if
there is none, nothing has changed. -/
theorem marks_eq (h : Chronicle t before H) (id : NodeId) :
    marks before H id =
      match (Event.activations id (H.filterMap Entry.event?)).getLast? with
      | some p => decide (p = .opening)
      | none => before id := by
  induction H generalizing before with
  | nil => rfl
  | cons x H ih =>
      obtain ⟨hx, hH⟩ := h
      rw [marks_cons, ih hH]
      rcases Entry.activations_cons hx id H with ⟨heq, hmark⟩ | ⟨heq, hmark⟩
      · rw [heq, hmark]
      · rw [heq, List.getLast?_cons, hmark]
        cases (Event.activations id (H.filterMap Entry.event?)).getLast? with
        | some p => rfl
        | none => cases before id <;> simp [Phase.turn_zero]

end Chronicle

/-! ## Runs -/

namespace Tree

variable {σ : Type} {t : Tree σ} {root : Node σ} {b : Blackboard}

theorem flatMap_events (rs : List (TickResult σ)) :
    rs.flatMap TickResult.events = (rs.flatMap TickResult.history).filterMap Entry.event? := by
  rw [List.filterMap_flatMap]
  rfl

/-- Over all the ticks of an orderly tree the openings and closings of a node alternate, beginning
with an opening; after them those nodes are open, and stored as such, whose last one is an opening;
and hooks are called exactly as it is told. -/
theorem openings_closings_alternate (hroot : root.ids.Nodup) (ho : root.Orderly t.id)
    (ht : t.root = some root) {b₀ : Blackboard} (hb₀ : b₀.hasTree t.id = false)
    {rs : List (TickResult σ)} (hrun : t.Run b₀ rs b) (id : NodeId) :
    (∀ k p, (Event.activations id (rs.flatMap TickResult.events))[k]? = some p →
        p = if k % 2 = 0 then .opening else .close) ∧
      ((Event.activations id (rs.flatMap TickResult.events)).getLast? = some .opening ↔
        id ∈ t.openNodes b) ∧
      (rs.flatMap TickResult.history).filterMap Entry.call? =
        (rs.flatMap TickResult.events).map fun x => (x.node, x.phase) := by
  have h₀ : AtRest t root b₀ := .of_hasTree_eq_false hb₀
  have hrec := hrun.recorded hroot ho ht h₀
  have hclosed : b₀.flagged t.id id = false := Blackboard.flagged_of_hasTree_eq_false hb₀ id
  rw [flatMap_events]
  refine ⟨?_, ?_, hrec.calls⟩
  · intro k p hk
    rw [hrec.chronicle.activations_getElem? id hk, hclosed, Phase.turn]
    rcases Nat.mod_two_eq_zero_or_one k with hmod | hmod <;> simp [hmod]
  · have hflag := hrec.flagged_eq id
    rw [hrec.chronicle.marks_eq, hclosed] at hflag
    rw [← (hrun.atRest hroot ho ht h₀).flagged_iff, hflag]
    split <;> simp_all

theorem openings_closings_alternate_retried :
    ∃ rs b, (ofRoot retriedSequence).Run ∅ rs b ∧
      Event.activations "s" (rs.flatMap TickResult.events) = [.opening, .close, .opening] ∧
      (∀ k p, (Event.activations "s" (rs.flatMap TickResult.events))[k]? = some p →
        p = if k % 2 = 0 then .opening else .close) ∧
      "s" ∈ (ofRoot retriedSequence).openNodes b := by
  obtain ⟨⟨rs, b⟩, hticks, hshape⟩ :
      ∃ x ∈ (ofRoot retriedSequence).ticks 2 true [[.success], [.failure, .success]] ∅,
        Event.activations "s" (x.1.flatMap TickResult.events) = [.opening, .close, .opening] := by
    decide +kernel
  have hrun : (ofRoot retriedSequence).Run ∅ rs b := Run.nil.ticks hticks
  obtain ⟨hturns, hlast, -⟩ := openings_closings_alternate (by decide) retriedSequence_orderly rfl
    (by decide) hrun "s"
  exact ⟨rs, b, hrun, hshape, hturns, hlast.1 (by rw [hshape]; rfl)⟩

end Tree
end BehaviorTrees
