import BehaviorTrees.Proofs.Trace.Chronicle
import Mathlib.Data.List.DropRight

/-!
# The deeds of a node

What a node does shows in the history as its `Deed`s: it ticks, it reads the clock, and it runs the
nodes it holds.  The deeds are asked for `since` a step of the node's life was told for the last
time, as since it was opened or ticked.
-/

namespace BehaviorTrees

/-! ## Since a step was told -/

instance Entry.decidableTells (phase : Phase) (id : NodeId) (x : Entry) :
    Decidable (x.Tells phase id) :=
  match x with
  | .report event board =>
      decidable_of_iff (event.phase = phase ∧ event.node = id) <| by
        constructor
        · exact fun h => ⟨event, board, rfl, h⟩
        · rintro ⟨event', board', heq, h⟩
          cases heq
          exact h
  | .call _ _ => .isFalse fun ⟨_, _, heq, _⟩ => nomatch heq
  | .reading _ _ => .isFalse fun ⟨_, _, heq, _⟩ => nomatch heq

@[simp] theorem Entry.tells_report {phase : Phase} {id : NodeId} {event : Event}
    {board : Blackboard} :
    (report event board).Tells phase id ↔ event.phase = phase ∧ event.node = id := by
  constructor
  · rintro ⟨event', board', heq, h⟩
    cases heq
    exact h
  · exact fun h => ⟨event, board, rfl, h⟩

@[simp] theorem Entry.not_tells_call {phase phase' : Phase} {id id' : NodeId} :
    ¬(call id' phase').Tells phase id := nofun

@[simp] theorem Entry.not_tells_reading {phase : Phase} {id id' : NodeId} {now : Nat} :
    ¬(reading id' now).Tells phase id := nofun

/-- What was told after the last report of a step of a node; all of it, if there is none. -/
def since (phase : Phase) (id : NodeId) (H : List Entry) : List Entry :=
  H.rtakeWhile fun x => ¬x.Tells phase id

section

variable {phase : Phase} {id : NodeId} {H L : List Entry} {x : Entry}

@[simp] theorem since_nil : since phase id [] = [] := rfl

theorem since_append (hL : ∀ x ∈ L, ¬x.Tells phase id) :
    since phase id (H ++ L) = since phase id H ++ L := by
  induction L using List.reverseRecOn with
  | nil => simp
  | append_singleton L x ih =>
      have hx : ¬x.Tells phase id := hL x (by simp)
      rw [← List.append_assoc, since, List.rtakeWhile_concat, if_pos (by simpa using hx),
        ← List.append_assoc]
      exact congrArg (· ++ [x]) (ih fun y hy => hL y (by simp [hy]))

theorem since_append_cons (hx : x.Tells phase id) (hL : ∀ x ∈ L, ¬x.Tells phase id) :
    since phase id (H ++ x :: L) = L := by
  have hlast : since phase id (H ++ [x]) = [] := by
    rw [since, List.rtakeWhile_concat, if_neg (by simpa using hx)]
  rw [List.append_cons, since_append hL, hlast, List.nil_append]

/-- Once the step has been told, what was told before does not matter. -/
theorem since_append_of_tells (hL : ∃ x ∈ L, x.Tells phase id) :
    since phase id (H ++ L) = since phase id L := by
  induction L using List.reverseRecOn with
  | nil => simp at hL
  | append_singleton L y ih =>
      by_cases hy : y.Tells phase id
      · rw [← List.append_assoc, since_append_cons hy (L := []) (by simp),
          since_append_cons hy (L := []) (by simp)]
      · obtain ⟨x, hx, htells⟩ := hL
        have hmem : x ∈ L := by
          rcases List.mem_append.1 hx with hx | hx
          · exact hx
          · exact (hy (List.mem_singleton.1 hx ▸ htells)).elim
        have hlast : ∀ z ∈ [y], ¬z.Tells phase id := by simpa using hy
        rw [← List.append_assoc, since_append hlast, since_append hlast, ih ⟨x, hmem, htells⟩]

theorem since_subset : since phase id H ⊆ H := (List.rtakeWhile_suffix _ _).subset

theorem exists_eq_append_since (hH : ∃ x ∈ H, x.Tells phase id) :
    ∃ front x, H = front ++ x :: since phase id H ∧ x.Tells phase id := by
  induction H using List.reverseRecOn with
  | nil => simp at hH
  | append_singleton H y ih =>
      by_cases hy : y.Tells phase id
      · exact ⟨H, y, by rw [since_append_cons hy (by simp)], hy⟩
      · have hlast : ∀ z ∈ [y], ¬z.Tells phase id := by simpa using hy
        obtain ⟨front, x, heq, hx⟩ := ih (by simpa [or_and_right, exists_or, hy] using hH)
        refine ⟨front, x, ?_, hx⟩
        rw [since_append hlast, ← List.cons_append, ← List.append_assoc, ← heq]

end

/-- A node that is not open in the end has been closed after it was entered for the last time. -/
theorem exists_close_since_enter {t : TreeId} {before : NodeId → Bool} {pre H : List Entry}
    {id : NodeId} (hchronicle : Chronicle t before H) (hprompt : EachReport (Prompt t) pre H)
    (hentered : Entered id H) (hclosed : marks before H id = false) :
    ∃ x ∈ since .enter id H, x.Tells .close id := by
  by_contra hnone
  have hnot : ∀ x ∈ since .enter id H, ¬x.Tells .close id := fun x hx htells =>
    hnone ⟨x, hx, htells⟩
  obtain ⟨front, x, hH, event, board, rfl, hphase, rfl⟩ :=
    exists_eq_append_since (entered_iff_exists_tells.1 hentered)
  rw [hH] at hchronicle hprompt hclosed
  rw [List.append_cons, marks_append] at hclosed
  by_cases hflag : board.flagged t event.node = true
  · have hopen := hchronicle.flagged_report event.node
    rw [marks_eq_true_of_not_closed hnot (hopen.symm.trans hflag)] at hclosed
    cases hclosed
  · -- entered while it was closed, the node is opened next
    obtain ⟨y, post, ⟨opening, board', rfl, hopening, hnode⟩, hpost⟩ :=
      hprompt.report.opens hphase (by simpa using hflag)
    rw [hpost] at hnot
    rw [hpost, marks_cons, marks_cons, marks_eq_true_of_not_closed] at hclosed
    · cases hclosed
    · exact fun z hz => hnot z (by simp [hz])
    · simp [Entry.mark, hopening, hnode]

/-- The reports of a history, each with what was told before it. -/
def reports (H : List Entry) : List (List Entry × Event × Blackboard) :=
  (List.range H.length).filterMap fun k =>
    match H[k]? with
    | some (Entry.report event board) => some (H.take k, event, board)
    | _ => none

theorem exists_of_mem_reports {H : List Entry} {x : List Entry × Event × Blackboard}
    (h : x ∈ reports H) : ∃ post, H = x.1 ++ .report x.2.1 x.2.2 :: post := by
  obtain ⟨k, -, hk⟩ := List.mem_filterMap.1 h
  split at hk
  · rename_i event board hget
    obtain rfl := Option.some.inj hk
    obtain ⟨hlt, hget⟩ := List.getElem?_eq_some_iff.1 hget
    refine ⟨H.drop (k + 1), ?_⟩
    rw [← hget, ← List.drop_eq_getElem_cons hlt, List.take_append_drop]
  · cases hk

/-! ## Deeds -/

/-- What a node does in the course of its turns. -/
inductive Deed where
  | ticks
  /-- It reads the clock, when it is opened or after it has begun to tick. -/
  | reads (now : Nat)
  /-- It runs the node it holds at a position. -/
  | runs (position : Nat) (answer : Status)
deriving DecidableEq

/-- The position that was run, and the answer. -/
def Deed.run? : Deed → Option (Nat × Status)
  | runs k s => some (k, s)
  | _ => none

/-- The runs among some deeds, with their answers. -/
def runsIn (ds : List Deed) : List (Nat × Status) := ds.filterMap Deed.run?

@[simp] theorem runsIn_nil : runsIn [] = [] := rfl

@[simp] theorem runsIn_append (ds ds' : List Deed) : runsIn (ds ++ ds') = runsIn ds ++ runsIn ds' :=
  List.filterMap_append

@[simp] theorem runsIn_ticks_cons (ds : List Deed) : runsIn (.ticks :: ds) = runsIn ds := rfl

@[simp] theorem runsIn_reads_cons (now : Nat) (ds : List Deed) :
    runsIn (.reads now :: ds) = runsIn ds := rfl

@[simp] theorem runsIn_runs_cons (k : Nat) (s : Status) (ds : List Deed) :
    runsIn (.runs k s :: ds) = (k, s) :: runsIn ds := rfl

/-- The runs put down one after the other. -/
def deedsOf (made : List (Nat × Status)) : List Deed := made.map fun r => .runs r.1 r.2

@[simp] theorem runsIn_deedsOf (made : List (Nat × Status)) : runsIn (deedsOf made) = made := by
  induction made with
  | nil => rfl
  | cons r made ih => exact congrArg (r :: ·) ih

namespace Node

variable {σ : Type} {n m : Node σ} {H H' : List Entry}

/-- The position of an id among those of the nodes a node holds. -/
def position? (n : Node σ) (id : NodeId) : Option Nat := n.kids.findIdx? (·.id = id)

/-- A run of a node shows where that node is left. -/
def deed? (n : Node σ) : Entry → Option Deed
  | .report event _ =>
      match event.phase, event.status with
      | .tick, _ => if event.node = n.id then some .ticks else none
      | .exit, some s => (n.position? event.node).map (.runs · s)
      | _, _ => none
  | .call _ _ => none
  | .reading id now => if id = n.id then some (.reads now) else none

def deeds (n : Node σ) (H : List Entry) : List Deed := H.filterMap n.deed?

/-- The runs of the nodes a node holds, with the answers, in the order in which they ended. -/
def runs (n : Node σ) (H : List Entry) : List (Nat × Status) := runsIn (n.deeds H)

@[simp] theorem deeds_nil : n.deeds [] = [] := rfl

@[simp] theorem deeds_call_cons {id : NodeId} {phase : Phase} :
    n.deeds (.call id phase :: H) = n.deeds H := rfl

@[simp] theorem deeds_reading_cons {now : Nat} :
    n.deeds (.reading n.id now :: H) = .reads now :: n.deeds H :=
  List.filterMap_cons_some (if_pos rfl)

theorem deeds_append : n.deeds (H ++ H') = n.deeds H ++ n.deeds H' := List.filterMap_append

theorem position?_eq_none {id : NodeId} (h : ∀ c ∈ n.kids, c.id ≠ id) : n.position? id = none := by
  simpa [position?] using h

theorem position?_id (hn : n.ids.Nodup) : n.position? n.id = none :=
  position?_eq_none fun _ hc heq =>
    id_notMem_ids_of_kid hn hc (heq ▸ id_mem_ids (mem_nodes_self _))

theorem nodup_map_id_kids (hn : n.ids.Nodup) : (n.kids.map id).Nodup := by
  rw [ids_eq, List.nodup_cons, List.nodup_flatMap] at hn
  refine List.pairwise_map.2 (hn.2.2.imp fun hdisjoint heq => ?_)
  exact hdisjoint (id_mem_ids (mem_nodes_self _)) (heq ▸ id_mem_ids (mem_nodes_self _))

/-- Where ids are distinct a node is found at the position at which it is held. -/
theorem position?_of_getElem? (hn : n.ids.Nodup) {k : Nat} {c : Node σ}
    (hc : n.kids[k]? = some c) : n.position? c.id = some k := by
  obtain ⟨hk, rfl⟩ := List.getElem?_eq_some_iff.1 hc
  refine List.findIdx?_eq_some_iff_getElem.2 ⟨hk, by simp, fun j hj heq => ?_⟩
  have hids : (n.kids.map id)[j]? = (n.kids.map id)[k]? := by
    simpa [List.getElem?_eq_getElem, hj.trans hk, hk] using heq
  exact Nat.ne_of_lt hj
    ((List.getElem?_inj (by simpa using hj.trans hk) (nodup_map_id_kids hn)).1 hids)

end Node
end BehaviorTrees
