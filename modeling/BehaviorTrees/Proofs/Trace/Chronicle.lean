import BehaviorTrees.Proofs.Node.Orderly

/-!
# Chronicles

The history of a run tells which nodes are open after it: `marks` starts from those open before and
follows the openings and closings.  In a `Chronicle` only closed nodes are opened, only open ones
are closed, and every report shows a blackboard that agrees with what was told up to there.
-/

namespace BehaviorTrees

/-! ## Entries -/

namespace Entry

def node : Entry → NodeId
  | report event _ => event.node
  | call node _ => node
  | reading node _ => node

/-- The hook that is called. -/
def call? : Entry → Option (NodeId × Phase)
  | call node phase => some (node, phase)
  | _ => none

/-- Which nodes are open after an entry. -/
def mark (before : NodeId → Bool) : Entry → NodeId → Bool
  | report event _, id =>
      if event.node = id then
        match event.phase with
        | .opening => true
        | .close => false
        | _ => before id
      else before id
  | _, id => before id

/-- What an entry says agrees with the nodes that were open before it. -/
def Fits (t : TreeId) (before : NodeId → Bool) : Entry → Prop
  | report event board =>
      (event.phase = .opening → before event.node = false) ∧
        (event.phase = .close → before event.node = true) ∧
          ∀ id, board.flagged t id = mark before (report event board) id
  | _ => True

@[simp] theorem mark_call (before : NodeId → Bool) (node : NodeId) (phase : Phase) :
    (call node phase).mark before = before := rfl

@[simp] theorem mark_reading (before : NodeId → Bool) (node : NodeId) (now : Nat) :
    (reading node now).mark before = before := rfl

theorem mark_of_ne (before : NodeId → Bool) {x : Entry} {id : NodeId} (h : x.node ≠ id) :
    x.mark before id = before id := by
  cases x with
  | report event board => exact if_neg h
  | call node phase => rfl
  | reading node now => rfl

theorem mark_report_of_ne (before : NodeId → Bool) {event : Event} (board : Blackboard)
    (ho : event.phase ≠ .opening) (hc : event.phase ≠ .close) :
    (report event board).mark before = before := by
  funext id
  by_cases h : event.node = id
  · cases hp : event.phase <;> simp_all [mark]
  · exact mark_of_ne before h

end Entry

/-- A history enters a node. -/
def Entered (id : NodeId) (H : List Entry) : Prop :=
  ∃ x ∈ H.filterMap Entry.event?, x.phase = .enter ∧ x.node = id

instance (id : NodeId) (H : List Entry) : Decidable (Entered id H) :=
  inferInstanceAs (Decidable (∃ x ∈ H.filterMap Entry.event?, _))

@[simp] theorem not_entered_nil (id : NodeId) : ¬Entered id [] := by
  simp [Entered]

@[simp] theorem entered_append {id : NodeId} {H H' : List Entry} :
    Entered id (H ++ H') ↔ Entered id H ∨ Entered id H' := by
  simp only [Entered, List.filterMap_append, List.mem_append, or_and_right, exists_or]

@[simp] theorem entered_report_cons {id : NodeId} {event : Event} {board : Blackboard}
    {H : List Entry} :
    Entered id (.report event board :: H) ↔
      (event.phase = .enter ∧ event.node = id) ∨ Entered id H := by
  simp [Entered, Entry.event?]

@[simp] theorem entered_call_cons {id node : NodeId} {phase : Phase} {H : List Entry} :
    Entered id (.call node phase :: H) ↔ Entered id H := by
  simp [Entered, Entry.event?]

@[simp] theorem entered_reading_cons {id node : NodeId} {now : Nat} {H : List Entry} :
    Entered id (.reading node now :: H) ↔ Entered id H := by
  simp [Entered, Entry.event?]

theorem Entered.exists_mem {id : NodeId} {H : List Entry} (h : Entered id H) :
    ∃ x ∈ H, x.node = id := by
  obtain ⟨event, hevent, -, rfl⟩ := h
  obtain ⟨x, hx, hxe⟩ := List.mem_filterMap.1 hevent
  refine ⟨x, hx, ?_⟩
  cases x with
  | report event' board =>
      obtain rfl : event' = event := by simpa [Entry.event?] using hxe
      rfl
  | call node phase => simp [Entry.event?] at hxe
  | reading node now => simp [Entry.event?] at hxe

/-! ## Histories -/

/-- Which nodes are open after a history. -/
def marks (before : NodeId → Bool) (H : List Entry) : NodeId → Bool := H.foldl Entry.mark before

@[simp] theorem marks_nil (before : NodeId → Bool) : marks before [] = before := rfl

@[simp] theorem marks_cons (before : NodeId → Bool) (x : Entry) (H : List Entry) :
    marks before (x :: H) = marks (x.mark before) H := rfl

theorem marks_append (before : NodeId → Bool) (H H' : List Entry) :
    marks before (H ++ H') = marks (marks before H) H' :=
  List.foldl_append

/-- Every entry fits what was told before it. -/
def Chronicle (t : TreeId) : (NodeId → Bool) → List Entry → Prop
  | _, [] => True
  | before, x :: H => x.Fits t before ∧ Chronicle t (x.mark before) H

@[simp] theorem chronicle_nil (t : TreeId) (before : NodeId → Bool) : Chronicle t before [] :=
  trivial

theorem chronicle_append {t : TreeId} {before : NodeId → Bool} {H H' : List Entry} :
    Chronicle t before (H ++ H') ↔
      Chronicle t before H ∧ Chronicle t (marks before H) H' := by
  induction H generalizing before with
  | nil => simp
  | cons x H ih => simp [Chronicle, ih, and_assoc]

/-- The blackboard shown by a report marks as open what the history up to it leaves open. -/
theorem Chronicle.flagged_report {t : TreeId} {before : NodeId → Bool} {pre post : List Entry}
    {event : Event} {board : Blackboard}
    (h : Chronicle t before (pre ++ .report event board :: post)) (id : NodeId) :
    board.flagged t id = marks before (pre ++ [.report event board]) id := by
  have hfits := (chronicle_append.1 h).2.1
  rw [marks_append]
  exact hfits.2.2 id

/-! ## Reports and their surroundings -/

def Entry.Tells (phase : Phase) (id : NodeId) (x : Entry) : Prop :=
  ∃ event board, x = .report event board ∧ event.phase = phase ∧ event.node = id

theorem entered_iff_exists_tells {id : NodeId} {H : List Entry} :
    Entered id H ↔ ∃ x ∈ H, x.Tells .enter id := by
  constructor
  · rintro ⟨event, hevent, hphase, hnode⟩
    obtain ⟨x, hx, hxe⟩ := List.mem_filterMap.1 hevent
    cases x with
    | report event' board =>
        obtain rfl : event' = event := by simpa [Entry.event?] using hxe
        exact ⟨_, hx, event', board, rfl, hphase, hnode⟩
    | call node phase => simp [Entry.event?] at hxe
    | reading node now => simp [Entry.event?] at hxe
  · rintro ⟨x, hx, event, board, rfl, hphase, hnode⟩
    exact ⟨event, List.mem_filterMap.2 ⟨_, hx, rfl⟩, hphase, hnode⟩

/-- Every report of a history is as it should be, given what was told before it and after it. -/
def EachReport (P : List Entry → Event → Blackboard → List Entry → Prop) :
    List Entry → List Entry → Prop
  | _, [] => True
  | pre, .report event board :: post =>
      P pre event board post ∧ EachReport P (pre ++ [.report event board]) post
  | pre, x :: post => EachReport P (pre ++ [x]) post

namespace EachReport

variable {P Q : List Entry → Event → Blackboard → List Entry → Prop} {pre H H' : List Entry}

theorem append (hext : ∀ pre event board post, P pre event board post →
    P pre event board (post ++ H')) (h : EachReport P pre H) (h' : EachReport P (pre ++ H) H') :
    EachReport P pre (H ++ H') := by
  induction H generalizing pre with
  | nil => simpa using h'
  | cons x H ih =>
      rw [List.append_cons] at h'
      cases x with
      | report event board => exact ⟨hext _ _ _ _ h.1, ih h.2 h'⟩
      | call node phase => exact ih h h'
      | reading node now => exact ih h h'

theorem of_append (h : EachReport P pre (H ++ H')) : EachReport P (pre ++ H) H' := by
  induction H generalizing pre with
  | nil => simpa using h
  | cons x H ih =>
      rw [List.append_cons]
      cases x with
      | report event board => exact ih h.2
      | call node phase => exact ih h
      | reading node now => exact ih h

theorem report {event : Event} {board : Blackboard} {post : List Entry}
    (h : EachReport P pre (H ++ .report event board :: post)) : P (pre ++ H) event board post :=
  h.of_append.1

theorem shift (earlier : List Entry) (hPQ : ∀ pre event board post, P pre event board post →
    Q (earlier ++ pre) event board post) (h : EachReport P pre H) :
    EachReport Q (earlier ++ pre) H := by
  induction H generalizing pre with
  | nil => trivial
  | cons x H ih =>
      cases x with
      | report event board =>
          refine ⟨hPQ _ _ _ _ h.1, ?_⟩
          rw [List.append_assoc]
          exact ih h.2
      | call node phase =>
          change EachReport Q (earlier ++ pre ++ [.call node phase]) H
          rw [List.append_assoc]
          exact ih h
      | reading node now =>
          change EachReport Q (earlier ++ pre ++ [.reading node now]) H
          rw [List.append_assoc]
          exact ih h

theorem of_forall (h : ∀ event ∈ H.filterMap Entry.event?, ∀ pre' board post,
    P pre' event board post) : EachReport P pre H := by
  induction H generalizing pre with
  | nil => trivial
  | cons x H ih =>
      cases x with
      | report event board =>
          exact ⟨h event List.mem_cons_self _ _ _,
            ih fun event' hevent => h event' (List.mem_cons_of_mem _ hevent)⟩
      | call node phase => exact ih h
      | reading node now => exact ih h

end EachReport

/-- A node that is entered while it is closed is opened next, and a node is opened only when it
has just been entered. -/
structure Prompt (t : TreeId) (pre : List Entry) (event : Event) (board : Blackboard)
    (post : List Entry) : Prop where
  opens : event.phase = .enter → board.flagged t event.node = false →
    ∃ x post', x.Tells .opening event.node ∧
      post = .call event.node .enter :: x :: .call event.node .opening :: post'
  entered : event.phase = .opening →
    ∃ pre' x, x.Tells .enter event.node ∧ pre = pre' ++ [x, .call event.node .enter]

namespace Prompt

variable {t : TreeId} {pre post : List Entry} {event : Event} {board : Blackboard}

theorem append_right (h : Prompt t pre event board post) (later : List Entry) :
    Prompt t pre event board (post ++ later) where
  opens he hb := by
    obtain ⟨x, post', hx, rfl⟩ := h.opens he hb
    exact ⟨x, post' ++ later, hx, rfl⟩
  entered := h.entered

theorem append_left (h : Prompt t pre event board post) (earlier : List Entry) :
    Prompt t (earlier ++ pre) event board post where
  opens := h.opens
  entered ho := by
    obtain ⟨pre', x, hx, rfl⟩ := h.entered ho
    exact ⟨earlier ++ pre', x, hx, by simp⟩

theorem of_phase (he : event.phase ≠ .enter) (ho : event.phase ≠ .opening) :
    Prompt t pre event board post :=
  ⟨fun h => (he h).elim, fun h => (ho h).elim⟩

end Prompt

theorem prompt_of_phase_eq_close {t : TreeId} {pre H : List Entry}
    (h : ∀ event ∈ H.filterMap Entry.event?, event.phase = .close) :
    EachReport (Prompt t) pre H :=
  EachReport.of_forall fun event hevent _ _ _ =>
    .of_phase (by simp [h event hevent]) (by simp [h event hevent])

/-- What is said promptly of two histories is said of them one after the other. -/
theorem prompt_append {t : TreeId} {pre H H' : List Entry} (h : EachReport (Prompt t) pre H)
    (h' : EachReport (Prompt t) [] H') : EachReport (Prompt t) pre (H ++ H') := by
  refine h.append (fun _ _ _ _ hP => hP.append_right H') ?_
  have hshift := h'.shift (Q := Prompt t) (pre ++ H) fun _ _ _ _ hP => hP.append_left _
  simpa using hshift

/-- A history breaks off while a node is being entered. -/
def EndsEntering (id : NodeId) (H : List Entry) : Prop :=
  ∃ pre x, x.Tells .enter id ∧ (H = pre ++ [x] ∨ H = pre ++ [x, .call id .enter])

/-- A node that is not entered stays closed. -/
theorem marks_eq_false_of_not_entered {t : TreeId} {before : NodeId → Bool}
    {pre H post : List Entry} {id : NodeId} (hprompt : EachReport (Prompt t) pre (H ++ post))
    (hpre : ¬EndsEntering id pre) (hH : ¬Entered id H) (hbefore : before id = false) :
    marks before H id = false := by
  induction H generalizing pre before with
  | nil => exact hbefore
  | cons x H ih =>
      rw [← List.singleton_append, entered_append, not_or] at hH
      have hnext : ¬EndsEntering id (pre ++ [x]) := by
        rintro ⟨pre', y, hy, heq | heq⟩
        · obtain ⟨event, board, rfl, hphase, hnode⟩ := hy
          obtain rfl := List.singleton_inj.1 (List.append_inj' heq rfl).2
          simp [hphase, hnode] at hH
        · rw [List.append_cons pre'] at heq
          exact hpre ⟨pre', y, hy, .inl (List.append_inj' heq rfl).1⟩
      cases x with
      | report event board =>
          refine ih hprompt.2 hnext hH.2 ?_
          by_cases hid : event.node = id
          · have hphase : event.phase ≠ .opening := by
              intro hphase
              obtain ⟨pre', y, hy, heq⟩ := hprompt.1.entered hphase
              exact hpre ⟨pre', y, hid ▸ hy, .inr (hid ▸ heq)⟩
            cases hp : event.phase <;> simp_all [Entry.mark]
          · rw [Entry.mark_of_ne before (x := .report event board) hid]
            exact hbefore
      | call node phase => exact ih hprompt hnext hH.2 hbefore
      | reading node now => exact ih hprompt hnext hH.2 hbefore

/-- A node that is entered the next time is opened, if it was closed before. -/
theorem exists_opening_of_next_enter {t : TreeId} {before : NodeId → Bool}
    {pre mid post : List Entry} {event : Event} {board : Blackboard}
    (hchronicle : Chronicle t before (mid ++ .report event board :: post))
    (hprompt : EachReport (Prompt t) pre (mid ++ .report event board :: post))
    (hpre : ¬EndsEntering event.node pre) (hbefore : before event.node = false)
    (hmid : ¬Entered event.node mid) (hphase : event.phase = .enter) :
    ∃ x post', x.Tells .opening event.node ∧
      post = .call event.node .enter :: x :: .call event.node .opening :: post' := by
  have hmark : marks before mid event.node = false :=
    marks_eq_false_of_not_entered hprompt hpre hmid hbefore
  have hflag : board.flagged t event.node = false := by
    rw [hchronicle.flagged_report, marks_append]
    simpa [Entry.mark_report_of_ne, hphase] using hmark
  exact hprompt.report.opens hphase hflag

/-- A node that is open stays so for as long as it is not closed. -/
theorem marks_eq_true_of_not_closed {before : NodeId → Bool} {H : List Entry} {id : NodeId}
    (hH : ∀ x ∈ H, ¬x.Tells .close id) (hbefore : before id = true) : marks before H id = true := by
  induction H generalizing before with
  | nil => exact hbefore
  | cons x H ih =>
      obtain ⟨hx, hlater⟩ := List.forall_mem_cons.1 hH
      refine ih hlater ?_
      by_cases hid : x.node = id
      · cases x with
        | report event board =>
            obtain rfl : event.node = id := hid
            have hphase : event.phase ≠ .close := fun hphase => hx ⟨event, board, rfl, hphase, rfl⟩
            cases hp : event.phase <;> simp_all [Entry.mark]
        | call node phase => exact hbefore
        | reading node now => exact hbefore
      · rw [Entry.mark_of_ne before hid]
        exact hbefore

/-- The hooks called are those of the steps reported, in the same order. -/
def CallsAsTold (H : List Entry) : Prop :=
  H.filterMap Entry.call? = (H.filterMap Entry.event?).map fun x => (x.node, x.phase)

theorem CallsAsTold.append {H H' : List Entry} (h : CallsAsTold H) (h' : CallsAsTold H') :
    CallsAsTold (H ++ H') := by
  rw [CallsAsTold] at h h' ⊢
  simp only [List.filterMap_append, List.map_append, h, h']

/-- A history tells truly how the flags of a blackboard came to be those of another one. -/
structure Recorded (t : TreeId) (b b' : Blackboard) (H : List Entry) : Prop where
  calls : CallsAsTold H
  chronicle : Chronicle t (b.flagged t) H
  flagged_eq : ∀ id, b'.flagged t id = marks (b.flagged t) H id
  prompt : EachReport (Prompt t) [] H

namespace Recorded

variable {t : TreeId} {b b' b'' : Blackboard} {H H' : List Entry}

theorem refl (t : TreeId) (b : Blackboard) : Recorded t b b [] :=
  ⟨rfl, trivial, fun _ => rfl, trivial⟩

theorem trans (h : Recorded t b b' H) (h' : Recorded t b' b'' H') :
    Recorded t b b'' (H ++ H') := by
  have hmarks : marks (b.flagged t) H = b'.flagged t := funext fun id => (h.flagged_eq id).symm
  refine ⟨h.calls.append h'.calls, chronicle_append.2 ⟨h.chronicle, ?_⟩, fun id => ?_,
    prompt_append h.prompt h'.prompt⟩
  · rw [hmarks]
    exact h'.chronicle
  · rw [h'.flagged_eq, marks_append, hmarks]

end Recorded

/-! ## The last answer of a node -/

namespace Event

/-- What the last of the events in which a node is left says of its answer. -/
def lastStatus (id : NodeId) (events : List Event) : Option Status :=
  ((ofPhase .exit events).filter (·.node = id)).getLast?.bind (·.status)

theorem lastStatus_append_exit (events : List Event) {x : Event} (hx : x.phase = .exit) :
    lastStatus x.node (events ++ [x]) = x.status := by
  simp [lastStatus, ofPhase, hx]

theorem lastStatus_append_of_forall {id : NodeId} (events : List Event) {later : List Event}
    (h : ∀ x ∈ later, x.phase = .exit → x.node ≠ id) :
    lastStatus id (events ++ later) = lastStatus id events := by
  have hnone : (ofPhase .exit later).filter (·.node = id) = [] := by
    simp only [ofPhase, List.filter_eq_nil_iff, List.mem_filter, decide_eq_true_eq]
    exact fun x hx => h x hx.1 hx.2
  simp only [lastStatus, ofPhase, List.filter_append] at hnone ⊢
  rw [hnone, List.append_nil]

/-- Where a node is left among the later events, these alone tell its last answer. -/
theorem lastStatus_append_of_mem (events : List Event) {later : List Event} {x : Event}
    (hx : x ∈ later) (hexit : x.phase = .exit) :
    lastStatus x.node (events ++ later) = lastStatus x.node later := by
  have hne : (ofPhase .exit later).filter (·.node = x.node) ≠ [] := by
    refine List.ne_nil_of_mem (List.mem_filter.2 ⟨List.mem_filter.2 ⟨hx, ?_⟩, ?_⟩) <;>
      simp [hexit]
  simp only [lastStatus, ofPhase, List.filter_append] at hne ⊢
  rw [List.getLast?_append_of_ne_nil _ hne]

end Event
end BehaviorTrees
