import BehaviorTrees.Proofs.Execution.Mirror
import BehaviorTrees.Proofs.Execution.Work
import BehaviorTrees.Proofs.Tree.Session
import BehaviorTrees.Proofs.Tree.TickTrace

/-!
# Sessions of twin trees

A tree and a twin of it tick on blackboards of their own.  If these are alike before a tick, then
the ticks give the same answer and leave the same target behind, the hooks of the nodes they share
are called in the same order, and the blackboards are alike again.
-/

namespace BehaviorTrees

variable {σ : Type} {κ : Origin} {moved : List NodeId}

/-! ## Calls -/

theorem Traversal.callsOf_history (κ : Origin) (w : Traversal σ) :
    w.history.filterMap (Entry.callOf? κ) = (w.callsOf κ).reverse := by
  rw [history, callsOf, List.filterMap_reverse]

theorem Entry.callOf?_some : Entry.callOf? some = Entry.call? := by
  funext x
  cases x <;> rfl

theorem Entry.mem_callOf? {H : List Entry} {i : NodeId} {phase : Phase} :
    (i, phase) ∈ H.filterMap (Entry.callOf? κ) ↔
      ∃ j, κ j = some i ∧ (j, phase) ∈ H.filterMap Entry.call? := by
  simp only [List.mem_filterMap]
  constructor
  · rintro ⟨x, hx, hcall⟩
    cases x with
    | call j p =>
        obtain ⟨i', hi', heq⟩ := Option.map_eq_some_iff.1 hcall
        obtain ⟨rfl, rfl⟩ : i' = i ∧ p = phase := by simpa using heq
        exact ⟨j, hi', _, hx, rfl⟩
    | report event board => cases hcall
    | reading node now => cases hcall
  · rintro ⟨j, hj, x, hx, hcall⟩
    cases x with
    | call j' p =>
        obtain ⟨rfl, rfl⟩ : j' = j ∧ p = phase := by simpa [Entry.call?] using hcall
        exact ⟨_, hx, by simp [Entry.callOf?, hj]⟩
    | report event board => cases hcall
    | reading node now => cases hcall

theorem CallsAsTold.entered_iff {H : List Entry} (h : CallsAsTold H) {i : NodeId} :
    Entered i H ↔ (i, Phase.enter) ∈ H.filterMap Entry.call? := by
  rw [h, List.mem_map]
  simp [Entered, and_comm]

/-- Where the calls are the same, a node is entered if and only if the one it stands for is. -/
theorem Alike.entered_iff {e : Setting σ} {w w' : Traversal σ} (h : Alike κ moved e w w')
    (hdistinct : κ.Distinct) (hcalls : CallsAsTold w.history) (hcalls' : CallsAsTold w'.history)
    {i j : NodeId} (hκ : κ j = some i) : Entered j w'.history ↔ Entered i w.history := by
  have hsame : w'.history.filterMap (Entry.callOf? κ) = w.history.filterMap Entry.call? := by
    rw [← Entry.callOf?_some, Traversal.callsOf_history, Traversal.callsOf_history, h.calls]
  rw [hcalls.entered_iff, hcalls'.entered_iff, ← hsame, Entry.mem_callOf?]
  constructor
  · exact fun hj => ⟨j, hκ, hj⟩
  · rintro ⟨j', hκ', hj'⟩
    exact hdistinct hκ hκ' ▸ hj'

theorem filterMap_filter_of_forall {p p' : NodeId → Bool}
    (h : ∀ {i j}, κ j = some i → p' j = p i) (l : List NodeId) :
    (l.filter p').filterMap κ = (l.filterMap κ).filter p := by
  rw [List.filterMap_filter, List.filter_filterMap]
  refine List.filterMap_congr fun j _ => ?_
  cases hκ : κ j with
  | none => simp
  | some i => cases hp : p i <;> simp [Option.filter, h hκ, hp]

namespace Tree

variable {t : Tree σ} {root root' : Node σ} {fuel : Nat} {traced : Bool} {target : σ}
  {b b' : Blackboard} {s : Status} {w w' : Traversal σ} {r r' : TickResult σ}
  {kept : List NodeId}

/-! ## Ticks -/

/-- The tree with other nodes. -/
def withRoot (root : Node σ) (t : Tree σ) : Tree σ := { t with root := some root }

/-- The blackboards that a tree and one that is kindred left behind. -/
structure Level (κ : Origin) (moved : List NodeId) (t t' : Tree σ) (root root' : Node σ)
    (b b' : Blackboard) : Prop where
  board : b.SameOff t.id b'
  records : ∀ {i j}, κ j = some i → ∀ key ∈ Key.ofNode, (i ∈ moved → key ≠ Key.runningChild) →
    b'.get key (.ofNode t.id j) = b.get key (.ofNode t.id i)
  openNodes : (t'.openNodes b').filterMap κ = t.openNodes b
  rest : AtRest t root b
  rest' : AtRest t' root' b'

/-- Two ticks with the same answer and the same target, in which the hooks of the nodes of the one
tree and of those that stand for them are called in the same order. -/
structure TickResult.Alike (κ : Origin) (r r' : TickResult σ) : Prop where
  status : r'.status = r.status
  target : r'.target = r.target
  calls : r'.history.filterMap (Entry.callOf? κ) = r.history.filterMap Entry.call?

/-- The calls of the hooks of some of the nodes. -/
def TickResult.callsAmong (kept : List NodeId) (r : TickResult σ) : List (NodeId × Phase) :=
  (r.history.filterMap Entry.call?).filter (·.1 ∈ kept)

theorem TickResult.Alike.callsAmong_eq (h : r.Alike κ r') (hdistinct : κ.Distinct)
    (hkept : ∀ i ∈ kept, κ i = some i) : r'.callsAmong kept = r.callsAmong kept := by
  rw [callsAmong, callsAmong, ← h.calls, List.filter_filterMap, List.filter_filterMap]
  refine List.filterMap_congr fun x _ => ?_
  cases x with
  | report event board => rfl
  | reading node now => rfl
  | call j phase =>
      by_cases hj : j ∈ kept
      · simp [Entry.call?, Entry.callOf?, hkept j hj]
      · cases hκ : κ j with
        | none => simp [Entry.call?, Entry.callOf?, Option.filter, hκ, hj]
        | some i =>
            have hi : i ∉ kept := fun hi => hj (hdistinct hκ (hkept i hi) ▸ hi)
            simp [Entry.call?, Entry.callOf?, Option.filter, hκ, hj, hi]

theorem keepRecord_sameOff {e : Setting σ} {w w' : Traversal σ}
    (h : w.board.SameOff e.tree w'.board) (current current' : List NodeId) :
    (keepRecord e current w).SameOff e.tree (keepRecord e current' w') := by
  have hopen : (Scope.ofTree e.tree).address.IsRecord e.tree Key.openNodes :=
    ⟨rfl, by simp [Key.ofTree]⟩
  have hcount : (Scope.ofTree e.tree).address.IsRecord e.tree Key.nodeCount :=
    ⟨rfl, by simp [Key.ofTree]⟩
  exact (((h.set_left hopen _).set_right hopen _).set_left hcount _).set_right hcount _

theorem Level.start (hlevel : Level κ moved t (t.withRoot root') root root' b b') :
    Alike κ moved (t.setting traced) ({ target, board := b } : Traversal σ)
      { target, board := b' } :=
  ⟨rfl, hlevel.board, rfl, hlevel.records, rfl⟩

/-- The turn of the root of a kindred tree. -/
theorem exists_execute_of_echoes {L : Traversal σ → Traversal σ → Prop}
    (hechoes : Echoes L (t.setting traced) fuel root root' { target, board := b }
      { target, board := b' } false root root')
    (hstart : L { target, board := b } { target, board := b' })
    (hrun : root.execute (t.setting traced) fuel { target, board := b } = some (s, w)) :
    ∃ w', root'.execute (t.setting traced) fuel { target, board := b' } = some (s, w') ∧
      L w w' := by
  rcases eq_none_or_exists_of_rel (hechoes (.refl _ root _) (.refl _ root' _) (fun _ _ => by simp)
      (fun _ _ => by simp) hstart) with
    ⟨hnone, -⟩ | ⟨⟨s₁, w₁⟩, ⟨s', w'⟩, hsome, hsome', hs, hw⟩
  · cases hrun.symm.trans hnone
  · obtain ⟨rfl, rfl⟩ : s = s₁ ∧ w = w₁ := by simpa [hrun] using hsome
    obtain rfl : s' = s := hs
    exact ⟨w', hsome', hw⟩

/-- What the two trees close after the turns of their roots is the same, but for added nodes. -/
theorem Level.afterDiff (hkin : Kindred κ t.id root root')
    (hlevel : Level κ moved t (t.withRoot root') root root' b b')
    (hrun : root.execute (t.setting traced) fuel { target, board := b } = some (s, w))
    (hrun' : root'.execute (t.setting traced) fuel { target, board := b' } = some (s, w'))
    (hw : Alike κ moved (t.setting traced) w w') :
    Alike κ moved (t.setting traced) (t.afterDiff root traced b w)
      ((t.withRoot root').afterDiff root' traced b' w') := by
  have hcurrent := openNodes_eq_nil_or_path (e := t.setting traced) hkin.nodup hkin.orderly hrun
  have hcurrent' :=
    openNodes_eq_nil_or_path (e := t.setting traced) hkin.nodup' hkin.orderly' hrun'
  obtain ⟨hsettled, -⟩ :=
    execute_settled_of_empty (e := t.setting traced) hkin.nodup hkin.orderly hrun
  obtain ⟨hsettled', -⟩ :=
    execute_settled_of_empty (e := t.setting traced) hkin.nodup' hkin.orderly' hrun'
  obtain ⟨stale, hstale, hids, hclosed⟩ :=
    hlevel.rest.afterDiff_eq_closeAll hkin.nodup hkin.orderly hcurrent hsettled
  obtain ⟨stale', hstale', hids', hclosed'⟩ :=
    hlevel.rest'.afterDiff_eq_closeAll hkin.nodup' hkin.orderly' hcurrent' hsettled'
  -- Both sweeps close nodes of the stored list one by one, which takes them back to one list.
  rw [hclosed, hclosed']
  refine hw.closeAll hkin.distinct ?_ ?_ ?_ ?_
  · exact fun m hm => ⟨hkin.orderly m (hstale hm), hkin.unaware m (hstale hm)⟩
  · exact fun m' hm' => hkin.hooks_of_added (hstale' hm')
  · exact fun m hm m' hm' => hkin.peers (hstale hm) (hstale' hm')
  · rw [hids', hids, List.filterMap_reverse, filterMap_filter_of_forall, hlevel.openNodes]
    intro i j hκ
    simp only [hw.entered_iff hkin.distinct hsettled.calls hsettled'.calls hκ]

/-- What a tick gives when the root has had its turn. -/
def outcome (t : Tree σ) (root : Node σ) (traced : Bool) (b : Blackboard) (s : Status)
    (w : Traversal σ) : TickResult σ :=
  ⟨s, (t.afterDiff root traced b w).target,
    keepRecord (t.setting traced) w.openNodes (t.afterDiff root traced b w),
    (t.afterDiff root traced b w).history⟩

/-- Where the roots of two kindred trees leave states that are alike, the ticks are alike. -/
theorem Level.outcome (hkin : Kindred κ t.id root root') (ht : t.root = some root)
    (hlevel : Level κ moved t (t.withRoot root') root root' b b')
    (hrun : root.execute (t.setting traced) fuel { target, board := b } = some (s, w))
    (hrun' : root'.execute (t.setting traced) fuel { target, board := b' } = some (s, w'))
    (hw : Alike κ moved (t.setting traced) w w') :
    (t.outcome root traced b s w).Alike κ ((t.withRoot root').outcome root' traced b' s w') ∧
      Level κ moved t (t.withRoot root') root root' (t.outcome root traced b s w).board
        ((t.withRoot root').outcome root' traced b' s w').board := by
  have htick := (tick_eq_ok_iff ht).2 ⟨s, w, hrun, rfl⟩
  have htick' := (tick_eq_ok_iff (t := t.withRoot root') rfl).2 ⟨s, w', hrun', rfl⟩
  have hafter := hlevel.afterDiff hkin hrun hrun' hw
  refine ⟨⟨rfl, hafter.target, ?_⟩, ?_⟩
  · rw [← Entry.callOf?_some]
    exact (Traversal.callsOf_history κ _).trans
      ((congrArg List.reverse hafter.calls).trans (Traversal.callsOf_history some _).symm)
  · constructor
    case board => exact keepRecord_sameOff hafter.board _ _
    case records =>
      intro i j hκ key hkey hmoved
      have hoff (i : NodeId) : (Scope.ofNode t.id i).address ≠ .tree t.id := by
        simp [Scope.ofNode, Scope.address]
      exact (get_keepRecord ((t.withRoot root').setting traced) _ _ key (hoff j)).trans
        ((hafter.records hκ key hkey hmoved).trans
          (get_keepRecord (t.setting traced) _ _ key (hoff i)).symm)
    case openNodes =>
      have hcurrent : w'.openNodes.filterMap κ = w.openNodes := by
        rw [Traversal.openNodes, Traversal.openNodes, List.filterMap_reverse, hw.stack]
      exact (congrArg _ (openNodes_keepRecord (t.withRoot root') traced _ _)).trans
        (hcurrent.trans (openNodes_keepRecord t traced _ _).symm)
    case rest => exact (tick_tidy hkin.nodup hkin.orderly ht hlevel.rest htick).atRest
    case rest' =>
      exact (tick_tidy (t := t.withRoot root') hkin.nodup' hkin.orderly' rfl hlevel.rest'
        htick').atRest

/-- A twin ticks as the tree does, and leaves a blackboard like that of the tree. -/
theorem exists_tick_of_twins (htwins : Twins κ t.id root root') (ht : t.root = some root)
    (hlevel : Level κ [] t (t.withRoot root') root root' b b')
    (htick : t.tick fuel traced target b = .ok r) :
    ∃ r', (t.withRoot root').tick fuel traced target b' = .ok r' ∧ r.Alike κ r' ∧
      Level κ [] t (t.withRoot root') root root' r.board r'.board := by
  obtain ⟨s, w, hrun, rfl⟩ := (tick_eq_ok_iff ht).1 htick
  have hkin := htwins.kindred
  obtain ⟨w', hrun', hw⟩ := exists_execute_of_echoes (htwins.mirrors.echoes hkin
    (fun _ _ => by simp) (fun _ _ => by simp) root.mem_nodes_self root'.mem_nodes_self
    (fun _ _ => List.not_mem_nil)) hlevel.start hrun
  have htick' := (tick_eq_ok_iff (t := t.withRoot root') rfl).2 ⟨s, w', hrun', rfl⟩
  obtain ⟨hsame, hnext⟩ := hlevel.outcome hkin ht hrun hrun' hw
  exact ⟨_, htick', hsame, hnext⟩

/-- Nodes that stand for themselves remember the same, but for where those moved go on. -/
theorem Level.get_eq (h : Level κ moved t (t.withRoot root') root root' b b') {i : NodeId}
    (hκ : κ i = some i) {key : String} (hmoved : i ∈ moved → key ≠ Key.runningChild) :
    b'.get key (.ofNode t.id i) = b.get key (.ofNode t.id i) := by
  by_cases hkey : key ∈ Key.ofNode
  · exact h.records hκ key hkey hmoved
  · exact h.board key _ fun hrecord => hkey hrecord.2

/-! ## Sessions -/

/-- Blackboards on which the tree has no memory yet are level. -/
theorem Level.of_hasTree_eq_false (h : b.hasTree t.id = false) :
    Level κ moved t (t.withRoot root') root root' b b where
  board := .refl t.id b
  records _ _ _ _ := by
    simp only [Scope.ofNode, Blackboard.get_of_hasTree_eq_false h]
  openNodes := by
    simp [Tree.openNodes, withRoot, Scope.ofTree, Blackboard.get_of_hasTree_eq_false h]
  rest := .of_hasTree_eq_false h
  rest' := .of_hasTree_eq_false h

theorem play_cons_eq_ok_iff {move : Move σ} {later : List (Move σ)}
    {rs : List (TickResult σ)} :
    t.play fuel (move :: later) target b = .ok rs ↔
      ∃ r, t.tick fuel move.traced (move.change target) b = .ok r ∧
        ∃ rest, t.play fuel later r.target r.board = .ok rest ∧ rs = r :: rest := by
  rw [play]
  cases t.tick fuel move.traced (move.change target) b with
  | error fault => simp [bind, Except.bind]
  | ok r =>
      cases hlater : t.play fuel later r.target r.board with
      | error fault => simp [hlater, bind, Except.bind]
      | ok rest => simp [hlater, bind, Except.bind, pure, Except.pure, eq_comm]

/-- Where every tick of one tree goes with one of the other tree, every session does. -/
theorem exists_play_of_tick {t t' : Tree σ} {Λ : Blackboard → Blackboard → Prop}
    {same : TickResult σ → TickResult σ → Prop}
    (htarget : ∀ r r', same r r' → r'.target = r.target)
    (htick : ∀ traced target b b' r, Λ b b' → t.tick fuel traced target b = .ok r →
      ∃ r', t'.tick fuel traced target b' = .ok r' ∧ same r r' ∧ Λ r.board r'.board)
    {moves : List (Move σ)} {rs : List (TickResult σ)} (hb : Λ b b')
    (hplay : t.play fuel moves target b = .ok rs) :
    ∃ rs', t'.play fuel moves target b' = .ok rs' ∧
      List.Forall₂ (fun r r' => same r r' ∧ Λ r.board r'.board) rs rs' := by
  induction moves generalizing target b b' rs with
  | nil =>
      obtain rfl : [] = rs := Except.ok.inj hplay
      exact ⟨[], rfl, .nil⟩
  | cons move later ih =>
      obtain ⟨r, hr, rest, hlater, rfl⟩ := play_cons_eq_ok_iff.1 hplay
      obtain ⟨r', hr', hsame, hnext⟩ := htick _ _ _ _ _ hb hr
      obtain ⟨rest', hlater', hrest⟩ := ih hnext hlater
      rw [← htarget r r' hsame] at hlater'
      exact ⟨r' :: rest', play_cons_eq_ok_iff.2 ⟨r', hr', rest', hlater', rfl⟩,
        .cons ⟨hsame, hnext⟩ hrest⟩

theorem exists_play_of_twins (htwins : Twins κ t.id root root') (ht : t.root = some root)
    {moves : List (Move σ)} {rs : List (TickResult σ)}
    (hlevel : Level κ [] t (t.withRoot root') root root' b b')
    (hplay : t.play fuel moves target b = .ok rs) :
    ∃ rs', (t.withRoot root').play fuel moves target b' = .ok rs' ∧
      List.Forall₂ (fun r r' => r.Alike κ r' ∧
        Level κ [] t (t.withRoot root') root root' r.board r'.board) rs rs' :=
  exists_play_of_tick (fun _ _ h => h.target)
    (fun _ _ _ _ _ hlevel htick => exists_tick_of_twins htwins ht hlevel htick) hlevel hplay

theorem answering_admissible (t : TreeId) (id : NodeId) :
    (answering id).Standard t ∧ (answering id).Unaware t ∧ (answering id).Bounded := by
  refine ⟨fun answers b => ?_, fun answers b b' hb => ?_, trivial⟩
  · cases answers <;> exact .refl t b
  · cases answers <;> exact ⟨rfl, rfl, hb⟩

/-! ## Bounded trees -/

theorem exists_tick_of_bounded (ht : t.root = some root) (h : ∀ m ∈ root.nodes, m.Bounded)
    (fuel : Nat) (traced : Bool) (target : σ) (b : Blackboard) :
    ∃ r, t.tick fuel traced target b = .ok r := by
  obtain ⟨s, w, hrun, -⟩ :=
    Node.execute_within (e := t.setting traced) h ({ target, board := b } : Traversal σ)
  exact ⟨_, (tick_eq_ok_iff ht).2 ⟨s, w, hrun, rfl⟩⟩

/-- Where all repeaters are bounded every session comes to an end. -/
theorem exists_play_of_bounded (ht : t.root = some root) (h : ∀ m ∈ root.nodes, m.Bounded)
    (fuel : Nat) (moves : List (Move σ)) (target : σ) (b : Blackboard) :
    ∃ rs, t.play fuel moves target b = .ok rs := by
  induction moves generalizing target b with
  | nil => exact ⟨[], rfl⟩
  | cons move later ih =>
      obtain ⟨r, htick⟩ := exists_tick_of_bounded ht h fuel move.traced (move.change target) b
      obtain ⟨rest, hlater⟩ := ih r.target r.board
      exact ⟨r :: rest, play_cons_eq_ok_iff.2 ⟨r, htick, rest, hlater, rfl⟩⟩

end Tree
end BehaviorTrees
