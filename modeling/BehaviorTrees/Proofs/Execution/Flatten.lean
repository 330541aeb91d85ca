import BehaviorTrees.Proofs.Execution.Group

/-!
# Turns of flat and of nested composites

A turn of a composite with a group among its children is compared with one of the flat composite.
The scans over the children before the group go in step, then the scan over the members goes with
the turn of the core, and then the scans over the children after the group are in step again.
-/

namespace BehaviorTrees.Group

variable {σ : Type} {g : Group σ} {κ : Origin} {e : Setting σ} {fuel : Nat}
  {root root' m c : Node σ} {base base' u u' v v' w w' : Traversal σ} {H H' : List Entry}
  {pass s : Status} {i j d : Nat}

theorem drop_append_add {α : Type} (xs ys zs : List α) (d : Nat) :
    (xs ++ ys ++ zs).drop (xs.length + ys.length + d) = zs.drop d := by
  rw [← List.length_append]
  exact List.drop_length_add_append d

theorem drop_add_append {α : Type} (xs ys zs : List α) (hi : i ≤ xs.length) (hj : j ≤ ys.length)
    (h : j ≠ 0 → i = xs.length) :
    (xs ++ ys ++ zs).drop (i + j) = xs.drop i ++ (ys.drop j ++ zs) := by
  rw [List.append_assoc]
  by_cases hzero : j = 0
  · rw [hzero, Nat.add_zero, List.drop_append_of_le_length hi, List.drop_zero]
  · rw [h hzero, List.drop_length_add_append, List.drop_append_of_le_length hj, List.drop_length]
    rfl

/-- The scans of the flat and of the outer composite have stopped, and where a child is running the
children at which they have are in place. -/
structure Stopped (g : Group σ) (κ : Origin) (e : Setting σ)
    (x x' : Status × Nat × Traversal σ) : Prop where
  status : x'.1 = x.1
  alike : Alike κ [g.outer.id] e x.2.2 x'.2.2
  ended : x.1 ≠ .running → x'.2.2.place e g.kind g.inner.id = 0
  place : x.1 = .running → g.kind.resumes = true →
    x.2.1 = g.flatPlace x'.2.1 (x'.2.2.place e g.kind g.inner.id)
  bound : x.1 = .running → x'.2.2.place e g.kind g.inner.id ≤ g.members.length
  within : x.1 = .running → x'.2.2.place e g.kind g.inner.id ≠ 0 →
    x'.2.1 = g.before.length ∧ g.inner.id ∈ x'.2.2.stack

theorem Stopped.of_ended (h : Alike κ [g.outer.id] e v v') (hs : s ≠ .running)
    (hzero : v'.place e g.kind g.inner.id = 0) : g.Stopped κ e (s, i, v) (s, j, v') where
  status := rfl
  alike := h
  ended _ := hzero
  place heq := (hs heq).elim
  bound heq := (hs heq).elim
  within heq := (hs heq).elim

/-- Where the core will begin anew only the places of the two composites matter. -/
theorem Stopped.of_place_eq_zero (h : Alike κ [g.outer.id] e v v')
    (hzero : v'.place e g.kind g.inner.id = 0) (hplace : i = g.flatPlace j 0) :
    g.Stopped κ e (s, i, v) (s, j, v') where
  status := rfl
  alike := h
  ended _ := hzero
  place _ _ := by rw [hzero]; exact hplace
  bound _ := by rw [hzero]; exact Nat.zero_le _
  within _ hne := (hne hzero).elim

/-- The scan of the members in the flat composite and that in the core. -/
structure InCore (g : Group σ) (κ : Origin) (e : Setting σ) (root root' : Node σ)
    (base base' : Traversal σ) (pass : Status) (x x' : Status × Nat × Traversal σ) : Prop where
  status : x'.1 = x.1
  alike : Alike κ [g.outer.id] e x.2.2 x'.2.2
  place : x.2.1 = g.before.length + x'.2.1
  bound : x'.2.1 ≤ g.members.length
  passed : x.1 = pass → x'.2.1 = g.members.length
  abreast : x.1 ≠ .running →
    Abreast (Alike κ [g.outer.id] e) e root root' base base' g.flat g.core x.2.2 x'.2.2

/-- The scan of the members in the flat composite and the turn of the core. -/
structure PastCore (g : Group σ) (κ : Origin) (e : Setting σ) (root root' : Node σ)
    (base base' : Traversal σ) (pass : Status) (x : Status × Nat × Traversal σ)
    (a : Status × Traversal σ) : Prop where
  stopped : g.Stopped κ e x (a.1, g.before.length, a.2)
  passed : x.1 = pass → x.2.1 = g.before.length + g.members.length
  abreast : x.1 ≠ .running →
    Abreast (Alike κ [g.outer.id] e) e root root' base base' g.flat g.nested x.2.2 a.2

/-- The flat composite is a node of the first tree, and that with the group one of the second tree;
all but the core stand for themselves. -/
structure Site (g : Group σ) (κ : Origin) (e : Setting σ) (root root' : Node σ)
    (base base' : Traversal σ) : Prop where
  kindred : Kindred κ e.tree root root'
  base : ∀ i ∈ root.ids, i ∉ base.stack
  base' : ∀ i ∈ root'.ids, i ∉ base'.stack
  flat_mem : g.flat ∈ root.nodes
  nested_mem : g.nested ∈ root'.nodes
  origin : ∀ i ∈ g.flat.ids, κ i = some i
  added : κ g.inner.id = none

theorem core_mem_kids : g.core ∈ g.nested.kids := by simp

theorem inner_mem_ids : g.inner.id ∈ g.nested.ids :=
  Node.ids_subset_of_kid core_mem_kids (Node.id_mem_ids g.core.mem_nodes_self)

namespace Site

variable (h : g.Site κ e root root' base base')

include h

theorem core_mem : g.core ∈ root'.nodes :=
  Node.mem_nodes_trans h.nested_mem (Node.mem_nodes_of_kid core_mem_kids g.core.mem_nodes_self)

theorem hooks : g.core.hooks = {} :=
  h.kindred.hooks_of_added h.core_mem h.added

theorem inner_notMem_ids (hc : c ∈ g.flat.kids) : g.inner.id ∉ c.ids := fun hi => by
  cases h.added.symm.trans (h.origin _ (Node.ids_subset_of_kid hc hi))

theorem outer_notMem_ids (hc : c ∈ g.flat.kids) : g.outer.id ∉ c.ids :=
  Node.id_notMem_ids_of_kid (Node.nodup_ids_of_mem h.kindred.nodup h.flat_mem) hc

/-- The runs of a child that two composites share, in states of which something holds that has to do
with the core only. -/
theorem kid_matches (fuel : Nat) (hm : m ∈ root'.nodes) (hc : c ∈ g.flat.kids) (hc' : c ∈ m.kids)
    {P : Traversal σ → Prop} (hP : ∀ u v, Spares e g.inner.id u v → P u → P v) :
    Exec.Matches
      (fun w w' => Abreast (Alike κ [g.outer.id] e) e root root' base base' g.flat m w w' ∧ P w')
      (fun w w' => Alike κ [g.outer.id] e w w' ∧ P w') false
      (c.execute e fuel) (c.execute e fuel) := by
  rintro w w' ⟨habreast, hw⟩
  have hcroot := Node.mem_nodes_trans h.flat_mem (Node.mem_nodes_of_kid hc c.mem_nodes_self)
  have hcroot' := Node.mem_nodes_trans hm (Node.mem_nodes_of_kid hc' c.mem_nodes_self)
  have hmoved : ∀ i ∈ c.ids, i ∉ [g.outer.id] := fun i hi heq =>
    h.outer_notMem_ids hc (List.mem_singleton.1 heq ▸ hi)
  have hechoes : Echoes (Alike κ [g.outer.id] e) e fuel root root' base base' false c c :=
    Node.echoes_self h.kindred h.base h.base' hcroot hcroot'
      (fun i hi => h.origin i (Node.ids_subset_of_kid hc hi)) hmoved
  obtain ⟨H', -, -, hfree'⟩ := id habreast.right
  rcases eq_none_or_exists_of_rel
      (hechoes.matches h.kindred h.base h.base' h.flat_mem hm hc hc' w w' habreast) with
    ⟨hnone, hnone'⟩ | ⟨⟨s, v⟩, ⟨s', v'⟩, hsome, hsome', hs, hv, hagain⟩
  · rw [hnone, hnone']
    exact .none
  · have hspares : Spares e g.inner.id w' v' :=
      .execute (Node.nodup_ids_of_mem h.kindred.nodup hcroot)
        (fun d hd => h.kindred.orderly d (Node.mem_nodes_trans hcroot hd)) (hfree' c hc') hsome'
        (h.inner_notMem_ids hc)
    rw [hsome, hsome']
    exact .some ⟨hs, ⟨hv, hP _ _ hspares hw⟩, fun hne => ⟨hagain hne, hP _ _ hspares hw⟩⟩

theorem kids_match (fuel : Nat) (hm : m ∈ root'.nodes) {cs : List (Node σ)} (hcs : cs ⊆ g.flat.kids)
    (hcs' : cs ⊆ m.kids) {P : Traversal σ → Prop}
    (hP : ∀ u v, Spares e g.inner.id u v → P u → P v) :
    List.Forall₂ (Exec.Matches
      (fun w w' => Abreast (Alike κ [g.outer.id] e) e root root' base base' g.flat m w w' ∧ P w')
      (fun w w' => Alike κ [g.outer.id] e w w' ∧ P w') false)
      (cs.map (Node.execute e fuel)) (cs.map (Node.execute e fuel)) :=
  forall₂_map_of_forall fun _ hc =>
    h.kid_matches fuel hm (hcs hc) (hcs' hc) hP

/-! ## The turn of the core -/

/-- The members are run by the flat composite as they are by the core. -/
theorem scan_members (fuel : Nat) (hpass : pass ≠ .running) (hj : j ≤ g.members.length)
    (hu : Abreast (Alike κ [g.outer.id] e) e root root' base base' g.flat g.core u u') :
    Option.Rel (g.InCore κ e root root' base base' pass)
      (scan pass (g.before.length + j) ((g.members.map (Node.execute e fuel)).drop j) u)
      (scan pass j ((g.members.map (Node.execute e fuel)).drop j) u') := by
  have hmembers : g.members.drop j ⊆ g.flat.kids := fun c hc => by
    simp [List.mem_of_mem_drop hc]
  have hruns := h.kids_match fuel (P := fun _ => True) h.core_mem hmembers
    (List.drop_subset j g.members) fun _ _ _ _ => trivial
  have hlength : ((g.members.drop j).map (Node.execute e fuel)).length = g.members.length - j := by
    simp
  rw [← List.map_drop, ← List.append_nil ((g.members.drop j).map _)]
  refine scan_append_rel hruns hpass (fun d hd s v v' hs hv hagain => ?_) (fun v v' hv => .some ?_)
    ⟨hu, trivial⟩
  · rw [hlength] at hd
    exact {
      status := rfl
      alike := hv.1
      place := Nat.add_assoc _ _ _
      bound := by simp only; omega
      passed := fun heq => (hs heq).elim
      abreast := fun hne => (hagain hne).1 }
  · rw [hlength]
    exact {
      status := rfl
      alike := hv.1.related
      place := Nat.add_assoc _ _ _
      bound := by simp only; omega
      passed := fun _ => by simp only; omega
      abreast := fun _ => hv.1 }

/-- A core that is running stays open, at the member that is. -/
theorem pastCore_of_running (hpass : pass ≠ .running) {f f' : Nat} {above : List (Node σ)}
    {below : List NodeId}
    (hx : g.InCore κ e root root' base base' pass (.running, f, v) (.running, f', v'))
    (hticked : Ticked e root' base' g.core above below
      (v'.note e g.kind g.inner.id .running f')) :
    g.PastCore κ e root root' base base' pass (.running, f, v)
      (.running, (v'.note e g.kind g.inner.id .running f').finish e g.core .running) := by
  have hexit : Spares e g.inner.id (v'.note e g.kind g.inner.id .running f')
      ((v'.note e g.kind g.inner.id .running f').finish e g.core .running) :=
    .exit (h.kindred.orderly' _ h.core_mem).hooks.exit
  have hplace : ((v'.note e g.kind g.inner.id .running f').finish e g.core .running).place e g.kind
      g.inner.id = if g.kind.resumes then f' else 0 :=
    hexit.place.trans (Traversal.place_note (hticked.isOpen h.base' h.core_mem))
  refine ⟨?_, fun hs => (hpass hs.symm).elim, fun hne => (hne rfl).elim⟩
  constructor
  case status => rfl
  case alike =>
    exact (hx.alike.note_added h.added g.kind .running f').exit_added h.added h.hooks _
  case ended => exact fun hne => (hne rfl).elim
  case place =>
    intro _ hk
    rw [hplace, if_pos hk, flatPlace, if_pos (Nat.le_refl _)]
    exact hx.place
  case bound =>
    intro _
    rw [hplace]
    split
    · exact hx.bound
    · exact Nat.zero_le _
  case within =>
    refine fun _ _ => ⟨rfl, hexit.stack.2 ?_⟩
    rw [hticked.stack]
    exact List.mem_append_right _ List.mem_cons_self

/-- The core is entered with nothing to show for it on the other side. -/
theorem abreast_begin_core
    (hu : Abreast (Alike κ [g.outer.id] e) e root root' base base' g.flat g.nested u u') :
    Abreast (Alike κ [g.outer.id] e) e root root' base base' g.flat g.core u
      (u'.begin e g.core) := by
  obtain ⟨H', hu', -, hfree'⟩ := id hu.right
  refine ⟨hu.related.begin_added h.added h.hooks fun {v v'} hv => ?_, hu.left,
    .of_begin h.kindred.nodup' h.kindred.orderly' h.core_mem hu' (hfree' g.core core_mem_kids)⟩
  rw [core, Traversal.renew_composite]
  split
  · exact hv.remember_added h.added _ (by simp [Key.ofNode]) _
  · exact hv

/-- The flat composite runs the members while the core has its turn. -/
theorem scan_core (fuel : Nat) (hscans : g.kind.Scans pass) (hj : j ≤ g.members.length)
    (hu : Abreast (Alike κ [g.outer.id] e) e root root' base base' g.flat g.nested u u')
    (hplace : u'.place e g.kind g.inner.id = j) :
    Option.Rel (g.PastCore κ e root root' base base' pass)
      (scan pass (g.before.length + j) ((g.members.map (Node.execute e fuel)).drop j) u)
      (g.core.execute e fuel u') := by
  obtain ⟨H', hu', -, hfree'⟩ := id hu.right
  have hfree : ∀ i ∈ g.core.ids, i ∉ u'.stack := hfree' g.core core_mem_kids
  have hbegin := h.abreast_begin_core hu
  have htick := hscans.tick e fuel g.inner g.members u'
  rw [hplace] at htick
  rcases eq_none_or_exists_of_rel (h.scan_members fuel hscans.ne_running hj hbegin) with
    ⟨hnone, hnone'⟩ | ⟨⟨s, f, v⟩, ⟨s', f', v'⟩, hsome, hsome', hx⟩
  · rw [hnone, Node.execute_eq_none (htick.trans (congrArg _ hnone'))]
    exact .none
  · obtain rfl : s' = s := hx.status
    have hv' : g.core.tickWith e fuel (g.core.kids.map (Node.execute e fuel)) (u'.begin e g.core) =
        some (s', v'.note e g.kind g.inner.id s' f') :=
      htick.trans (congrArg _ hsome')
    obtain ⟨above, hticked⟩ :=
      hu'.exists_ticked h.kindred.nodup' h.kindred.orderly' h.base' h.core_mem hfree hv'
    have hrun := Node.execute_eq_some_iff.2 ⟨_, hv', rfl⟩
    rw [hsome, hrun]
    refine .some ?_
    by_cases hs : s' = .running
    · subst hs
      exact h.pastCore_of_running hscans.ne_running hx hticked
    · rw [Traversal.note_of_ne_running hs] at hticked hrun ⊢
      obtain ⟨-, -, -, hkids⟩ := (hx.abreast hs).right
      have halike : Alike κ [g.outer.id] e v (v'.finish e g.core s') :=
        Alike.finish_added h.kindred h.base' h.added h.core_mem hticked
          (fun _ => hticked.above_eq_nil hkids) hx.alike
      have hself : g.inner.id ∈ g.core.ids := Node.id_mem_ids g.core.mem_nodes_self
      have hgivenUp := hticked.place_finish (k := g.kind) h.kindred.nodup' h.kindred.orderly'
        h.base' h.core_mem hs hself
      rw [if_pos ((hticked.mem_stack_iff hself).2 (by simp))] at hgivenUp
      refine ⟨.of_ended halike hs hgivenUp, fun heq => ?_,
        fun _ => ⟨halike, (hx.abreast hs).left, ?_⟩⟩
      · rw [hx.place, hx.passed heq]
      · exact hu.right.after h.kindred.nodup' h.kindred.orderly' h.base' h.nested_mem core_mem_kids
          hrun hs

/-! ## The scans of the outer composite -/

theorem scan_after (hpass : pass ≠ .running) (d : Nat)
    (hu : Abreast (Alike κ [g.outer.id] e) e root root' base base' g.flat g.nested u u')
    (hplace : u'.place e g.kind g.inner.id = 0) :
    Option.Rel (g.Stopped κ e)
      (scan pass (g.before.length + g.members.length + d)
        ((g.after.map (Node.execute e fuel)).drop d) u)
      (scan pass (g.before.length + 1 + d) ((g.after.map (Node.execute e fuel)).drop d) u') := by
  have hafter : g.after.drop d ⊆ g.flat.kids := fun c hc => by
    simp [List.mem_of_mem_drop hc]
  have hafter' : g.after.drop d ⊆ g.nested.kids := fun c hc => by
    simp [List.mem_of_mem_drop hc]
  have hruns := h.kids_match fuel (P := fun v => v.place e g.kind g.inner.id = 0) h.nested_mem
    hafter hafter' fun _ _ hspares hv => hspares.place.trans hv
  have hflatPlace (d' : Nat) : g.before.length + g.members.length + d + d' =
      g.flatPlace (g.before.length + 1 + d + d') 0 := by
    rw [flatPlace, if_neg (by omega)]
    omega
  rw [← List.map_drop, ← List.append_nil ((g.after.drop d).map _)]
  refine scan_append_rel hruns hpass (fun d' _ s v v' _ hv _ => ?_) (fun v v' hv => .some ?_)
    ⟨hu, hplace⟩
  · exact .of_place_eq_zero hv.1 hv.2 (hflatPlace d')
  · exact .of_ended hv.1.related hpass hv.2

theorem scan_from_core (hscans : g.kind.Scans pass) (hj : j ≤ g.members.length)
    (hu : Abreast (Alike κ [g.outer.id] e) e root root' base base' g.flat g.nested u u')
    (hplace : u'.place e g.kind g.inner.id = j) :
    Option.Rel (g.Stopped κ e)
      (scan pass (g.before.length + j) ((g.members.map (Node.execute e fuel)).drop j ++
        g.after.map (Node.execute e fuel)) u)
      (scan pass g.before.length
        (g.core.execute e fuel :: g.after.map (Node.execute e fuel)) u') := by
  rw [scan_append, scan]
  rcases eq_none_or_exists_of_rel (h.scan_core fuel hscans hj hu hplace) with
    ⟨hnone, hnone'⟩ | ⟨⟨s, f, v⟩, ⟨s', v'⟩, hsome, hsome', hx⟩
  · rw [hnone, hnone']
    exact .none
  · obtain rfl : s' = s := hx.stopped.status
    rw [hsome, hsome']
    simp only [Option.bind_some]
    split
    · rename_i hs
      obtain rfl : f = g.before.length + g.members.length := hx.passed hs
      have hne : s' ≠ .running := hs ▸ hscans.ne_running
      exact h.scan_after hscans.ne_running 0 (hx.abreast hne) (hx.stopped.ended hne)
    · exact .some hx.stopped

theorem scan_from_before (hscans : g.kind.Scans pass) (hi : i ≤ g.before.length)
    (hj : j ≤ g.members.length) (hwithin : j ≠ 0 → i = g.before.length)
    (hu : Abreast (Alike κ [g.outer.id] e) e root root' base base' g.flat g.nested u u')
    (hplace : u'.place e g.kind g.inner.id = j) :
    Option.Rel (g.Stopped κ e)
      (scan pass (i + j) ((g.before.map (Node.execute e fuel)).drop i ++
        ((g.members.map (Node.execute e fuel)).drop j ++ g.after.map (Node.execute e fuel))) u)
      (scan pass i ((g.before.map (Node.execute e fuel)).drop i ++
        g.core.execute e fuel :: g.after.map (Node.execute e fuel)) u') := by
  have hbefore : g.before.drop i ⊆ g.flat.kids := fun c hc => by
    simp [List.mem_of_mem_drop hc]
  have hbefore' : g.before.drop i ⊆ g.nested.kids := fun c hc => by
    simp [List.mem_of_mem_drop hc]
  have hruns := h.kids_match fuel (P := fun v => v.place e g.kind g.inner.id = j) h.nested_mem
    hbefore hbefore' fun _ _ hspares hv => hspares.place.trans hv
  have hlength : ((g.before.drop i).map (Node.execute e fuel)).length = g.before.length - i := by
    simp
  rw [← List.map_drop]
  refine scan_append_rel hruns hscans.ne_running (fun d hd s v v' _ hv _ => ?_) (fun v v' hv => ?_)
    ⟨hu, hplace⟩
  · -- There is a child before the group to stop at, so the core is not the one to go on with.
    rw [hlength] at hd
    have hzero : j = 0 := by
      by_contra hne
      have := hwithin hne
      omega
    refine .of_place_eq_zero hv.1 (hv.2.trans hzero) ?_
    rw [flatPlace, if_pos (by omega)]
    omega
  · have hstart : i + j + ((g.before.drop i).map (Node.execute e fuel)).length =
        g.before.length + j := by omega
    have hstart' : i + ((g.before.drop i).map (Node.execute e fuel)).length = g.before.length := by
      omega
    rw [hstart, hstart']
    exact h.scan_from_core hscans hj hv.1 hv.2

/-- From places that go together on, the flat and the outer composite scan their children alike. -/
theorem scan_stopped (fuel : Nat) (hscans : g.kind.Scans pass) (hj : j ≤ g.members.length)
    (hwithin : j ≠ 0 → i = g.before.length)
    (hu : Abreast (Alike κ [g.outer.id] e) e root root' base base' g.flat g.nested u u')
    (hplace : u'.place e g.kind g.inner.id = j) :
    Option.Rel (g.Stopped κ e)
      (scan pass (g.flatPlace i j)
        ((g.flat.kids.map (Node.execute e fuel)).drop (g.flatPlace i j)) u)
      (scan pass i ((g.nested.kids.map (Node.execute e fuel)).drop i) u') := by
  have hkids : g.flat.kids.map (Node.execute e fuel) = g.before.map (Node.execute e fuel) ++
      g.members.map (Node.execute e fuel) ++ g.after.map (Node.execute e fuel) := by
    simp
  have hkids' : g.nested.kids.map (Node.execute e fuel) = g.before.map (Node.execute e fuel) ++
      [g.core.execute e fuel] ++ g.after.map (Node.execute e fuel) := by
    simp
  rw [hkids, hkids', flatPlace]
  split
  · rename_i hi
    have hdrop := drop_add_append (g.before.map (Node.execute e fuel))
      (g.members.map (Node.execute e fuel)) (g.after.map (Node.execute e fuel))
      (by simpa using hi) (by simpa using hj) (by simpa using hwithin)
    have hdrop' := drop_add_append (j := 0) (g.before.map (Node.execute e fuel))
      [g.core.execute e fuel] (g.after.map (Node.execute e fuel))
      (by simpa using hi) (Nat.zero_le _) fun hne => (hne rfl).elim
    rw [hdrop]
    rw [Nat.add_zero] at hdrop'
    rw [hdrop']
    exact h.scan_from_before hscans hi hj hwithin hu hplace
  · rename_i hi
    obtain ⟨d, rfl⟩ : ∃ d, i = g.before.length + 1 + d := ⟨i - (g.before.length + 1), by omega⟩
    have hzero : j = 0 := by
      by_contra hne
      have := hwithin hne
      omega
    have hstart : g.before.length + 1 + d - 1 + g.members.length =
        g.before.length + g.members.length + d := by omega
    have hdrop := drop_append_add (g.before.map (Node.execute e fuel))
      (g.members.map (Node.execute e fuel)) (g.after.map (Node.execute e fuel)) d
    have hdrop' := drop_append_add (g.before.map (Node.execute e fuel))
      [g.core.execute e fuel] (g.after.map (Node.execute e fuel)) d
    rw [List.length_map, List.length_map] at hdrop
    rw [List.length_map, List.length_singleton] at hdrop'
    rw [hstart, hdrop, hdrop']
    exact h.scan_after hscans.ne_running d hu (hplace.trans hzero)

/-! ## The turn of the outer composite -/

theorem id_ne : g.inner.id ≠ g.outer.id := by
  intro heq
  have hnone := h.added
  rw [heq, h.origin g.outer.id (Node.id_mem_ids g.flat.mem_nodes_self)] at hnone
  cases hnone

/-- A composite that finishes gives up its place, and so does the core. -/
theorem inPlace_of_ended (hs : s ≠ .running) {above above' : List (Node σ)}
    {below below' : List NodeId}
    (hticked : Ticked e root base g.flat above below v)
    (hticked' : Ticked e root' base' g.nested above' below' v')
    (hzero : v'.place e g.kind g.inner.id = 0) :
    g.InPlace e (v.finish e g.flat s) (v'.finish e g.nested s) := by
  have hself : g.outer.id ∈ g.flat.ids := Node.id_mem_ids g.flat.mem_nodes_self
  have hself' : g.outer.id ∈ g.nested.ids := Node.id_mem_ids g.nested.mem_nodes_self
  have hplace (i : NodeId) (hi : i ∈ g.nested.ids) :=
    hticked'.place_finish (k := g.kind) h.kindred.nodup' h.kindred.orderly' h.base' h.nested_mem
      hs hi
  apply InPlace.of_places_eq_zero
  · exact (hticked.place_finish h.kindred.nodup h.kindred.orderly h.base h.flat_mem hs hself).trans
      (if_pos ((hticked.mem_stack_iff hself).2 (by simp)))
  · exact (hplace _ hself').trans (if_pos ((hticked'.mem_stack_iff hself').2 (by simp)))
  · rw [hplace _ inner_mem_ids, hzero, ite_self]

/-- A composite that is running will go on where it has stopped. -/
theorem inPlace_of_running {f f' : Nat} {above above' : List (Node σ)}
    {below below' : List NodeId}
    (hticked : Ticked e root base g.flat above below (v.note e g.kind g.outer.id .running f))
    (hticked' : Ticked e root' base' g.nested above' below'
      (v'.note e g.kind g.outer.id .running f'))
    (hx : g.Stopped κ e (.running, f, v) (.running, f', v')) :
    g.InPlace e ((v.note e g.kind g.outer.id .running f).finish e g.flat .running)
      ((v'.note e g.kind g.outer.id .running f').finish e g.nested .running) := by
  cases hk : g.kind.resumes with
  | false =>
      exact .of_places_eq_zero (Traversal.place_eq_zero_of_resumes hk)
        (Traversal.place_eq_zero_of_resumes hk) (Traversal.place_eq_zero_of_resumes hk)
  | true =>
      have hplace := Traversal.place_note (hticked.isOpen h.base h.flat_mem)
      have hplace' := Traversal.place_note (hticked'.isOpen h.base' h.nested_mem)
      rw [if_pos hk, id_flat] at hplace
      rw [if_pos hk, id_nested] at hplace'
      have hinner : Spares e g.inner.id v' (v'.note e g.kind g.outer.id .running f') :=
        .of_quiet (Traversal.quiet_note f') h.id_ne
      have hinPlace : g.InPlace e (v.note e g.kind g.outer.id .running f)
          (v'.note e g.kind g.outer.id .running f') := by
        constructor
        case place =>
          rw [hplace, hplace', hinner.place]
          exact hx.place rfl hk
        case bound =>
          rw [hinner.place]
          exact hx.bound rfl
        case within =>
          rw [hinner.place, hplace']
          exact fun hne => (hx.within rfl hne).1
        case together =>
          rw [hinner.place]
          exact fun hne => iff_of_true (hinner.stack.2 (hx.within rfl hne).2)
            (hticked'.stack ▸ List.mem_append_right _ List.mem_cons_self)
      exact hinPlace.of_spares (.exit (h.kindred.orderly _ h.flat_mem).hooks.exit)
        (.exit (h.kindred.orderly' _ h.nested_mem).hooks.exit)
        (.exit (h.kindred.orderly' _ h.nested_mem).hooks.exit)

theorem origin_outer : κ g.nested.id = some g.flat.id :=
  h.origin g.flat.id (Node.id_mem_ids g.flat.mem_nodes_self)

theorem abreast_begin (hw : Settled e root base H w) (hw' : Settled e root' base' H' w')
    (hfree : ∀ i ∈ g.flat.ids, i ∉ w.stack) (hfree' : ∀ i ∈ g.nested.ids, i ∉ w'.stack)
    (halike : Alike κ [g.outer.id] e w w') :
    Abreast (Alike κ [g.outer.id] e) e root root' base base' g.flat g.nested
      (w.begin e g.flat) (w'.begin e g.nested) := by
  have hp := h.kindred.peers h.flat_mem h.nested_mem h.origin_outer
  refine ⟨halike.begin hp (h.kindred.orderly _ h.flat_mem) (h.kindred.unaware _ h.flat_mem)
    h.kindred.distinct fun {v v'} hv => ?_,
    .of_begin h.kindred.nodup h.kindred.orderly h.flat_mem hw hfree,
    .of_begin h.kindred.nodup' h.kindred.orderly' h.nested_mem hw' hfree'⟩
  rw [flat, nested, Traversal.renew_composite, Traversal.renew_composite]
  split
  · exact hv.remember h.kindred.distinct h.origin_outer _ (by simp [Key.ofNode]) _
  · exact hv

/-- A turn of the composite with a group echoes one of the flat composite. -/
theorem echoes : Echoes (g.Aligned κ e) e fuel root root' base base' false g.flat g.nested := by
  intro H H' w w' hw hw' hfree hfree' haligned
  obtain ⟨pass, hscans⟩ :=
    CompositeKind.exists_scans (h.kindred.orderly g.flat h.flat_mem).script?
  have hbegin := h.abreast_begin hw hw' hfree hfree' haligned.alike
  have hspares : Spares e g.inner.id w' (w'.begin e g.nested) :=
    .begin (h.kindred.orderly' _ h.nested_mem).hooks h.id_ne
  have htick := hscans.tick e fuel g.outer g.flat.kids w
  have htick' := hscans.tick e fuel g.outer g.nested.kids w'
  rw [haligned.inPlace.place] at htick
  rcases eq_none_or_exists_of_rel (h.scan_stopped fuel hscans haligned.inPlace.bound
      haligned.inPlace.within hbegin hspares.place) with
    ⟨hnone, hnone'⟩ | ⟨⟨s, f, v⟩, ⟨s', f', v'⟩, hsome, hsome', hx⟩
  · rw [Node.execute_eq_none (htick.trans (congrArg _ hnone)),
      Node.execute_eq_none (htick'.trans (congrArg _ hnone'))]
    exact .none
  · obtain rfl : s' = s := hx.status
    have hv : g.flat.tickWith e fuel (g.flat.kids.map (Node.execute e fuel)) (w.begin e g.flat) =
        some (s', v.note e g.kind g.outer.id s' f) :=
      htick.trans (congrArg _ hsome)
    have hv' : g.nested.tickWith e fuel (g.nested.kids.map (Node.execute e fuel))
        (w'.begin e g.nested) = some (s', v'.note e g.kind g.outer.id s' f') :=
      htick'.trans (congrArg _ hsome')
    obtain ⟨above, hticked⟩ :=
      hw.exists_ticked h.kindred.nodup h.kindred.orderly h.base h.flat_mem hfree hv
    obtain ⟨above', hticked'⟩ :=
      hw'.exists_ticked h.kindred.nodup' h.kindred.orderly' h.base' h.nested_mem hfree' hv'
    rw [Node.execute_eq_some_iff.2 ⟨_, hv, rfl⟩, Node.execute_eq_some_iff.2 ⟨_, hv', rfl⟩]
    refine .some ⟨rfl, ?_, ?_⟩
    · have hp := h.kindred.peers h.flat_mem h.nested_mem h.origin_outer
      have hnoted := hx.alike.note_moved h.origin_outer (by simp) g.kind s' f f'
      exact Alike.finish (b := false) h.kindred h.base h.base' h.flat_mem h.nested_mem hp hticked
        hticked' haligned.alike.stack hnoted s'
    · by_cases hs : s' = .running
      · subst hs
        exact h.inPlace_of_running hticked hticked' hx
      · rw [Traversal.note_of_ne_running hs] at hticked hticked' ⊢
        rw [Traversal.note_of_ne_running hs]
        exact h.inPlace_of_ended hs hticked hticked' (hx.ended hs)

end Site
end BehaviorTrees.Group
