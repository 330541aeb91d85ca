import BehaviorTrees.Proofs.Execution.Mirror
import BehaviorTrees.Proofs.Execution.Place

/-!
# Groups of children

Some children of a composite are put into a composite of the same kind, which takes their place.
Where the composites have a memory, the child at which the flat one goes on is told by the two
children at which the nested ones do, and all three are kept, or given up, together.
-/

namespace BehaviorTrees

variable {σ : Type}

/-! ## States in which composites wrote down a child -/

namespace Alike

variable {κ : Origin} {moved : List NodeId} {e : Setting σ} {w w' : Traversal σ} {i j : NodeId}

theorem note_moved (h : Alike κ moved e w w') (hκ : κ j = some i) (hi : i ∈ moved)
    (k : CompositeKind σ) (s : Status) (child child' : Nat) :
    Alike κ moved e (w.note e k i s child) (w'.note e k j s child') := by
  rw [Traversal.note, Traversal.note]
  split
  · exact h.remember_moved hκ hi _ _
  · exact h

theorem note_added (h : Alike κ moved e w w') (hκ : κ j = none) (k : CompositeKind σ) (s : Status)
    (child : Nat) : Alike κ moved e w (w'.note e k j s child) := by
  rw [Traversal.note]
  split
  · exact h.remember_added hκ _ (by simp [Key.ofNode]) _
  · exact h

end Alike

/-! ## Groups -/

/-- A composite, some children of which can be put into a composite of the same kind. -/
structure Group (σ : Type) where
  outer : Label
  inner : Label
  kind : CompositeKind σ
  before : List (Node σ)
  members : List (Node σ)
  after : List (Node σ)

namespace Group

variable (g : Group σ)

/-- The composite that holds the members. -/
def core : Node σ := .composite g.inner g.kind g.members

def nested : Node σ := .composite g.outer g.kind (g.before ++ [g.core] ++ g.after)

def flat : Node σ := .composite g.outer g.kind (g.before ++ g.members ++ g.after)

@[simp] theorem kids_nested : g.nested.kids = g.before ++ [g.core] ++ g.after := rfl

@[simp] theorem kids_flat : g.flat.kids = g.before ++ g.members ++ g.after := rfl

@[simp] theorem id_core : g.core.id = g.inner.id := rfl

@[simp] theorem id_nested : g.nested.id = g.outer.id := rfl

@[simp] theorem id_flat : g.flat.id = g.outer.id := rfl

/-- The child of the flat composite that the nested ones are at, where the outer one is at `i` and
the inner one at `j`. -/
def flatPlace (i j : Nat) : Nat :=
  if i ≤ g.before.length then i + j else i - 1 + g.members.length

/-- The outer composite will go on as the flat one does. -/
structure InPlace (e : Setting σ) (w w' : Traversal σ) : Prop where
  place : w.place e g.kind g.outer.id =
    g.flatPlace (w'.place e g.kind g.outer.id) (w'.place e g.kind g.inner.id)
  bound : w'.place e g.kind g.inner.id ≤ g.members.length
  within : w'.place e g.kind g.inner.id ≠ 0 →
    w'.place e g.kind g.outer.id = g.before.length
  together : w'.place e g.kind g.inner.id ≠ 0 →
    (g.inner.id ∈ w'.stack ↔ g.outer.id ∈ w'.stack)

variable {g} {κ : Origin} {e : Setting σ} {fuel : Nat} {root root' n n' c : Node σ}
  {base base' u u' v v' w w' : Traversal σ} {H H' : List Entry} {s : Status} {i j : Nat}

namespace InPlace

theorem of_places_eq_zero (h : w.place e g.kind g.outer.id = 0)
    (h' : w'.place e g.kind g.outer.id = 0) (hinner : w'.place e g.kind g.inner.id = 0) :
    g.InPlace e w w' where
  place := by simp [h, h', hinner, flatPlace]
  bound := by simp [hinner]
  within hne := (hne hinner).elim
  together hne := (hne hinner).elim

theorem of_spares (h : g.InPlace e w w') (hw : Spares e g.outer.id w u)
    (hw' : Spares e g.outer.id w' u') (hinner : Spares e g.inner.id w' u') :
    g.InPlace e u u' where
  place := by rw [hw.place, hw'.place, hinner.place, h.place]
  bound := by rw [hinner.place]; exact h.bound
  within := by rw [hw'.place, hinner.place]; exact h.within
  together := by rw [hinner.place, hinner.stack, hw'.stack]; exact h.together

/-- Where composites are given up, the outer one is given up if and only if the flat one is, and
so is the inner one if it has a place to go on at. -/
theorem of_given_up {e' : Setting σ} (h : g.InPlace e w w') {p q : Prop} [Decidable p]
    [Decidable q]
    (hflat : u.place e' g.kind g.outer.id = if p then 0 else w.place e g.kind g.outer.id)
    (houter : u'.place e' g.kind g.outer.id = if p then 0 else w'.place e g.kind g.outer.id)
    (hinner : u'.place e' g.kind g.inner.id = if q then 0 else w'.place e g.kind g.inner.id)
    (hiff : w'.place e g.kind g.inner.id ≠ 0 → (q ↔ p))
    (hstack : g.inner.id ∈ u'.stack ↔ g.outer.id ∈ u'.stack) : g.InPlace e' u u' := by
  by_cases hzero : w'.place e g.kind g.inner.id = 0
  · rw [hzero, ite_self] at hinner
    by_cases hp : p
    · rw [if_pos hp] at hflat houter
      exact of_places_eq_zero hflat houter hinner
    · rw [if_neg hp] at hflat houter
      refine ⟨?_, by simp [hinner], fun hne => (hne hinner).elim, fun _ => hstack⟩
      rw [hflat, houter, hinner, h.place, hzero]
  · have hqp := hiff hzero
    by_cases hp : p
    · rw [if_pos hp] at hflat houter
      rw [if_pos (hqp.2 hp)] at hinner
      exact of_places_eq_zero hflat houter hinner
    · rw [if_neg hp] at hflat houter
      rw [if_neg fun hq => hp (hqp.1 hq)] at hinner
      refine ⟨?_, ?_, ?_, fun _ => hstack⟩
      · rw [hflat, houter, hinner, h.place]
      · rw [hinner]
        exact h.bound
      · rw [hinner, houter]
        exact h.within

end InPlace

/-! ## Turns of the nodes around a group -/

end Group

theorem Ticked.mem_stack_iff {e : Setting σ} {root n : Node σ} {base v : Traversal σ}
    {above : List (Node σ)} {below : List NodeId} (h : Ticked e root base n above below v)
    {i : NodeId} (hi : i ∈ n.ids) : i ∈ v.stack ↔ i ∈ (above ++ [n]).map Node.id := by
  simp [h.stack, h.free i hi]

section

variable {e : Setting σ} {k : CompositeKind σ} {root n : Node σ} {base v : Traversal σ}
  {above : List (Node σ)} {below : List NodeId} {s : Status} {i : NodeId}
  (hroot : root.ids.Nodup) (ho : root.Orderly e.tree) (hbase : ∀ i ∈ root.ids, i ∉ base.stack)
  (hn : n ∈ root.nodes)

include hbase hn

theorem Ticked.isOpen (h : Ticked e root base n above below v) : v.isOpen e n.id = true := by
  obtain ⟨H, hv⟩ := h.settled
  have hstack : n.id ∈ v.stack := by simp [h.stack]
  exact (hv.open_iff n.id (hv.entered_of_mem_stack hbase (Node.id_mem_ids hn) hstack)).2 hstack

include hroot ho

theorem Ticked.stack_finish (h : Ticked e root base n above below v) (hs : s ≠ .running) :
    (v.finish e n s).stack = below := by
  rw [Traversal.finish, if_neg hs, h.release hroot ho hbase hn]
  simp

/-- A node that finishes gives up what is on the stack of its tree. -/
theorem Ticked.place_finish (h : Ticked e root base n above below v) (hs : s ≠ .running)
    (hi : i ∈ n.ids) :
    (v.finish e n s).place e k i = if i ∈ v.stack then 0 else v.place e k i := by
  have hclose : ∀ m ∈ above ++ [n], m.hooks.close.KeepsRecords e.tree := fun m hm =>
    (ho m (h.subset_nodes hn hm)).hooks.close
  have hexit (u : Traversal σ) : Spares e i u (u.exit e n s) := .exit (ho n hn).hooks.exit
  rw [Traversal.finish, if_neg hs, (hexit _).place, h.release hroot ho hbase hn,
    Traversal.place_closeAll hclose]
  simp only [h.mem_stack_iff hi]
  rfl

end

namespace Group

variable {g : Group σ} {κ : Origin} {moved : List NodeId} {e : Setting σ} {fuel : Nat}
  {root root' n n' c : Node σ} {base base' u u' v v' w w' : Traversal σ} {H H' : List Entry}
  {s : Status} {i j : Nat}

variable (g) in
/-- States that are alike, but for where the composites of a group go on, and these are in place. -/
structure Aligned (κ : Origin) (e : Setting σ) (w w' : Traversal σ) : Prop where
  alike : Alike κ [g.outer.id] e w w'
  inPlace : g.InPlace e w w'

section

variable (hkin : Kindred κ e.tree root root') (hbase : ∀ i ∈ root.ids, i ∉ base.stack)
  (hbase' : ∀ i ∈ root'.ids, i ∉ base'.stack)

include hkin hbase hbase'

/-- What a node next to a group does leaves the composites of the group where they are. -/
theorem echoes_aside (hc : c ∈ root.nodes) (hc' : c ∈ root'.nodes) (hκ : ∀ i ∈ c.ids, κ i = some i)
    (houter : g.outer.id ∉ c.ids) (hinner : g.inner.id ∉ c.ids) :
    Echoes (g.Aligned κ e) e fuel root root' base base' false c c := by
  intro H H' w w' hw hw' hfree hfree' h
  have ho : c.Orderly e.tree := fun m hm => hkin.orderly m (Node.mem_nodes_trans hc hm)
  have hnodup := Node.nodup_ids_of_mem hkin.nodup hc
  have hmoved : ∀ i ∈ c.ids, i ∉ [g.outer.id] := fun i hi houter' =>
    houter (List.mem_singleton.1 houter' ▸ hi)
  rcases eq_none_or_exists_of_rel (Node.echoes_self hkin hbase hbase' hc hc' hκ hmoved hw hw' hfree
      hfree' h.alike) with
    ⟨hnone, hnone'⟩ | ⟨⟨s, v⟩, ⟨s', v'⟩, hsome, hsome', hs, hv⟩
  · rw [hnone, hnone']
    exact .none
  · rw [hsome, hsome']
    exact .some ⟨hs, hv, h.inPlace.of_spares (.execute hnodup ho hfree hsome houter)
      (.execute hnodup ho hfree' hsome' houter) (.execute hnodup ho hfree' hsome' hinner)⟩

/-- A node above a group gives up the composites of the group together. -/
theorem inStep_above (hn : n ∈ root.nodes) (hn' : n' ∈ root'.nodes) (hlike : n.Likewise false n')
    (hκ : κ n'.id = some n.id) (hκouter : κ g.outer.id = some g.outer.id)
    (houter : g.outer.id ∈ n.ids) (houter' : g.outer.id ∈ n'.ids) (hinner' : g.inner.id ∈ n'.ids)
    (hne : g.outer.id ≠ n.id) (hne' : g.outer.id ≠ n'.id) (hneinner : g.inner.id ≠ n'.id) :
    InStep κ (g.Aligned κ e) e root root' base base' false n n' := by
  have hk := hkin.orderly n hn
  have hk' := hkin.orderly' n' hn'
  have hstep : InStep κ (Alike κ [g.outer.id] e) e root root' base base' false n n' :=
    .of_alike hkin hbase hbase' hn hn' hlike hκ fun h => hne (List.mem_singleton.1 h).symm
  have hquiet : ∀ {w w' u u' : Traversal σ}, g.InPlace e w w' → Quiet e n.id w u →
      Quiet e n'.id w' u' → g.InPlace e u u' := fun h hu hu' =>
    h.of_spares (.of_quiet hu hne) (.of_quiet hu' hne') (.of_quiet hu' hneinner)
  constructor
  case tied =>
    constructor
    · exact fun h => hstep.tied.remembered h.alike
    · exact fun h key hkey hopen value => ⟨hstep.tied.remember h.alike key hkey hopen value,
        hquiet h.inPlace (.remember _ hopen value) (.remember _ hopen value)⟩
    · exact fun h => hstep.tied.now h.alike
    · exact fun h => ⟨hstep.tied.readClock h.alike,
        hquiet h.inPlace (.readClock _) (.readClock _)⟩
  case begin =>
    exact fun h => ⟨hstep.begin h.alike, h.inPlace.of_spares (.begin hk.hooks hne)
      (.begin hk'.hooks hne') (.begin hk'.hooks hneinner)⟩
  case leaf =>
    rintro l k rfl
    exact (hne (by simpa [Node.ids_eq, Node.kids] using houter)).elim
  case finish =>
    intro above above' below below' v v' hv hv' hbelow h s
    refine ⟨hstep.finish hv hv' hbelow h.alike s, ?_⟩
    rw [Status.turned_false]
    by_cases hs : s = .running
    · rw [Traversal.finish, Traversal.finish, if_pos hs, if_pos hs]
      exact h.inPlace.of_spares (.exit hk.hooks.exit) (.exit hk'.hooks.exit) (.exit hk'.hooks.exit)
    · have hstack := h.alike.mem_stack_iff hkin.distinct hκouter
      have hgone := hv'.stack_finish hkin.nodup' hkin.orderly' hbase' hn' hs
      refine h.inPlace.of_given_up
        (hv.place_finish hkin.nodup hkin.orderly hbase hn hs houter) ?_
        (hv'.place_finish hkin.nodup' hkin.orderly' hbase' hn' hs hinner')
        (fun hzero => (h.inPlace.together hzero).trans hstack.symm) ?_
      · simp only [hstack]
        exact hv'.place_finish hkin.nodup' hkin.orderly' hbase' hn' hs houter'
      · simp [hgone, hv'.free _ houter', hv'.free _ hinner']

end
end Group
end BehaviorTrees
