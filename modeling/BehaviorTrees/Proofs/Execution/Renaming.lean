import BehaviorTrees.Proofs.Execution.Lockstep
import BehaviorTrees.Proofs.KeyMap
import Mathlib.Logic.Equiv.Defs

/-!
# Renaming trees

Trees are told apart by their ids, and nothing else depends on these.  Where the memories of all
trees pass to other ids, a run under the new id does what the run under the old one does.  Of the
leaves that are not of the library this has to be assumed (`LeafKind.Blind`): what they do must not
depend on how trees are called.
-/

namespace BehaviorTrees

variable {σ : Type} (π : Equiv.Perm TreeId)

/-! ## Blackboards -/

/-- The memory of each tree passes to its new id. -/
def Blackboard.rename (b : Blackboard) : Blackboard :=
  { b with trees := .ofList (b.trees.entries.map fun e => (π e.1, e.2)) }

def Scope.rename (scope : Scope) : Scope := { scope with tree := scope.tree.map π }

theorem Entries.lookup_map_key {α : Type} {f : String → String} (hf : f.Injective) (k : String)
    (entries : List (String × α)) :
    (entries.map fun e => (f e.1, e.2)).lookup (f k) = entries.lookup k := by
  induction entries with
  | nil => rfl
  | cons e rest ih =>
      obtain ⟨j, v⟩ := e
      rw [List.map_cons, lookup_cons_eq, lookup_cons_eq, ih]
      simp only [hf.eq_iff]

namespace Blackboard

theorem find?_trees_rename (b : Blackboard) (t : TreeId) :
    (b.rename π).trees.find? (π t) = b.trees.find? t := by
  have hnodup : ((b.trees.entries.map fun e => (π e.1, e.2)).map Prod.fst).Nodup := by
    have hkeys := b.trees.nodup_keys.map π.injective
    simpa [KeyMap.keys, Function.comp_def] using hkeys
  rw [rename, KeyMap.ofList, KeyMap.find?_insertAll hnodup, KeyMap.find?_empty, Option.or_none,
    Entries.lookup_map_key π.injective]
  rfl

@[simp] theorem rename_empty : (∅ : Blackboard).rename π = ∅ := rfl

@[simp] theorem get_rename (b : Blackboard) (key : String) (scope : Scope) :
    (b.rename π).get key (scope.rename π) = b.get key scope := by
  rcases scope with ⟨_ | t, _ | n⟩
  · rfl
  · rfl
  all_goals simp [Scope.rename, get, find?_trees_rename]

theorem ext_trees {b b' : Blackboard} (hbase : b.base = b'.base)
    (htrees : ∀ t, b.trees.find? (π t) = b'.trees.find? (π t)) : b = b' := by
  have heq : b.trees = b'.trees := by
    refine KeyMap.ext_find? fun k => ?_
    obtain ⟨t, rfl⟩ := π.surjective k
    exact htrees t
  cases b
  cases b'
  simp_all

@[simp] theorem set_rename (b : Blackboard) (key : String) (value : Json) (scope : Scope) :
    (b.rename π).set key value (scope.rename π) = (b.set key value scope).rename π := by
  rcases scope with ⟨_ | t, _ | n⟩
  · rfl
  · rfl
  all_goals
    refine ext_trees π rfl fun t' => ?_
    simp only [Scope.rename, Option.map_some, set, find?_trees_rename, KeyMap.find?_insert,
      π.injective.eq_iff]

end Blackboard

@[simp] theorem Scope.ofNode_rename (t : TreeId) (n : NodeId) :
    (Scope.ofNode t n).rename π = .ofNode (π t) n := rfl

@[simp] theorem Scope.ofTree_rename (t : TreeId) : (Scope.ofTree t).rename π = .ofTree (π t) := rfl

/-! ## Runs -/

def Setting.rename (e : Setting σ) : Setting σ := { e with tree := π e.tree }

def Event.rename (event : Event) : Event := { event with tree := π event.tree }

def Entry.rename : Entry → Entry
  | .report event board => .report (event.rename π) (board.rename π)
  | x => x

def Traversal.rename (w : Traversal σ) : Traversal σ :=
  { w with board := w.board.rename π, journal := w.journal.map (Entry.rename π) }

def Scene.rename (s : Scene σ) : Scene σ :=
  { s with tree := π s.tree, board := s.board.rename π }

def Effect.rename (effect : Effect σ) : Effect σ :=
  { effect with board := effect.board.rename π }

/-! ## Nodes that do not observe how trees are called -/

def Hook.Blind (h : Hook σ) : Prop := ∀ s : Scene σ, h (s.rename π) = (h s).rename π

structure Hooks.Blind (h : Hooks σ) : Prop where
  enter : h.enter.Blind π
  opening : h.opening.Blind π
  close : h.close.Blind π
  exit : h.exit.Blind π

theorem Hooks.blind_default : Hooks.Blind π ({} : Hooks σ) := by
  constructor <;> exact fun s => rfl

def LeafKind.Blind : LeafKind σ → Prop
  | condition _ holds => ∀ target (b : Blackboard), holds target (b.rename π) = holds target b
  | runAction _ act => ∀ target (b : Blackboard),
      act target (b.rename π) = ((act target b).1, (act target b).2.rename π)
  | custom design => design.hooks.Blind π ∧ ∀ s : Scene σ,
      design.tick (s.rename π) = ((design.tick s).1, (design.tick s).2.rename π)
  | _ => True

/-- A composite or a decorator of the library, or a leaf that does not observe how trees are
called. -/
def Node.Blind : Node σ → Prop
  | composite _ (.custom _) _ => False
  | decorator _ (.custom _) _ => False
  | leaf _ k => k.Blind π
  | _ => True

variable {π} {e : Setting σ} {n : Node σ}

theorem Node.Blind.script? (h : n.Blind π) : n.script? = none :=
  script?_eq_none (P := Blind π) (fun _ _ _ => not_false) (fun _ _ _ => not_false) h

theorem Node.Blind.hooks (h : n.Blind π) : n.hooks.Blind π := by
  rcases hooks_eq_default_or_custom h.script? with hdefault | ⟨l, design, rfl⟩
  · exact hdefault ▸ Hooks.blind_default π
  · exact h.1

/-! ## Single steps -/

namespace Traversal

section

variable (w : Traversal σ) (id : NodeId) (key : String)

theorem remembered_rename :
    (w.rename π).remembered (e.rename π) id key = w.remembered e id key :=
  Blackboard.get_rename π w.board key (.ofNode e.tree id)

theorem remember_rename (value : Json) :
    (w.rename π).remember (e.rename π) id key value = (w.remember e id key value).rename π := by
  simp only [remember, rename, ← Blackboard.set_rename, Scope.ofNode_rename, Setting.rename]

theorem readClock_rename :
    (w.rename π).readClock (e.rename π) id =
      ((w.readClock e id).1, (w.readClock e id).2.rename π) := rfl

theorem elapsed_rename (now : Nat) :
    elapsed (e.rename π) id now (w.rename π) = elapsed e id now w := by
  simp only [elapsed, remembered_rename]

theorem scene_rename (self : Info) :
    (w.rename π).scene (e.rename π) self = (w.scene e self).rename π := rfl

theorem apply_rename (effect : Effect σ) :
    (w.rename π).apply (effect.rename π) = (w.apply effect).rename π := rfl

theorem act_rename {hook : Hook σ} (h : hook.Blind π) :
    (w.rename π).act (e.rename π) n hook = (w.act e n hook).rename π := by
  rw [act, scene_rename, h, apply_rename, act]

theorem noteCall_rename (phase : Phase) :
    (w.rename π).noteCall id phase = (w.noteCall id phase).rename π := rfl

theorem history_rename : (w.rename π).history = w.history.map (Entry.rename π) := by
  simp [history, rename]

theorem tied_rename (id : NodeId) :
    Tied e (e.rename π) id id fun w w' : Traversal σ => w' = w.rename π where
  remembered := by
    rintro w _ rfl key -
    exact remembered_rename w id key
  remember := by
    rintro w _ rfl key - - value
    exact remember_rename w id key value
  now := by
    rintro w _ rfl
    rfl
  readClock := by
    rintro w _ rfl
    rfl

end

end Traversal

theorem LeafKind.tick_rename {k : LeafKind σ} (h : k.Blind π) (self : Info) (w : Traversal σ) :
    k.tick (e.rename π) self (w.rename π) =
      ((k.tick e self w).1, (k.tick e self w).2.rename π) := by
  cases k with
  | wait ms => simp only [tick, Traversal.readClock_rename, Traversal.elapsed_rename]
  | condition name holds =>
      have hholds : holds w.target (w.board.rename π) = holds w.target w.board :=
        h w.target w.board
      simp only [tick, Traversal.rename, hholds]
  | runAction name act =>
      have hact : act w.target (w.board.rename π) =
          ((act w.target w.board).1, (act w.target w.board).2.rename π) := h w.target w.board
      simp only [tick, Traversal.rename, hact]
      rfl
  | custom design =>
      simp only [tick, Traversal.scene_rename, h.2, Traversal.apply_rename]
  | _ => rfl

/-! ## Runs under the new ids -/

/-- A run under the new ids goes through the renamed states of the run under the old ones. -/
theorem rename_lockstep (h : ∀ m ∈ n.nodes, m.Blind π) :
    Lockstep e (e.rename π) n fun w w' => w' = w.rename π where
  stack := by
    rintro w _ rfl
    rfl
  tied := Traversal.tied_rename
  mark := by
    rintro w _ rfl id flag
    exact w.remember_rename id Key.isOpen (.bool flag)
  push := by
    rintro w _ rfl id
    rfl
  cut := by
    rintro w _ rfl stack
    rfl
  report := by
    rintro w _ rfl m phase status
    rfl
  note := by
    rintro m - - phase w _ rfl
    exact w.noteCall_rename m.id phase
  perform := by
    rintro l design hm x hx w _ rfl
    have hhooks := (h _ hm).hooks
    have hacts : ∀ x ∈ design.hooks.calls, x.2.Blind π :=
      Hooks.forall_mem_calls.2 ⟨hhooks.enter, hhooks.opening, hhooks.close, hhooks.exit⟩
    rw [Traversal.perform, Traversal.call, Traversal.noteCall_rename]
    exact Traversal.act_rename _ (hacts x hx)
  branch m hm := (h m hm).script?
  leaf := by
    rintro l k hmem w _ rfl
    rw [Traversal.noteCall_rename, LeafKind.tick_rename (h _ hmem)]
    exact ⟨rfl, rfl⟩

/-- A run under the new ids does what the other does under the old ones. -/
def Exec.Renamed (π : Equiv.Perm TreeId) (run run' : Exec σ) : Prop :=
  ∀ w, run' (w.rename π) = (run w).map fun (s, w) => (s, w.rename π)

theorem Node.execute_renamed (h : ∀ m ∈ n.nodes, m.Blind π) (fuel : Nat) :
    Exec.Renamed π (n.execute e fuel) (n.execute (e.rename π) fuel) := by
  intro w
  rcases eq_none_or_exists_of_rel
      ((rename_lockstep (e := e) h).execute_ends n.mem_nodes_self fuel w (w.rename π) rfl) with
    ⟨hnone, hnone'⟩ | ⟨⟨s, v⟩, ⟨s', v'⟩, hsome, hsome', hs, hv⟩
  · rw [hnone, hnone']
    rfl
  · obtain rfl : s' = s := hs
    obtain rfl : v' = v.rename π := hv
    rw [hsome, hsome']
    rfl

end BehaviorTrees
