import BehaviorTrees.Blackboard
import Mathlib.Data.List.Induction
import Mathlib.Logic.Function.Basic

/-!
# The blackboard as one map

For all its tiers a blackboard holds one value or none in each `Slot`, that is, at an address under
a key.  A write updates this `flat` map in one slot.  So a read finds the last value written to its
slot, writes to different slots may change places, and what is only asked changes nothing.
-/

namespace BehaviorTrees

/-- Where a value is kept: at an address, under a key. -/
abbrev Slot := Address × String

/-- A value, and the scope and the key it is written under. -/
structure Write where
  key : String
  value : Json
  scope : Scope

def Write.slot (x : Write) : Slot := (x.scope.address, x.key)

/-- What can be asked of a blackboard. -/
inductive Request where
  | set (x : Write)
  | get (key : String) (scope : Scope)
  | contains (key : String) (scope : Scope)
  | hasTree (tree : TreeId)

inductive Reply where
  | done
  | found (value : Option Json)
  | holds (answer : Bool)

def Request.write? : Request → Option Write
  | set x => some x
  | _ => none

/-- The writes among some requests, in their order. -/
def writes (requests : List Request) : List Write := requests.filterMap Request.write?

/-- The value of the last of some writes to a slot. -/
def lastWritten (s : Slot) (xs : List Write) : Option Json :=
  (xs.filter (·.slot = s)).getLast?.map (·.value)

theorem lastWritten_append_singleton (s : Slot) (xs : List Write) (x : Write) :
    lastWritten s (xs ++ [x]) = if x.slot = s then some x.value else lastWritten s xs := by
  by_cases h : x.slot = s <;> simp [lastWritten, h]

namespace Address

/-- A scope that leads to the address. -/
def scope : Address → Scope
  | base => .global
  | tree t => .ofTree t
  | node t n => .ofNode t n

@[simp] theorem address_scope (a : Address) : a.scope.address = a := by
  cases a <;> rfl

end Address

namespace Blackboard

/-! ## Requests -/

def write (b : Blackboard) (x : Write) : Blackboard := b.set x.key x.value x.scope

def reply (b : Blackboard) : Request → Reply
  | .set _ => .done
  | .get key scope => .found (b.get key scope)
  | .contains key scope => .holds (b.contains key scope)
  | .hasTree t => .holds (b.hasTree t)

/-- The blackboard after a request. -/
def next (b : Blackboard) : Request → Blackboard
  | .set x => b.write x
  | _ => b

def after (b : Blackboard) (requests : List Request) : Blackboard := requests.foldl next b

theorem after_eq_foldl_writes (b : Blackboard) (requests : List Request) :
    b.after requests = (writes requests).foldl write b := by
  induction requests generalizing b with
  | nil => rfl
  | cons q later ih => cases q <;> exact ih _

/-! ## The flat map -/

/-- What is kept in each slot. -/
def flat (b : Blackboard) : Slot → Option Json := fun (a, key) => b.get key a.scope

/-- Scopes that lead to the same address read the same values. -/
theorem get_eq_flat (b : Blackboard) (key : String) (scope : Scope) :
    b.get key scope = b.flat (scope.address, key) := by
  rcases scope with ⟨_ | t, _ | n⟩ <;> rfl

theorem flat_empty : (∅ : Blackboard).flat = fun _ => none :=
  funext fun _ => get_empty ..

theorem flat_write (b : Blackboard) (x : Write) :
    (b.write x).flat = Function.update b.flat x.slot (some x.value) := by
  funext ⟨a, key⟩
  rw [Function.update_apply]
  simp only [flat, write, get_set, Address.address_scope, Write.slot, Prod.mk.injEq,
    and_comm (a := a = _)]

theorem flat_foldl_write (b : Blackboard) (xs : List Write) (s : Slot) :
    (xs.foldl write b).flat s = (lastWritten s xs).or (b.flat s) := by
  induction xs using List.reverseRecOn with
  | nil => rfl
  | append_singleton xs x ih =>
      rw [List.foldl_append, List.foldl_cons, List.foldl_nil, flat_write, Function.update_apply, ih,
        lastWritten_append_singleton]
      by_cases h : s = x.slot
      · rw [if_pos h, if_pos h.symm, Option.some_or]
      · rw [if_neg h, if_neg (Ne.symm h)]

theorem hasTree_foldl_write (b : Blackboard) (xs : List Write) (t : TreeId) :
    (xs.foldl write b).hasTree t = true ↔
      (∃ x ∈ xs, x.scope.tree = some t) ∨ b.hasTree t = true := by
  induction xs generalizing b with
  | nil => simp
  | cons x later ih =>
      rw [List.foldl_cons, ih, write, hasTree_set]
      simp only [Bool.or_eq_true, decide_eq_true_eq, List.mem_cons, or_and_right, exists_or,
        exists_eq_left, or_assoc, or_left_comm]

/-- A blackboard answers as its flat map and its trees say. -/
theorem reply_congr {b b' : Blackboard} (hflat : b'.flat = b.flat)
    (htree : ∀ t, b'.hasTree t = b.hasTree t) (q : Request) : b'.reply q = b.reply q := by
  cases q with
  | set x => rfl
  | get key scope => simp only [reply, get_eq_flat, hflat]
  | contains key scope => simp only [reply, contains, get_eq_flat, hflat]
  | hasTree t => simp only [reply, htree]

/-- Two writes to different slots may change places. -/
theorem reply_foldl_write_swap (b : Blackboard) {x y : Write} (h : x.slot ≠ y.slot)
    (pre post : List Write) (q : Request) :
    ((pre ++ y :: x :: post).foldl write b).reply q =
      ((pre ++ x :: y :: post).foldl write b).reply q := by
  apply reply_congr
  · funext s
    simp only [List.foldl_append, List.foldl_cons, flat_foldl_write, flat_write]
    rw [Function.update_comm h.symm]
  · intro t
    rw [Bool.eq_iff_iff, hasTree_foldl_write, hasTree_foldl_write]
    simp only [List.mem_append, List.mem_cons]
    grind

/-! ## What a new blackboard answers -/

/-- After any requests to a new blackboard a read finds the last value written under its key at the
address of its scope, and nothing where there was no such write; a test for a key agrees with the
read; and a tree has memory if and only if something was written under its scope.  Two writes one
after the other to different keys or addresses may change places, and what is not a write may be left
out, without a difference to any later answer. -/
theorem reads_find_last_written (requests : List Request) :
    let b := (∅ : Blackboard).after requests
    (∀ key scope, b.get key scope = lastWritten (scope.address, key) (writes requests)) ∧
      (∀ key scope, b.contains key scope = (b.get key scope).isSome) ∧
      (∀ t, b.hasTree t = true ↔ ∃ x ∈ writes requests, x.scope.tree = some t) ∧
      (∀ pre x y post, requests = pre ++ .set x :: .set y :: post →
        x.key ≠ y.key ∨ x.scope.address ≠ y.scope.address →
          ∀ q, ((∅ : Blackboard).after (pre ++ .set y :: .set x :: post)).reply q = b.reply q) ∧
      (∀ pre asked post, requests = pre ++ asked :: post → asked.write? = none →
        ∀ q, ((∅ : Blackboard).after (pre ++ post)).reply q = b.reply q) := by
  intro b
  have hb : b = (writes requests).foldl write ∅ := after_eq_foldl_writes ∅ requests
  refine ⟨fun key scope => ?_, fun _ _ => rfl, fun t => ?_, ?_, ?_⟩
  · rw [get_eq_flat, hb, flat_foldl_write, flat_empty, Option.or_none]
  · have hnone : (∅ : Blackboard).hasTree t = false := rfl
    rw [hb, hasTree_foldl_write, hnone]
    simp
  · rintro pre x y post rfl hne q
    have hslot : x.slot ≠ y.slot := by
      intro heq
      obtain ⟨haddress, hkey⟩ := Prod.mk.inj heq
      exact hne.elim (fun h => h hkey) fun h => h haddress
    rw [hb, after_eq_foldl_writes]
    simp only [writes, List.filterMap_append, List.filterMap_cons, Request.write?]
    exact reply_foldl_write_swap ∅ hslot _ _ q
  · rintro pre asked post rfl hasked q
    rw [hb, after_eq_foldl_writes]
    simp only [writes, List.filterMap_append, List.filterMap_cons, hasked]

/-! ## One name for everything -/

/-- Writes and reads in which one name serves as tree, node and key. -/
def sameNames : List Request :=
  [.set ⟨"a", .ofNat 1, ⟨none, some "a"⟩⟩, .contains "a" (.ofTree "a"),
    .set ⟨"a", .ofNat 2, .ofTree "a"⟩, .set ⟨"a", .ofNat 3, .ofNode "a" "a"⟩,
    .get "a" .global]

theorem reads_find_last_written_sameNames :
    let b := (∅ : Blackboard).after sameNames
    b.get "a" .global = some (.ofNat 1) ∧ b.get "a" ⟨none, some "b"⟩ = some (.ofNat 1) ∧
      b.get "a" (.ofTree "a") = some (.ofNat 2) ∧ b.get "a" (.ofNode "a" "a") = some (.ofNat 3) ∧
      b.get "a" (.ofNode "a" "b") = none ∧ b.hasTree "a" = true ∧ b.hasTree "b" = false ∧
      (∀ q, ((∅ : Blackboard).after
        [.set ⟨"a", .ofNat 1, ⟨none, some "a"⟩⟩, .contains "a" (.ofTree "a"),
          .set ⟨"a", .ofNat 3, .ofNode "a" "a"⟩, .set ⟨"a", .ofNat 2, .ofTree "a"⟩,
          .get "a" .global]).reply q = b.reply q) ∧
      ∀ q, ((∅ : Blackboard).after
        [.set ⟨"a", .ofNat 1, ⟨none, some "a"⟩⟩, .set ⟨"a", .ofNat 2, .ofTree "a"⟩,
          .set ⟨"a", .ofNat 3, .ofNode "a" "a"⟩, .get "a" .global]).reply q = b.reply q := by
  obtain ⟨hget, -, htree, hswap, hskip⟩ := reads_find_last_written sameNames
  refine ⟨(hget ..).trans rfl, (hget ..).trans rfl, (hget ..).trans rfl, (hget ..).trans rfl,
    (hget ..).trans rfl, (htree "a").2 ?_, ?_, ?_, ?_⟩
  · exact ⟨⟨"a", .ofNat 2, .ofTree "a"⟩, by simp [writes, sameNames, Request.write?], rfl⟩
  · rw [← Bool.not_eq_true, htree]
    simp [writes, sameNames, Request.write?, Scope.ofTree, Scope.ofNode]
  · exact hswap (sameNames.take 2) _ _ [.get "a" .global] rfl (.inr (by decide))
  · exact hskip (sameNames.take 1) (.contains "a" (.ofTree "a")) (sameNames.drop 2) rfl rfl

end Blackboard
end BehaviorTrees
