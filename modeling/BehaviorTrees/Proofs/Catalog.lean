import BehaviorTrees.Catalog
import BehaviorTrees.Proofs.KeyMap
import BehaviorTrees.Proofs.Node.Subtree
import BehaviorTrees.Record

/-!
# What catalogs make

The factory chosen for a type is the caller's own one or, where there is none, that of the library
(`Catalog.Chooses`).  A node as it comes from a factory is `Node.Blank`: it holds no other nodes
yet, and it will keep those it is given.  The factories of the library make such nodes only.
-/

namespace BehaviorTrees

variable {σ : Type}

theorem bind_eq_ok_iff {ε α β : Type} {x : Except ε α} {f : α → Except ε β} {b : β} :
    (x >>= f) = .ok b ↔ ∃ a, x = .ok a ∧ f a = .ok b := by
  cases x <;> simp [bind, Except.bind]

theorem bind_eq_error_iff {ε α β : Type} {x : Except ε α} {f : α → Except ε β} {fault : ε} :
    (x >>= f) = .error fault ↔ x = .error fault ∨ ∃ a, x = .ok a ∧ f a = .error fault := by
  cases x <;> simp [bind, Except.bind]

theorem bind_pure_eq_ok_iff {ε α β : Type} {x : Except ε α} {f : α → β} {b : β} :
    (x >>= fun a => pure (f a)) = .ok b ↔ ∃ a, x = .ok a ∧ b = f a := by
  rw [bind_eq_ok_iff]
  simp only [pure, Except.pure, Except.ok.injEq, eq_comm]

/-! ## Blank nodes -/

namespace Node

/-- The node keeps the nodes it is given, as all nodes of the library do. -/
def KeepsLinks : Node σ → Prop
  | composite _ (.custom design) _ => design.keepsLinks = true
  | decorator _ (.custom design) _ => design.keepsLinks = true
  | _ => True

structure Blank (n : Node σ) : Prop where
  kids : n.kids = []
  keepsLinks : n.KeepsLinks

theorem blank_ofComposite {k : CompositeKind σ} (hk : ∀ design, k ≠ .custom design) :
    (ofComposite k).Blank := by
  refine ⟨rfl, ?_⟩
  cases k with
  | custom design => exact (hk design rfl).elim
  | _ => trivial

theorem blank_ofDecorator {k : DecoratorKind σ} (hk : ∀ design, k ≠ .custom design) :
    (ofDecorator k).Blank := by
  refine ⟨rfl, ?_⟩
  cases k with
  | custom design => exact (hk design rfl).elim
  | _ => trivial

theorem blank_ofLeaf (k : LeafKind σ) : (ofLeaf k).Blank := ⟨rfl, trivial⟩

end Node

/-! ## The types of the library -/

namespace Catalog

theorem mem_builtinNames_iff {name : String} :
    name ∈ builtinNames ↔ (builtin? name : Option (Factory σ)).isSome := by
  constructor
  · intro h
    simp only [builtinNames, List.mem_cons, List.not_mem_nil, or_false] at h
    rcases h with
      rfl | rfl | rfl | rfl | rfl | rfl | rfl | rfl | rfl | rfl | rfl | rfl | rfl | rfl | rfl <;>
      rfl
  · intro h
    unfold builtin? at h
    split at h
    case h_16 => cases h
    all_goals simp [builtinNames]

theorem builtin_find? (name : String) : (builtin : Catalog σ).find? name = builtin? name := by
  have hkeys : (builtinNames.filterMap fun name =>
      (builtin? name : Option (Factory σ)).map (name, ·)).map Prod.fst = builtinNames := rfl
  have hnodup : builtinNames.Nodup := by decide
  ext factory
  rw [builtin, KeyMap.ofList, KeyMap.find?_insertAll (hkeys ▸ hnodup), KeyMap.find?_empty,
    Option.or_none, Entries.lookup_eq_some_iff_mem (hkeys ▸ hnodup), List.mem_filterMap]
  constructor
  · rintro ⟨name', -, h⟩
    obtain ⟨factory', hfactory, heq⟩ := Option.map_eq_some_iff.1 h
    obtain ⟨rfl, rfl⟩ : name' = name ∧ factory' = factory := by simpa using heq
    exact hfactory
  · intro h
    have hmem : name ∈ builtinNames := (mem_builtinNames_iff (σ := σ)).2 (by simp [h])
    exact ⟨name, hmem, by simp [h]⟩

/-- The factory of a type: the caller's own one, or that of the library where the caller has
none. -/
def Chooses (names : Catalog σ) (name : String) (factory : Factory σ) : Prop :=
  names.find? name = some factory ∨
    (names.contains name = false ∧ builtin.find? name = some factory)

theorem resolve?_eq_some_iff {names : Catalog σ} {name : String} {factory : Factory σ} :
    names.resolve? name = some factory ↔ names.Chooses name factory := by
  rw [resolve?, Chooses, builtin_find?, KeyMap.contains]
  cases names.find? name <;> simp

/-- The node that the factory chosen for a record makes of its properties. -/
def Makes (names : Catalog σ) (r : NodeRecord) (n : Node σ) : Prop :=
  ∃ factory, names.Chooses r.name factory ∧ factory r.properties = .ok n

theorem Makes.eq {names : Catalog σ} {r : NodeRecord} {n m : Node σ} (h : names.Makes r n)
    (h' : names.Makes r m) : n = m := by
  obtain ⟨factory, hchosen, hn⟩ := h
  obtain ⟨factory', hchosen', hm⟩ := h'
  rw [← resolve?_eq_some_iff] at hchosen hchosen'
  obtain rfl : factory = factory' := Option.some.inj (hchosen.symm.trans hchosen')
  exact Except.ok.inj (hn.symm.trans hm)

/-- The factories of a caller give nodes that hold nothing yet and keep what they are given. -/
def MakesBlanks (names : Catalog σ) : Prop :=
  ∀ name factory p n, names.find? name = some factory → factory p = .ok n → n.Blank

/-! ## What the factories of the library make -/

section

variable {p : Properties} {k : DecoratorKind σ} {n : Node σ}

theorem map_eq_ok_iff {ε α β : Type} {x : Except ε α} {f : α → β} {b : β} :
    f <$> x = .ok b ↔ ∃ a, x = .ok a ∧ f a = b := by
  cases x <;> simp [Functor.map, Except.map]

theorem limiterFrom_eq_ok_iff :
    DecoratorKind.limiterFrom p = .ok k ↔
      ∃ m, p.natural "Limiter" "maxLoop" 0 = .ok m ∧ m ≠ 0 ∧ k = .limiter m := by
  rw [DecoratorKind.limiterFrom, bind_eq_ok_iff]
  refine exists_congr fun m => and_congr_right fun _ => ?_
  by_cases hm : m = 0 <;> simp [DecoratorKind.limiterOf, hm, eq_comm]

theorem maxTimeFrom_eq_ok_iff :
    DecoratorKind.maxTimeFrom p = .ok k ↔
      ∃ m, p.natural "MaxTime" "maxTime" 0 = .ok m ∧ m ≠ 0 ∧ k = .maxTime m := by
  rw [DecoratorKind.maxTimeFrom, bind_eq_ok_iff]
  refine exists_congr fun m => and_congr_right fun _ => ?_
  by_cases hm : m = 0 <;> simp [DecoratorKind.maxTimeOf, hm, eq_comm]

theorem boundFrom_eq_ok_iff {name : String} {b : Bound} :
    DecoratorKind.boundFrom name p = .ok b ↔
      ∃ z, p.int name "maxLoop" (-1) = .ok z ∧ b = .ofInt z := bind_pure_eq_ok_iff

theorem repeaterFrom_eq_ok_iff :
    DecoratorKind.repeaterFrom p = .ok k ↔
      ∃ b, DecoratorKind.boundFrom "Repeater" p = .ok b ∧ k = .repeater b :=
  bind_pure_eq_ok_iff

theorem repeatUntilSuccessFrom_eq_ok_iff :
    DecoratorKind.repeatUntilSuccessFrom p = .ok k ↔
      ∃ b, DecoratorKind.boundFrom "RepeatUntilSuccess" p = .ok b ∧
        k = .repeatUntilSuccess b :=
  bind_pure_eq_ok_iff

theorem repeatUntilFailureFrom_eq_ok_iff :
    DecoratorKind.repeatUntilFailureFrom p = .ok k ↔
      ∃ b, DecoratorKind.boundFrom "RepeatUntilFailure" p = .ok b ∧
        k = .repeatUntilFailure b :=
  bind_pure_eq_ok_iff

theorem waitFrom_eq_ok_iff {k : LeafKind σ} :
    LeafKind.waitFrom p = .ok k ↔ ∃ ms, p.natural "Wait" "milliseconds" 0 = .ok ms ∧
      k = .wait ms :=
  bind_pure_eq_ok_iff

theorem blank_of_builtin {name : String} {factory : Factory σ}
    (hname : builtin? name = some factory) (h : factory p = .ok n) : n.Blank := by
  unfold builtin? at hname
  split at hname <;> cases hname
  case h_1 | h_2 | h_3 | h_4 =>
      cases h
      exact Node.blank_ofComposite (by simp)
  case h_5 =>
      cases h
      exact Node.blank_ofDecorator (by simp)
  case h_11 | h_12 | h_13 | h_14 =>
      cases h
      exact Node.blank_ofLeaf _
  all_goals obtain ⟨k, hk, rfl⟩ := map_eq_ok_iff.1 h
  case h_6 =>
      obtain ⟨m, -, -, rfl⟩ := limiterFrom_eq_ok_iff.1 hk
      exact Node.blank_ofDecorator (by simp)
  case h_7 =>
      obtain ⟨m, -, -, rfl⟩ := maxTimeFrom_eq_ok_iff.1 hk
      exact Node.blank_ofDecorator (by simp)
  case h_8 =>
      obtain ⟨b, -, rfl⟩ := repeaterFrom_eq_ok_iff.1 hk
      exact Node.blank_ofDecorator (by simp)
  case h_9 =>
      obtain ⟨b, -, rfl⟩ := repeatUntilSuccessFrom_eq_ok_iff.1 hk
      exact Node.blank_ofDecorator (by simp)
  case h_10 =>
      obtain ⟨b, -, rfl⟩ := repeatUntilFailureFrom_eq_ok_iff.1 hk
      exact Node.blank_ofDecorator (by simp)
  case h_15 => exact Node.blank_ofLeaf _

theorem MakesBlanks.blank {names : Catalog σ} (hnames : names.MakesBlanks) {r : NodeRecord}
    (h : names.Makes r n) : n.Blank := by
  obtain ⟨factory, hchosen | ⟨-, hchosen⟩, hn⟩ := h
  · exact hnames r.name factory r.properties n hchosen hn
  · rw [builtin_find?] at hchosen
    exact blank_of_builtin hchosen hn

end

end Catalog
end BehaviorTrees
