import BehaviorTrees.Proofs.Tree.RoundTrip

/-!
# Loading into a tree that was in use

What a tree held before it was loaded from the dump of another one shows in its own dump in one
place only: a bag of properties that is empty in the dump counts as not given, and the old one
stays.
-/

namespace BehaviorTrees.Tree

variable {σ : Type} {t : Tree σ}

theorem namesTaken_empty (nodes : KeyMap NodeRecord) :
    namesTaken (∅ : Catalog σ) nodes = [] := by
  refine List.filterMap_eq_nil_iff.2 fun e _ => ?_
  simp [KeyMap.contains]

/-- The tree `u` after it has taken over what the dump of `t` says. -/
def takeOver (t u : Tree σ) : Tree σ :=
  { u with
    title := t.title
    description := t.description
    properties := if t.properties.isEmpty then u.properties else t.properties
    root := t.root
    callerNames := [] }

theorem Restorable.load_dump_eq_takeOver (h : t.Restorable ∅) (u : Tree σ) :
    u.load t.dump ∅ = .ok (t.takeOver u) := by
  rw [h.load_dump u, namesTaken_empty]
  rfl

/-- Where no name of the library is the caller's, a dump does not show from where the types of the
nodes came. -/
theorem Restorable.dump_takeOver (h : t.Restorable ∅) (u : Tree σ) :
    (t.takeOver u).dump = { t.dump with
      properties := if t.properties.isEmpty then u.properties else t.properties } := by
  have hnames : dump { t with id := t.id, callerNames := [] } = t.dump :=
    dump_eq_of_forall_builtin (by simp) h.callerNames t.id
  rw [← hnames]
  rfl

/-- The dump of a tree of nodes of the library can be loaded into any tree, whatever that held.
After that both trees have the same dump, unless the first has no properties and the other one
had some. -/
theorem dump_load_dump_eq_iff (h : t.Restorable ∅) (u : Tree σ) :
    ∃ u', u.load t.dump ∅ = .ok u' ∧ u'.root = t.root ∧
      u'.dump = { t.dump with
        properties := if t.properties.isEmpty then u.properties else t.properties } ∧
      (u'.dump = t.dump ↔ (t.properties.isEmpty = true → u.properties.isEmpty = true)) := by
  have hdump := h.dump_takeOver u
  refine ⟨t.takeOver u, h.load_dump_eq_takeOver u, rfl, hdump, ?_⟩
  constructor
  · intro heq hempty
    have hproperties : (t.takeOver u).dump.properties = t.dump.properties := by rw [heq]
    rw [hdump] at hproperties
    simp only [hempty, if_true] at hproperties
    rw [hproperties]
    exact hempty
  · intro himp
    rw [hdump]
    by_cases hempty : t.properties.isEmpty = true
    · have hsame : u.properties = t.properties :=
        (KeyMap.eq_empty_of_isEmpty (himp hempty)).trans (KeyMap.eq_empty_of_isEmpty hempty).symm
      simp only [hempty, if_true, hsame]
      rfl
    · simp only [hempty, Bool.false_eq_true, if_false]
      rfl

/-! ## A guard that is replaced -/

def deadline : Node Unit :=
  .decorator
    { id := "m", title := "Max <maxTime>ms", properties := .ofList [("maxTime", .ofNat 9)] }
    (.maxTime 9) (some (.leaf { id := "r", title := "Runner" } .runner))

def deadlineTree (properties : Properties) : Tree Unit :=
  { emptyTree with title := "Deadline", properties, root := some deadline }

/-- A tree whose last loading took a type that the library has as well from the caller. -/
def guardTree : Tree Unit :=
  { emptyTree with
    id := "u"
    description := "Stands guard"
    properties := .ofList [("owner", .string "guards")]
    root := some (.leaf { id := "r", title := "Runner" } .runner)
    callerNames := ["Runner"] }

theorem deadlineTree_restorable (properties : Properties) :
    (deadlineTree properties).Restorable ∅ := by
  have hroot : ∀ {root}, (deadlineTree properties).root = some root → deadline = root :=
    Option.some.inj
  constructor
  case title => simp [deadlineTree]
  case description => simp [deadlineTree, emptyTree]
  case nodup_ids =>
    rintro _ hr
    rw [← hroot hr]
    decide
  case titles =>
    rintro _ hr
    rw [← hroot hr]
    decide
  case nodes =>
    rintro _ hr m hm
    rw [← hroot hr] at hm
    rcases List.mem_pair.1 hm with rfl | rfl
    · exact ⟨by decide, .ofNat 9, rfl, rfl⟩
    · trivial
  case names => simp [KeyMap.contains]
  case callerNames => simp [deadlineTree, emptyTree]

/-- The tree loaded from has no properties, and the guard's owner stays. -/
theorem properties_stay_after_load :
    (deadlineTree ∅).Restorable ∅ ∧
      ∃ u', guardTree.load (deadlineTree ∅).dump ∅ = .ok u' ∧
        u'.dump.properties.keys = ["owner"] ∧ u'.dump ≠ (deadlineTree ∅).dump := by
  refine ⟨deadlineTree_restorable ∅, (deadlineTree ∅).takeOver guardTree,
    (deadlineTree_restorable ∅).load_dump_eq_takeOver guardTree, by decide, fun heq => ?_⟩
  have hkeys : ((deadlineTree ∅).takeOver guardTree).dump.properties.keys =
      (deadlineTree ∅).dump.properties.keys := by rw [heq]
  exact absurd hkeys (by decide)

theorem dump_load_dump_eq_iff_deadline :
    (deadlineTree (.ofList [("owner", .null)])).Restorable ∅ ∧
      ∃ u', guardTree.load (deadlineTree (.ofList [("owner", .null)])).dump ∅ = .ok u' ∧
        u'.dump = (deadlineTree (.ofList [("owner", .null)])).dump := by
  have h := deadlineTree_restorable (.ofList [("owner", .null)])
  obtain ⟨u', hload, -, -, hiff⟩ := dump_load_dump_eq_iff h guardTree
  exact ⟨h, u', hload, hiff.2 fun hempty => absurd hempty (by decide)⟩

end BehaviorTrees.Tree
