import BehaviorTrees.Proofs.Tree.Unfolding

/-!
# What loading gives

Loading succeeds exactly on well-formed records.  The tree then has the unfolding of the record as
its root, and keeps of what it was before only what the record leaves empty.
-/

namespace BehaviorTrees

variable {σ : Type}

/-- A factory makes a node of every record of a node, whether it is used or not, and from the root
on the links make a tree. -/
structure TreeRecord.WellFormed (names : Catalog σ) (d : TreeRecord) : Prop where
  makes : ∀ k r, d.nodes.find? k = some r → ∃ n, names.Makes r n
  wellLinked : ∀ root, d.root = some root → d.WellLinked names root

namespace Tree

variable {names : Catalog σ} {d : TreeRecord} {made : List (String × Node σ)} {root : NodeId}
  {t t' : Tree σ}

/-- A tree after its content was replaced by that of a record. -/
structure Replaced (names : Catalog σ) (d : TreeRecord) (t t' : Tree σ) : Prop where
  id : t'.id = d.id.getD t.id
  title : t'.title = if d.title = "" then t.title else d.title
  description : t'.description = if d.description = "" then t.description else d.description
  properties : t'.properties = if d.properties.isEmpty then t.properties else d.properties
  root : Option.Rel (Unfolds names d) d.root t'.root
  clock : t'.clock = t.clock
  callerNames : t'.callerNames = namesTaken names d.nodes

theorem exists_assemble_eq_ok (hblanks : d.MakesBlanks names)
    (hmade : makeAll names d.nodes.entries = .ok made) (hroot : d.root = some root)
    (hwell : d.WellLinked names root) :
    ∃ n cs, assemble d made = .ok (some n) ∧ Unfolds names d root n ∧
      Outline names d [root] cs ∧ (cs.map Claim.key).Nodup ∧
      n.ids.Perm (cs.map (·.node.id)) := by
  obtain ⟨cs, hclaim⟩ := (exists_claimAll_iff hmade).2 hwell
  obtain ⟨new, rfl, houtline, hnodup⟩ := outline_of_claimAll hmade hclaim List.nodup_nil
  rw [List.append_nil] at hnodup hclaim
  obtain ⟨trees, htrees, hids, hattach⟩ := houtline.exists_attachAll hblanks
  cases htrees with
  | @cons _ n _ trees hn hnone =>
      cases hnone
      have hall : attachAll new [] = .ok [n] := by simpa [attachAll] using hattach [] []
      refine ⟨n, new, ?_, hn, houtline, hnodup, by simpa using hids⟩
      simp [assemble, hroot, hwell.isKey, hclaim, hall, bind, Except.bind, pure, Except.pure]

theorem wellLinked_of_assemble (hmade : makeAll names d.nodes.entries = .ok made)
    {n : Option (Node σ)} (h : assemble d made = .ok n) (hroot : d.root = some root) :
    d.WellLinked names root := by
  simp only [assemble, hroot] at h
  split at h
  · obtain ⟨cs, hcs, -⟩ := bind_eq_ok_iff.1 h
    exact (exists_claimAll_iff hmade).1 ⟨cs, hcs⟩
  · cases h

theorem assemble_eq_ok_iff (hblanks : d.MakesBlanks names)
    (hmade : makeAll names d.nodes.entries = .ok made) {n : Option (Node σ)} :
    assemble d made = .ok n ↔ (∀ root, d.root = some root → d.WellLinked names root) ∧
      Option.Rel (Unfolds names d) d.root n := by
  cases hroot : d.root with
  | none =>
      have hassemble : assemble d made = .ok none := by simp [assemble, hroot]
      rw [hassemble, Except.ok.injEq]
      constructor
      · rintro rfl
        exact ⟨by simp, .none⟩
      · rintro ⟨-, hrel⟩
        cases hrel
        rfl
  | some root =>
      constructor
      · intro h
        have hwell := wellLinked_of_assemble hmade h hroot
        obtain ⟨m, -, hassemble, hm, -⟩ := exists_assemble_eq_ok hblanks hmade hroot hwell
        obtain rfl : some m = n := Except.ok.inj (hassemble.symm.trans h)
        refine ⟨fun root' hroot' => ?_, .some hm⟩
        obtain rfl : root = root' := Option.some.inj hroot'
        exact hwell
      · rintro ⟨hwell, hrel⟩
        obtain ⟨m, -, hassemble, hm, -⟩ :=
          exists_assemble_eq_ok hblanks hmade hroot (hwell root rfl)
        cases hrel with
        | some hn => rw [hassemble, hm.eq hn]

theorem load_eq_ok_iff_exists_makeAll :
    t.load d names = .ok t' ↔ ∃ made root?, makeAll names d.nodes.entries = .ok made ∧
      assemble d made = .ok root? ∧
      t' = { t with
        id := d.id.getD t.id
        title := if d.title = "" then t.title else d.title
        description := if d.description = "" then t.description else d.description
        properties := if d.properties.isEmpty then t.properties else d.properties
        root := root?
        callerNames := namesTaken names d.nodes } := by
  simp only [load, bind_eq_ok_iff, pure, Except.pure, Except.ok.injEq, String.isEmpty_iff]
  constructor
  · rintro ⟨made, hmade, root?, hroot, rfl⟩
    exact ⟨made, root?, hmade, hroot, rfl⟩
  · rintro ⟨made, root?, hmade, hroot, rfl⟩
    exact ⟨made, hmade, root?, hroot, rfl⟩

theorem load_eq_ok_iff_replaced (hblanks : d.MakesBlanks names) :
    t.load d names = .ok t' ↔ d.WellFormed names ∧ Replaced names d t t' := by
  have hmakes : (∃ made, makeAll names d.nodes.entries = .ok made) ↔
      ∀ k r, d.nodes.find? k = some r → ∃ n, names.Makes r n := by
    simp only [exists_makeAll_eq_ok_iff, Prod.forall, KeyMap.find?_eq_some_iff]
  rw [load_eq_ok_iff_exists_makeAll]
  constructor
  · rintro ⟨made, root?, hmade, hroot, rfl⟩
    obtain ⟨hwell, hrel⟩ := (assemble_eq_ok_iff hblanks hmade).1 hroot
    exact ⟨⟨hmakes.1 ⟨made, hmade⟩, hwell⟩, rfl, rfl, rfl, rfl, hrel, rfl, rfl⟩
  · rintro ⟨hwell, hreplaced⟩
    obtain ⟨made, hmade⟩ := hmakes.2 hwell.makes
    have hroot := (assemble_eq_ok_iff hblanks hmade).2 ⟨hwell.wellLinked, hreplaced.root⟩
    refine ⟨made, t'.root, hmade, hroot, ?_⟩
    obtain ⟨id, title, description, properties, -, clock, callerNames⟩ := hreplaced
    cases t'
    simp_all

theorem exists_load_eq_ok (hblanks : d.MakesBlanks names) (t : Tree σ)
    (h : d.WellFormed names) : ∃ t', t.load d names = .ok t' := by
  obtain ⟨made, hmade⟩ := exists_makeAll_eq_ok_iff.2 fun e he =>
    h.makes e.1 e.2 (KeyMap.find?_eq_some_iff.2 he)
  suffices hroot : ∃ root?, assemble d made = .ok root? by
    obtain ⟨root?, hroot⟩ := hroot
    exact ⟨_, load_eq_ok_iff_exists_makeAll.2 ⟨made, root?, hmade, hroot, rfl⟩⟩
  cases hroot : d.root with
  | none => exact ⟨none, by simp [assemble, hroot]⟩
  | some root =>
      obtain ⟨n, -, hassemble, -⟩ :=
        exists_assemble_eq_ok hblanks hmade hroot (h.wellLinked root hroot)
      exact ⟨some n, hassemble⟩

/-- Loading succeeds exactly on well-formed records, and gives exactly the tree that such a record
describes. -/
theorem load_unfolds_iff_wellFormed (hnames : names.MakesBlanks) (t : Tree σ) (d : TreeRecord) :
    ((∃ t', t.load d names = .ok t') ↔ d.WellFormed names) ∧
      ∀ t', t.load d names = .ok t' ↔ d.WellFormed names ∧ Replaced names d t t' := by
  have hblanks := hnames.ofRecord d
  refine ⟨⟨?_, exists_load_eq_ok hblanks t⟩, fun t' => load_eq_ok_iff_replaced hblanks⟩
  rintro ⟨t', h⟩
  exact ((load_eq_ok_iff_replaced hblanks).1 h).1

/-! ## A record with a node of the caller's own -/

def steadyLeaf : Node Unit :=
  .ofLeaf (.custom { name := "Steady", tick := fun scene => (.success, scene.unchanged) })

def steadyNames : Catalog Unit := .ofList [("Steady", fun _ => .ok steadyLeaf)]

theorem find?_steadyNames {name : String} {factory : Factory Unit}
    (h : steadyNames.find? name = some factory) :
    name = "Steady" ∧ factory = fun _ => .ok steadyLeaf := by
  simp only [steadyNames, KeyMap.ofList, KeyMap.insertAll, List.foldl, KeyMap.find?_insert,
    KeyMap.find?_empty, Option.ite_none_right_eq_some, Option.some.injEq] at h
  exact ⟨h.1, h.2.symm⟩

theorem steadyNames_makesBlanks : steadyNames.MakesBlanks := by
  intro name factory p n hfactory hn
  obtain ⟨-, rfl⟩ := find?_steadyNames hfactory
  obtain rfl := Except.ok.inj hn
  exact Node.blank_ofLeaf _

def emptyTree : Tree Unit := { id := "t", clock := .showing fun _ => 0 }

/-- A sequence of two. -/
def pairRecord (first second : NodeRecord) : TreeRecord where
  root := some "s"
  nodes := .ofList [("s", { name := "Sequence", children := some ["a", "b"] }), ("a", first),
    ("b", second)]

def steadyPair : TreeRecord := pairRecord { name := "Steady" } { name := "Runner", id := some "c" }

/-- Both the sequence and its second child refer to the first. -/
def sharingPair : TreeRecord :=
  pairRecord { name := "Steady" } { name := "Inverter", child := some "a" }

theorem load_unfolds_iff_wellFormed_pair :
    steadyPair.WellFormed steadyNames ∧ ¬sharingPair.WellFormed steadyNames ∧
      ∃ t', emptyTree.load steadyPair steadyNames = .ok t' ∧
        Replaced steadyNames steadyPair emptyTree t' ∧
        t'.root.map Node.ids = some ["s", "a", "c"] := by
  obtain ⟨hiff, hload⟩ := load_unfolds_iff_wellFormed steadyNames_makesBlanks emptyTree steadyPair
  obtain ⟨hiff', -⟩ := load_unfolds_iff_wellFormed steadyNames_makesBlanks emptyTree sharingPair
  obtain ⟨t', ht', hids⟩ : ∃ t', emptyTree.load steadyPair steadyNames = .ok t' ∧
      t'.root.map Node.ids = some ["s", "a", "c"] := ⟨_, rfl, by decide⟩
  refine ⟨hiff.1 ⟨t', ht'⟩, fun hwell => ?_, t', ht', ((hload t').1 ht').2, hids⟩
  obtain ⟨t'', ht''⟩ := hiff'.2 hwell
  cases ht''

end Tree
end BehaviorTrees
