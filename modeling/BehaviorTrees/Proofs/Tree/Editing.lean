import BehaviorTrees.Tree.Load

/-!
# Trees that are edited

A tree is made with or without a root, and edited after that: what is said of it, its root and its
clock are set, or a record is loaded into it.  Of all this, the names that come from a caller's
catalog remember the last loading that succeeded, and nothing else.
-/

namespace BehaviorTrees

variable {σ : Type}

/-- What can be done to a tree between its ticks. -/
inductive Edit (σ : Type) where
  | setTitle (title : String)
  | setDescription (description : String)
  | setProperties (properties : Properties)
  | setRoot (root : Option (Node σ))
  | setClock (clock : Clock σ)
  | load (r : TreeRecord) (names : Catalog σ)
  | loadText (text : String) (names : Catalog σ)

namespace Tree

/-- A loading that fails leaves the tree as it was. -/
def edit (t : Tree σ) : Edit σ → Tree σ
  | .setTitle title => { t with title }
  | .setDescription description => { t with description }
  | .setProperties properties => { t with properties }
  | .setRoot root => { t with root }
  | .setClock clock => { t with clock }
  | .load r names => (t.load r names).toOption.getD t
  | .loadText text names => (t.loadText text names).toOption.getD t

/-- The record an edit puts into a tree, with the catalog it was loaded with. -/
def loaded? (t : Tree σ) : Edit σ → Option (TreeRecord × Catalog σ)
  | .load r names => if (t.load r names).toOption.isSome then some (r, names) else none
  | .loadText text names =>
      match TreeRecord.ofText? text with
      | some r => if (t.load r names).toOption.isSome then some (r, names) else none
      | none => none
  | _ => none

def editAll (t : Tree σ) (edits : List (Edit σ)) : Tree σ := edits.foldl edit t

/-- The last loading that succeeded. -/
def lastLoaded? (t : Tree σ) : List (Edit σ) → Option (TreeRecord × Catalog σ)
  | [] => none
  | x :: later => ((t.edit x).lastLoaded? later).or (t.loaded? x)

/-- The names a loading takes from the caller's catalog; those of the tree when there was none. -/
def namesAfter (t : Tree σ) : Option (TreeRecord × Catalog σ) → List String
  | some (r, names) => namesTaken names r.nodes
  | none => t.callerNames

variable {t t' : Tree σ} {r : TreeRecord} {names : Catalog σ} {name : String}

theorem mem_namesTaken {nodes : KeyMap NodeRecord} :
    name ∈ namesTaken names nodes ↔
      names.contains name = true ∧ ∃ e ∈ nodes.entries, e.2.name = name := by
  simp only [namesTaken, List.mem_filterMap, Option.ite_none_right_eq_some, Option.some.injEq]
  constructor
  · rintro ⟨e, he, hcontains, rfl⟩
    exact ⟨hcontains, e, he, rfl⟩
  · rintro ⟨hcontains, e, he, rfl⟩
    exact ⟨e, he, hcontains, rfl⟩

theorem mem_namesAfter {last : Option (TreeRecord × Catalog σ)} (hnew : t.callerNames = []) :
    name ∈ t.namesAfter last ↔ ∃ r names, last = some (r, names) ∧
      names.contains name = true ∧ ∃ e ∈ r.nodes.entries, e.2.name = name := by
  rcases last with _ | ⟨r, names⟩
  · simp [namesAfter, hnew]
  · change name ∈ namesTaken names r.nodes ↔ _
    rw [mem_namesTaken]
    constructor
    · rintro ⟨hcontains, he⟩
      exact ⟨r, names, rfl, hcontains, he⟩
    · rintro ⟨r', names', hlast, hcontains, he⟩
      cases hlast
      exact ⟨hcontains, he⟩

theorem callerNames_of_load (h : t.load r names = .ok t') :
    t'.callerNames = namesTaken names r.nodes := by
  simp only [load, bind, Except.bind] at h
  split at h
  · cases h
  · split at h
    · cases h
    · cases h
      rfl

theorem callerNames_load :
    ((t.load r names).toOption.getD t).callerNames =
      t.namesAfter (if (t.load r names).toOption.isSome then some (r, names) else none) := by
  cases h : t.load r names with
  | error fault => rfl
  | ok t' => exact callerNames_of_load h

theorem callerNames_edit (t : Tree σ) (x : Edit σ) :
    (t.edit x).callerNames = t.namesAfter (t.loaded? x) := by
  cases x with
  | load r names => exact callerNames_load
  | loadText text names =>
      rw [edit, loadText, loaded?]
      cases TreeRecord.ofText? text with
      | none => rfl
      | some r => exact callerNames_load
  | _ => rfl

theorem callerNames_editAll (t : Tree σ) (edits : List (Edit σ)) :
    (t.editAll edits).callerNames = t.namesAfter (t.lastLoaded? edits) := by
  induction edits generalizing t with
  | nil => rfl
  | cons x later ih =>
      rw [editAll, List.foldl_cons, ← editAll, ih, lastLoaded?]
      cases (t.edit x).lastLoaded? later with
      | some last => rfl
      | none => exact callerNames_edit t x

end Tree
end BehaviorTrees
