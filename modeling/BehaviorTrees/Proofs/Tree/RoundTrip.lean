import BehaviorTrees.Proofs.Tree.Editing
import BehaviorTrees.Proofs.Tree.Inventory
import BehaviorTrees.Proofs.Tree.Loading

/-!
# Loading a dump

A node is `Restorable` where its own properties make a node of the same type again: the library
does so if they still say how the node is configured, and a factory of the caller is to do so for
its leaves.  The dump of a tree of such nodes, with distinct ids, describes this very tree, so
loading it gives the tree back.
-/

namespace BehaviorTrees

variable {σ : Type}

/-! ## What the properties of a node say -/

namespace Properties

variable {p : Properties} {key node : String}

/-- A number under a key. -/
def SaysNatural (p : Properties) (key : String) (n : Nat) : Prop :=
  ∃ v, p.find? key = some v ∧ v.natural? = some n

/-- A signed number of 64 bits under the key of bounds. -/
def SaysBound (p : Properties) (b : Bound) : Prop :=
  ∃ v z, p.find? "maxLoop" = some v ∧ v.int? = some z ∧ -(Word.half : Int) ≤ z ∧ z < Word.half ∧
    b = .ofInt z

theorem SaysNatural.natural_eq {n fallback : Nat} (h : p.SaysNatural key n) :
    p.natural node key fallback = .ok n := by
  obtain ⟨v, hv, hn⟩ := h
  simp [natural, hv, hn]

theorem SaysNatural.isSome {n : Nat} (h : p.SaysNatural key n) : (p.find? key).isSome := by
  obtain ⟨v, hv, -⟩ := h
  simp [hv]

theorem SaysBound.boundFrom_eq {b : Bound} (h : p.SaysBound b) :
    DecoratorKind.boundFrom node p = .ok b := by
  obtain ⟨v, z, hv, hz, hlow, hhigh, rfl⟩ := h
  have hint : p.int node "maxLoop" (-1) = .ok z := by simp [int, hv, hz, hlow, hhigh]
  exact Catalog.boundFrom_eq_ok_iff.2 ⟨z, hint, rfl⟩

theorem SaysBound.isSome {b : Bound} (h : p.SaysBound b) : (p.find? "maxLoop").isSome := by
  obtain ⟨v, z, hv, -⟩ := h
  simp [hv]

end Properties

/-- The properties still say how a decorator of the library is configured; a limiter and a time
limit allow at least one run and one millisecond. -/
def DecoratorKind.WrittenIn (p : Properties) : DecoratorKind σ → Prop
  | inverter => True
  | limiter m => m ≠ 0 ∧ p.SaysNatural "maxLoop" m
  | maxTime m => m ≠ 0 ∧ p.SaysNatural "maxTime" m
  | repeater b | repeatUntilSuccess b | repeatUntilFailure b => p.SaysBound b
  | custom _ => False

/-- Of what a new label says beside its title, nothing is left when the words of a node with these
properties are laid over it. -/
structure Label.Yields (l : Label) (p : Properties) : Prop where
  description : l.description = ""
  properties : ∀ key, (l.properties.find? key).isSome → (p.find? key).isSome
  parameters : l.parameters = ∅

theorem Label.yields_title (title : String) (p : Properties) :
    Label.Yields { title } p :=
  ⟨rfl, by simp, rfl⟩

theorem Label.yields_setProperty {title key : String} {value : Json} {p : Properties}
    (h : (p.find? key).isSome) : (Label.setProperty { title } key value).Yields p := by
  refine ⟨rfl, fun key' hkey' => ?_, rfl⟩
  by_cases heq : key' = key
  · exact heq ▸ h
  · simp [Label.setProperty, KeyMap.find?_insert, heq] at hkey'

namespace Node

section

variable (n : Node σ)

@[simp] theorem record_id : n.record.id = some n.id := by cases n <;> rfl

@[simp] theorem record_name : n.record.name = n.name := by cases n <;> rfl

@[simp] theorem record_title : n.record.title = n.label.title := by cases n <;> rfl

@[simp] theorem record_description : n.record.description = n.label.description := by
  cases n <;> rfl

@[simp] theorem record_properties : n.record.properties = n.label.properties := by
  cases n <;> rfl

@[simp] theorem record_parameters : n.record.parameters = n.label.parameters := by
  cases n <;> rfl

@[simp] theorem linked_record : n.record.linked = n.kids.map id := by
  rcases n with ⟨l, k, cs⟩ | ⟨l, k, _ | c⟩ | ⟨l, k⟩
  · exact List.append_nil _
  all_goals rfl

theorem canHold_record : n.category.CanHold n.record := by
  rcases n with ⟨l, k, cs⟩ | ⟨l, k, c⟩ | ⟨l, k⟩
  · rfl
  · rfl
  · exact k.canHold_iff.2 ⟨rfl, rfl⟩

end

/-! ## Nodes that can be made again -/

/-- A leaf can be made again of its properties: one of the library by the library, and any other
by the factory the caller has for its type, so that nothing is left of the new label once the words
of the leaf are laid over it. -/
def RestorableLeaf (names : Catalog σ) (l : Label) : LeafKind σ → Prop
  | .succeeder | .failer | .erring | .runner => True
  | .wait ms => l.properties.SaysNatural "milliseconds" ms
  | k => ∃ factory blank, names.find? k.name = some factory ∧
      factory l.properties = .ok blank ∧ blank.SameKind (leaf l k) ∧
      (leaf l k).record.LaidOver l.id blank.label l

/-- A node of the library that can be made again of its properties, or a leaf that can. -/
def Restorable (names : Catalog σ) : Node σ → Prop
  | composite _ (.custom _) _ => False
  | composite _ _ _ => True
  | decorator l k _ => k.WrittenIn l.properties
  | leaf l k => RestorableLeaf names l k

/-! ## Making nodes again -/

variable {names : Catalog σ} {n blank : Node σ}

theorem laidOver_of_yields (htitle : n.label.title ≠ "")
    (h : blank.label.Yields n.label.properties) :
    n.record.LaidOver n.id blank.label n.label := by
  constructor
  case id => simp [id]
  case title => simp [htitle]
  case description => simp [h.description]
  case properties =>
    intro key
    rw [record_properties]
    cases hkey : n.label.properties.find? key with
    | some v => rfl
    | none =>
        have hnone := mt (h.properties key)
        simp_all
  case parameters => simp [h.parameters]

/-- The library makes a node of the same type of the node's properties. -/
def MadeByLibrary (n : Node σ) : Prop :=
  ∃ factory blank, Catalog.builtin? n.name = some factory ∧
    factory n.label.properties = .ok blank ∧ blank.SameKind n ∧
    blank.label.Yields n.label.properties

theorem madeByLibrary_composite {l : Label} {k : CompositeKind σ} {cs : List (Node σ)}
    (h : (composite l k cs).Restorable names) : (composite l k cs).MadeByLibrary := by
  cases k with
  | custom design => exact h.elim
  | _ => exact ⟨_, _, rfl, rfl, .composite .., Label.yields_title ..⟩

theorem madeByLibrary_of_kind {l : Label} {k : DecoratorKind σ} {c : Option (Node σ)}
    {kindFrom : Properties → Except NodeFault (DecoratorKind σ)}
    (hname : Catalog.builtin? k.name = some fun p => ofDecorator <$> kindFrom p)
    (hk : kindFrom l.properties = .ok k) (hyields : k.label.Yields l.properties) :
    (decorator l k c).MadeByLibrary :=
  ⟨_, _, hname, Catalog.map_eq_ok_iff.2 ⟨k, hk, rfl⟩, .decorator .., hyields⟩

theorem madeByLibrary_decorator {l : Label} {k : DecoratorKind σ} {c : Option (Node σ)}
    (h : k.WrittenIn l.properties) : (decorator l k c).MadeByLibrary := by
  cases k with
  | inverter => exact ⟨_, _, rfl, rfl, .decorator .., Label.yields_title ..⟩
  | limiter m =>
      obtain ⟨hpos, hsays⟩ := h
      exact madeByLibrary_of_kind rfl
        (Catalog.limiterFrom_eq_ok_iff.2 ⟨m, hsays.natural_eq, hpos, rfl⟩)
        (Label.yields_setProperty hsays.isSome)
  | maxTime m =>
      obtain ⟨hpos, hsays⟩ := h
      exact madeByLibrary_of_kind rfl
        (Catalog.maxTimeFrom_eq_ok_iff.2 ⟨m, hsays.natural_eq, hpos, rfl⟩)
        (Label.yields_setProperty hsays.isSome)
  | repeater b =>
      have hsays : l.properties.SaysBound b := h
      exact madeByLibrary_of_kind rfl
        (Catalog.repeaterFrom_eq_ok_iff.2 ⟨b, hsays.boundFrom_eq, rfl⟩)
        (Label.yields_setProperty hsays.isSome)
  | repeatUntilSuccess b =>
      have hsays : l.properties.SaysBound b := h
      exact madeByLibrary_of_kind rfl
        (Catalog.repeatUntilSuccessFrom_eq_ok_iff.2 ⟨b, hsays.boundFrom_eq, rfl⟩)
        (Label.yields_setProperty hsays.isSome)
  | repeatUntilFailure b =>
      have hsays : l.properties.SaysBound b := h
      exact madeByLibrary_of_kind rfl
        (Catalog.repeatUntilFailureFrom_eq_ok_iff.2 ⟨b, hsays.boundFrom_eq, rfl⟩)
        (Label.yields_setProperty hsays.isSome)
  | custom design => exact h.elim

theorem madeByLibrary_or_of_leaf {l : Label} {k : LeafKind σ} (h : RestorableLeaf names l k) :
    (leaf l k).MadeByLibrary ∨ ∃ factory blank, names.find? k.name = some factory ∧
      factory l.properties = .ok blank ∧ blank.SameKind (leaf l k) ∧
      (leaf l k).record.LaidOver l.id blank.label l := by
  cases k with
  | wait ms =>
      have hsays : l.properties.SaysNatural "milliseconds" ms := h
      have hk : LeafKind.waitFrom l.properties = .ok (.wait ms : LeafKind σ) :=
        Catalog.waitFrom_eq_ok_iff.2 ⟨ms, hsays.natural_eq, rfl⟩
      exact .inl ⟨_, _, rfl, Catalog.map_eq_ok_iff.2 ⟨_, hk, rfl⟩, .leaf ..,
        Label.yields_setProperty hsays.isSome⟩
  | condition name holds | runAction name act | custom design => exact .inr h
  | _ => exact .inl ⟨_, _, rfl, rfl, .leaf .., Label.yields_title ..⟩

section

variable (hnames : ∀ name, names.contains name = true → Catalog.isBuiltin name = false)

include hnames

/-- What the library makes comes from it even where the caller has names of his own. -/
theorem MadeByLibrary.makes (h : n.MadeByLibrary) :
    ∃ blank, names.Makes n.record blank ∧ blank.Blank ∧ blank.SameKind n ∧
      blank.label.Yields n.label.properties := by
  obtain ⟨factory, blank, hfactory, hblank, hkind, hyields⟩ := h
  have hbuiltin : n.name ∈ Catalog.builtinNames :=
    (Catalog.mem_builtinNames_iff (σ := σ)).2 (by simp [hfactory])
  have hnot : names.contains n.name = false := by
    by_contra hcontains
    have := hnames n.name (by simpa using hcontains)
    simp [Catalog.isBuiltin, hbuiltin] at this
  refine ⟨blank, ⟨factory, .inr ⟨?_, ?_⟩, ?_⟩, Catalog.blank_of_builtin hfactory hblank, hkind,
    hyields⟩
  · rwa [record_name]
  · rwa [record_name, Catalog.builtin_find?]
  · rwa [record_properties]

theorem Restorable.exists_makes (h : n.Restorable names) (htitle : n.label.title ≠ "") :
    ∃ blank, names.Makes n.record blank ∧ blank.Blank ∧ blank.SameKind n ∧
      n.record.LaidOver n.id blank.label n.label := by
  have hlibrary (hmade : n.MadeByLibrary) :
      ∃ blank, names.Makes n.record blank ∧ blank.Blank ∧ blank.SameKind n ∧
        n.record.LaidOver n.id blank.label n.label := by
    obtain ⟨blank, hmakes, hblank, hkind, hyields⟩ := hmade.makes hnames
    exact ⟨blank, hmakes, hblank, hkind, laidOver_of_yields htitle hyields⟩
  rcases n with ⟨l, k, cs⟩ | ⟨l, k, c⟩ | ⟨l, k⟩
  · exact hlibrary (madeByLibrary_composite h)
  · exact hlibrary (madeByLibrary_decorator h)
  · rcases madeByLibrary_or_of_leaf h with hmade | ⟨factory, blank, hfactory, hmade, hkind, hlaid⟩
    · exact hlibrary hmade
    · have hblank : blank.Blank := by
        cases hkind
        exact ⟨rfl, trivial⟩
      exact ⟨blank, ⟨factory, .inl hfactory, hmade⟩, hblank, hkind, hlaid⟩

end

end Node

namespace Tree

variable {names : Catalog σ} {d : TreeRecord} {root : Node σ} {t : Tree σ}

/-! ## Records that describe a given tree -/

/-- The record has the entries of a dump of these nodes, of which they can be made again. -/
def Restores (names : Catalog σ) (d : TreeRecord) (n : Node σ) : Prop :=
  ∀ m ∈ n.nodes, d.nodes.find? m.id = some m.record ∧
    ∃ blank, names.Makes m.record blank ∧ blank.SameKind m ∧
      m.record.LaidOver m.id blank.label m.label

theorem Restores.of_kid {n c : Node σ} (h : Restores names d n) (hc : c ∈ n.kids) :
    Restores names d c :=
  fun m hm => h m (Node.mem_nodes_of_kid hc hm)

theorem Restores.unfolds {n : Node σ} (h : Restores names d n) : Unfolds names d n.id n := by
  induction n using Node.induct with
  | step n ih =>
      obtain ⟨hr, blank, hmakes, hkind, hlaid⟩ := h n n.mem_nodes_self
      refine .node hr hmakes hkind hlaid ?_
      rw [Node.linked_record, List.forall₂_map_left_iff, List.forall₂_same]
      exact fun c hc => ih c hc (h.of_kid hc)

theorem Restores.exists_claims {n : Node σ} (h : Restores names d n) :
    ∃ c, Claims names d n.id c ∧ c.key = n.id ∧ c.links = n.kids.map Node.id := by
  obtain ⟨hr, blank, hmakes, hkind, -⟩ := h n n.mem_nodes_self
  refine ⟨⟨n.id, n.kids.map Node.id, dress n.id n.record blank⟩, ?_, rfl, rfl⟩
  refine ⟨rfl, n.record, blank, hr, hmakes, rfl, ?_, by simp, ?_⟩
  · rw [hkind.category_eq]
    exact n.canHold_record
  · intro child hchild
    rw [Node.linked_record] at hchild
    obtain ⟨c, hc, rfl⟩ := List.mem_map.1 hchild
    exact KeyMap.contains_iff.2 ⟨_, (h.of_kid hc c c.mem_nodes_self).1⟩

theorem Restores.exists_outline {n : Node σ} (h : Restores names d n) :
    ∃ cs, Outline names d [n.id] cs ∧ (cs.map Claim.key).Perm n.ids := by
  induction n using Node.induct with
  | step n ih =>
      have hkids : ∀ kids ⊆ n.kids, ∃ cs, Outline names d (kids.map Node.id) cs ∧
          (cs.map Claim.key).Perm (kids.flatMap Node.ids) := by
        intro kids hsub
        induction kids with
        | nil => exact ⟨[], .nil, .refl _⟩
        | cons c rest ihrest =>
            obtain ⟨hc, hrest⟩ := List.cons_subset.1 hsub
            obtain ⟨front, hfront, hfrontIds⟩ := ih c hc (h.of_kid hc)
            obtain ⟨back, hback, hbackIds⟩ := ihrest hrest
            refine ⟨front ++ back, hfront.append hback, ?_⟩
            rw [List.map_append, List.flatMap_cons]
            exact hfrontIds.append hbackIds
      obtain ⟨c, hc, hkey, hlinks⟩ := h.exists_claims
      obtain ⟨below, hbelow, hids⟩ := hkids n.kids (List.Subset.refl _)
      refine ⟨below ++ [c], .cons hc (hlinks ▸ hbelow) .nil, ?_⟩
      rw [List.map_append, List.map_singleton, hkey, Node.ids_eq]
      exact (List.perm_append_singleton _ _).trans (hids.cons _)

theorem Restores.wellLinked (h : Restores names d root) (hroot : root.ids.Nodup) :
    d.WellLinked names root.id := by
  obtain ⟨cs, houtline, hids⟩ := h.exists_outline
  exact houtline.wellLinked (hids.nodup_iff.2 hroot)

/-! ## Loading a dump -/

/-- A tree that its dump describes in full.  Its ids are distinct, its own title and description
and the titles of its nodes are not empty, its nodes can be made again, and no type of the library
is replaced by the caller, neither for the tree as it is nor when it is loaded. -/
structure Restorable (names : Catalog σ) (t : Tree σ) : Prop where
  title : t.title ≠ ""
  description : t.description ≠ ""
  nodup_ids : ∀ root, t.root = some root → root.ids.Nodup
  titles : ∀ root, t.root = some root → ∀ m ∈ root.nodes, m.label.title ≠ ""
  nodes : ∀ root, t.root = some root → ∀ m ∈ root.nodes, m.Restorable names
  names : ∀ name, names.contains name = true → Catalog.isBuiltin name = false
  callerNames : ∀ name ∈ t.callerNames, Catalog.isBuiltin name = false

theorem Restorable.restores (h : t.Restorable names) (ht : t.root = some root) :
    Restores names t.dump root := by
  intro m hm
  obtain ⟨blank, hmakes, -, hkind, hlaid⟩ :=
    (h.nodes root ht m hm).exists_makes h.names (h.titles root ht m hm)
  exact ⟨find?_nodes_dump (h.nodup_ids root ht) ht hm, blank, hmakes, hkind, hlaid⟩

/-- Any tree can take over what the dump says. -/
theorem Restorable.load_dump (h : t.Restorable names) (u : Tree σ) :
    u.load t.dump names = .ok { u with
      title := t.title
      description := t.description
      properties := if t.properties.isEmpty then u.properties else t.properties
      root := t.root
      callerNames := namesTaken names t.dump.nodes } := by
  have hmakes : ∀ k r, t.dump.nodes.find? k = some r →
      ∃ blank, names.Makes r blank ∧ blank.Blank := by
    intro k r hr
    obtain ⟨root, ht, m, hm, -, rfl⟩ := exists_node_of_find?_dump hr
    obtain ⟨blank, hmakes, hblank, -⟩ :=
      (h.nodes root ht m hm).exists_makes h.names (h.titles root ht m hm)
    exact ⟨blank, hmakes, hblank⟩
  have hblanks : t.dump.MakesBlanks names := by
    intro k r n hr hn
    obtain ⟨blank, hblank, hempty⟩ := hmakes k r hr
    rwa [hn.eq hblank]
  refine (load_eq_ok_iff_replaced hblanks).2 ⟨⟨?_, ?_⟩, ?_⟩
  · intro k r hr
    obtain ⟨blank, hblank, -⟩ := hmakes k r hr
    exact ⟨blank, hblank⟩
  · intro key hkey
    obtain ⟨root, ht, rfl⟩ := Option.map_eq_some_iff.1 hkey
    exact (h.restores ht).wellLinked (h.nodup_ids root ht)
  · constructor
    case id => rfl
    case title => simp [dump, h.title]
    case description => simp [dump, h.description]
    case properties => rfl
    case root =>
      cases ht : t.root with
      | none => simp [dump, ht]
      | some root => simpa [dump, ht] using Option.Rel.some (h.restores ht).unfolds
    case clock => rfl
    case callerNames => rfl

theorem Restorable.ofRecord_dump (h : t.Restorable names) (id : TreeId) :
    ofRecord id t.clock t.dump names =
      .ok { t with id, callerNames := namesTaken names t.dump.nodes } := by
  have hproperties : (if t.properties.isEmpty then ∅ else t.properties) = t.properties := by
    split
    · rename_i hempty
      exact (KeyMap.eq_empty_of_isEmpty hempty).symm
    · rfl
  rw [ofRecord, h.load_dump]
  simp only [hproperties]

/-! ## Dumping again -/

theorem isCustom_eq {callerNames : List String}
    (h : ∀ name ∈ callerNames, Catalog.isBuiltin name = false) (name : String) :
    isCustom callerNames name = !Catalog.isBuiltin name := by
  rw [isCustom]
  by_cases hmem : name ∈ callerNames
  · simp [h name hmem]
  · simp [hmem]

theorem addTree_eq_of_forall_builtin {names names' : List String}
    (h : ∀ name ∈ names, Catalog.isBuiltin name = false)
    (h' : ∀ name ∈ names', Catalog.isBuiltin name = false) (n : Node σ) (v : Inventory) :
    Inventory.addTree names n v = Inventory.addTree names' n v := by
  have hadd : ∀ (m : Node σ) (v : Inventory), Inventory.add names m v = Inventory.add names' m v := by
    intro m v
    simp only [Inventory.add, isCustom_eq h, isCustom_eq h']
  simp only [Inventory.addTree_eq_foldl, hadd]

theorem dump_eq_of_forall_builtin {callerNames : List String}
    (h : ∀ name ∈ callerNames, Catalog.isBuiltin name = false)
    (ht : ∀ name ∈ t.callerNames, Catalog.isBuiltin name = false) (id : TreeId) :
    dump { t with id, callerNames } = t.dump := by
  cases hroot : t.root with
  | none => simp [dump, inventory, hroot]
  | some root => simp only [dump, inventory, hroot, addTree_eq_of_forall_builtin h ht root]

theorem Restorable.dump_eq (h : t.Restorable names) (id : TreeId) :
    dump { t with id, callerNames := namesTaken names t.dump.nodes } = t.dump :=
  dump_eq_of_forall_builtin (fun name hname => h.names name (mem_namesTaken.1 hname).1)
    h.callerNames id

end Tree
end BehaviorTrees
