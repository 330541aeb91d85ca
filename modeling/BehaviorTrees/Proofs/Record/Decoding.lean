import BehaviorTrees.Proofs.Record.Decoder
import BehaviorTrees.Record

/-!
# Records are read as they are written

Each kind of record has its field values in the order of its fields; null stands for what is
absent.  Bags may hold any values whose objects are in key order.
-/

namespace BehaviorTrees

open Decoder Json

/-! ## What is written -/

theorem Json.lookup_fieldIfSome {α : Type} (key name : String) (f : α → Json) (o : Option α) :
    (fieldIfSome key f o).lookup name = if name = key then o.map f else none := by
  cases o with
  | none => simp [fieldIfSome]
  | some a => simp [fieldIfSome, Entries.lookup_cons_eq]

/-- The objects in a bag are themselves in key order. -/
def Properties.Ordered (p : Properties) : Prop := (Json.ofProperties p).Each Json.Ordered

instance : DecidablePred Properties.Ordered := fun p =>
  inferInstanceAs (Decidable ((Json.ofProperties p).Each Json.Ordered))

namespace NodeRecord

def Ordered (r : NodeRecord) : Prop := r.properties.Ordered ∧ r.parameters.Ordered

instance : DecidablePred Ordered := fun r =>
  inferInstanceAs (Decidable (r.properties.Ordered ∧ r.parameters.Ordered))

def fieldValues (r : NodeRecord) : List Json :=
  [.optional .string r.id, .string r.name, .string r.title, .string r.description,
    .ofProperties r.properties, .ofProperties r.parameters, .optional .ofStrings r.children,
    .optional .string r.child]

end NodeRecord

def TypeRecord.fieldValues (r : TypeRecord) : List Json :=
  [.string r.name, .string r.title, .string r.category.label]

namespace TreeRecord

def Ordered (r : TreeRecord) : Prop :=
  r.properties.Ordered ∧ ∀ e ∈ r.nodes.entries, e.2.Ordered

instance : DecidablePred Ordered := fun r =>
  inferInstanceAs (Decidable (r.properties.Ordered ∧ ∀ e ∈ r.nodes.entries, e.2.Ordered))

def fieldValues (r : TreeRecord) : List Json :=
  [.optional .string r.id, .string r.title, .string r.description, .ofProperties r.properties,
    .optional .string r.root, .object r.nodeFields, .array (r.customNodes.map (·.json))]

end TreeRecord

def Event.fieldValues (e : Event) : List Json :=
  [.string e.tree, .string e.node, .string e.name, .string e.phase.label,
    .optional (.string ·.label) e.status]

/-! ## What is read -/

theorem Status.reads_label (s : Status) : Status.decode.Reads (.string s.label) s :=
  reads_choice (by cases s <;> decide)

theorem Category.reads_label (c : Category) : Category.decode.Reads (.string c.label) c :=
  reads_choice (by cases c <;> decide)

theorem Phase.reads_label (p : Phase) : Phase.decode.Reads (.string p.label) p :=
  reads_choice (by cases p <;> decide)

theorem Json.eq_none_of_optional_eq_null {α : Type} {f : α → Json} {o : Option α}
    (hf : ∀ a, f a ≠ .null) (h : Json.optional f o = .null) : o = none := by
  cases o with
  | none => rfl
  | some a => exact absurd h (hf a)

theorem reads_optional_text (o : Option String) :
    (Decoder.optional .text).Reads (.optional .string o) o :=
  reads_optional fun s _ => ⟨reads_text s, nofun⟩

theorem reads_texts (ss : List String) : (Decoder.list .text).Reads (.ofStrings ss) ss :=
  reads_list fun s _ => reads_text s

namespace NodeRecord

theorem reads_fields {r : NodeRecord} (h : r.Ordered) : ReadsFields read r.fieldValues r := by
  intro room f hgive
  have hgiven := hgive.given
  rw [read]
  generalize f.found = found at hgiven ⊢
  rcases hgiven with _ | ⟨hid, _ | ⟨hname, _ | ⟨htitle, _ | ⟨hdescription, _ | ⟨hproperties,
    _ | ⟨hparameters, _ | ⟨hchildren, _ | ⟨hchild, _ | _⟩⟩⟩⟩⟩⟩⟩⟩
  simp only [withDefault_eq_some hid (reads_optional_text r.id) (eq_none_of_optional_eq_null nofun),
    required_eq_some hname (reads_text r.name) nofun,
    withDefault_eq_some htitle (reads_text r.title) nofun,
    withDefault_eq_some hdescription (reads_text r.description) nofun,
    withDefault_eq_some hproperties (reads_properties h.1) nofun,
    withDefault_eq_some hparameters (reads_properties h.2) nofun,
    withDefault_eq_some hchildren (reads_optional fun ss _ => ⟨reads_texts ss, nofun⟩)
      (eq_none_of_optional_eq_null nofun),
    withDefault_eq_some hchild (reads_optional_text r.child) (eq_none_of_optional_eq_null nofun),
    Option.bind_eq_bind, Option.bind_some, Option.pure_def]

theorem json_supplies (r : NodeRecord) :
    ∃ fields, r.json = .object fields ∧ (fields.map Prod.fst).Nodup ∧
      List.Forall₂ (Supplied fields) fieldNames r.fieldValues := by
  refine ⟨_, rfl, ?_, ?_⟩
  · cases r.id <;> cases r.children <;> cases r.child <;> simp [fieldIfSome]
  · refine .cons (supplied_optional ?_) (.cons (.inl ?_) (.cons (.inl ?_) (.cons (.inl ?_)
      (.cons (.inl ?_) (.cons (.inl ?_) (.cons (supplied_optional ?_)
        (.cons (supplied_optional ?_) .nil)))))))
    all_goals simp [List.lookup_append, lookup_fieldIfSome, Entries.lookup_cons_eq]

theorem reads_json {r : NodeRecord} (h : r.Ordered) : decode.Reads r.json r := by
  obtain ⟨fields, hjson, hnodup, hfields⟩ := r.json_supplies
  rw [hjson]
  exact (reads_fields h).reads_object hnodup hfields

end NodeRecord

namespace TypeRecord

theorem reads_fields (r : TypeRecord) : ReadsFields read r.fieldValues r := by
  intro room f hgive
  have hgiven := hgive.given
  rw [read]
  generalize f.found = found at hgiven ⊢
  rcases hgiven with _ | ⟨hname, _ | ⟨htitle, _ | ⟨hcategory, _ | _⟩⟩⟩
  simp only [required_eq_some hname (reads_text r.name) nofun,
    withDefault_eq_some htitle (reads_text r.title) nofun,
    required_eq_some hcategory (Category.reads_label r.category) nofun,
    Option.bind_eq_bind, Option.bind_some, Option.pure_def]

theorem json_supplies (r : TypeRecord) :
    ∃ fields, r.json = .object fields ∧ (fields.map Prod.fst).Nodup ∧
      List.Forall₂ (Supplied fields) fieldNames r.fieldValues := by
  refine ⟨_, rfl, by simp, .cons (.inl ?_) (.cons (.inl ?_) (.cons (.inl ?_) .nil))⟩
  all_goals simp [Entries.lookup_cons_eq]

theorem reads_json (r : TypeRecord) : decode.Reads r.json r := by
  obtain ⟨fields, hjson, hnodup, hfields⟩ := r.json_supplies
  rw [hjson]
  exact r.reads_fields.reads_object hnodup hfields

end TypeRecord

namespace TreeRecord

theorem reads_nodes {r : TreeRecord} (h : r.Ordered) :
    (Decoder.keyMap NodeRecord.decode).Reads (.object r.nodeFields) r.nodes :=
  reads_keyMap fun e he => NodeRecord.reads_json (h.2 e he)

theorem reads_types (types : List TypeRecord) :
    (Decoder.list TypeRecord.decode).Reads (.array (types.map (·.json))) types :=
  reads_list fun r _ => r.reads_json

theorem reads_fields {r : TreeRecord} (h : r.Ordered) : ReadsFields read r.fieldValues r := by
  intro room f hgive
  have hgiven := hgive.given
  rw [read]
  generalize f.found = found at hgiven ⊢
  rcases hgiven with _ | ⟨hid, _ | ⟨htitle, _ | ⟨hdescription, _ | ⟨hproperties, _ | ⟨hroot,
    _ | ⟨hnodes, _ | ⟨htypes, _ | _⟩⟩⟩⟩⟩⟩⟩
  simp only [withDefault_eq_some hid (reads_optional_text r.id) (eq_none_of_optional_eq_null nofun),
    withDefault_eq_some htitle (reads_text r.title) nofun,
    withDefault_eq_some hdescription (reads_text r.description) nofun,
    withDefault_eq_some hproperties (reads_properties h.1) nofun,
    withDefault_eq_some hroot (reads_optional_text r.root) (eq_none_of_optional_eq_null nofun),
    withDefault_eq_some hnodes (reads_nodes h) nofun,
    withDefault_eq_some htypes (reads_types r.customNodes) nofun,
    Option.bind_eq_bind, Option.bind_some, Option.pure_def]

theorem json_supplies (r : TreeRecord) :
    ∃ fields, r.json = .object fields ∧ (fields.map Prod.fst).Nodup ∧
      List.Forall₂ (Supplied fields) fieldNames r.fieldValues := by
  refine ⟨_, rfl, ?_, ?_⟩
  · cases r.id <;> simp [fieldIfSome]
  · refine .cons (supplied_optional ?_) (.cons (.inl ?_) (.cons (.inl ?_) (.cons (.inl ?_)
      (.cons (.inl ?_) (.cons (.inl ?_) (.cons (.inl ?_) .nil))))))
    all_goals simp [List.lookup_append, lookup_fieldIfSome, Entries.lookup_cons_eq]

theorem reads_json {r : TreeRecord} (h : r.Ordered) : decode.Reads r.json r := by
  obtain ⟨fields, hjson, hnodup, hfields⟩ := r.json_supplies
  rw [hjson]
  exact (reads_fields h).reads_object hnodup hfields

end TreeRecord

namespace Event

theorem reads_fields (e : Event) : ReadsFields read e.fieldValues e := by
  intro room f hgive
  have hgiven := hgive.given
  have hnamed := hgive.named_of_none_mem
  rw [read]
  generalize f.found = found at hgiven hnamed ⊢
  rcases hgiven with _ | ⟨htree, _ | ⟨hnode, _ | ⟨hname, _ | ⟨hphase, _ | ⟨hstatus, _ | _⟩⟩⟩⟩⟩
  simp only [required_eq_some htree (reads_text e.tree) nofun,
    required_eq_some hnode (reads_text e.node) nofun,
    required_eq_some hname (reads_text e.name) nofun,
    required_eq_some hphase (Phase.reads_label e.phase) nofun,
    omittable_eq_some hstatus (reads_optional fun s _ => ⟨s.reads_label, nofun⟩)
      (eq_none_of_optional_eq_null nofun) fun hnone => hnamed (by simp [hnone]),
    Option.bind_eq_bind, Option.bind_some, Option.pure_def]

theorem json_supplies (e : Event) :
    ∃ fields, e.json = .object fields ∧ (fields.map Prod.fst).Nodup ∧
      List.Forall₂ (Supplied fields) fieldNames e.fieldValues := by
  refine ⟨_, rfl, by simp, .cons (.inl ?_) (.cons (.inl ?_) (.cons (.inl ?_) (.cons (.inl ?_)
    (.cons (.inl ?_) .nil))))⟩
  all_goals simp [Entries.lookup_cons_eq]

theorem reads_json (e : Event) : decode.Reads e.json e := by
  obtain ⟨fields, hjson, hnodup, hfields⟩ := e.json_supplies
  rw [hjson]
  exact e.reads_fields.reads_object hnodup hfields

end Event

/-- Every kind of record is read as it is written, and a node without children is written
otherwise than one with an empty list of them. -/
theorem records_faithful :
    Faithful TreeRecord.fieldNames TreeRecord.decode TreeRecord.json TreeRecord.fieldValues
        TreeRecord.Ordered ∧
      Faithful NodeRecord.fieldNames NodeRecord.decode NodeRecord.json NodeRecord.fieldValues
        NodeRecord.Ordered ∧
      Faithful TypeRecord.fieldNames TypeRecord.decode TypeRecord.json TypeRecord.fieldValues
        (fun _ => True) ∧
      Faithful Event.fieldNames Event.decode Event.json Event.fieldValues (fun _ => True) ∧
      ∀ r : NodeRecord, ({ r with children := none } : NodeRecord).json ≠
        ({ r with children := some [] } : NodeRecord).json := by
  refine ⟨faithful_record (fun r _ => r.json_supplies) fun _ => TreeRecord.reads_fields,
    faithful_record (fun r _ => r.json_supplies) fun _ => NodeRecord.reads_fields,
    faithful_record (fun r _ => r.json_supplies) fun r _ => r.reads_fields,
    faithful_record (fun e _ => e.json_supplies) fun e _ => e.reads_fields, fun r heq => ?_⟩
  have hlength := congrArg (fun v : Json => (v.object?.getD []).length) heq
  simp [NodeRecord.json, fieldIfSome, object?] at hlength

/-- A tree with a nested bag, a node with no children and one without any. -/
def TreeRecord.patrol : TreeRecord where
  title := "\"Ronde\" \u00e9\n"
  properties :=
    ⟨[("limits", .object [("far", .null), ("near", .array [.ofInt (-3), .string ""])])], by decide⟩
  nodes := ⟨[("a", { name := "Sequence", children := some [] }), ("b", { name := "Wait" })],
    by decide⟩
  customNodes := [{ name := "Scout", category := .action }]

theorem TreeRecord.patrol_ordered : patrol.Ordered := by decide

theorem records_faithful_patrol :
    TreeRecord.patrol.Ordered ∧
      TreeRecord.decode.ofJson TreeRecord.patrol.json = some TreeRecord.patrol ∧
      TreeRecord.decode.ofJson (.array TreeRecord.patrol.fieldValues) = some TreeRecord.patrol :=
  ⟨TreeRecord.patrol_ordered,
    records_faithful.1.ofJson_write _ TreeRecord.patrol_ordered,
    records_faithful.1.ofJson_values _ TreeRecord.patrol_ordered⟩

end BehaviorTrees
