import BehaviorTrees.Json.Document
import BehaviorTrees.Proofs.KeyMap

/-!
# The value of a document

`Json.Each` says something of a value and of all that lies in it.  Objects that are read are in
key order.  A value whose objects all are is the value of its own document, where there is room
for its depth.
-/

namespace BehaviorTrees

namespace Json

/-! ## Values and their parts -/

/-- What lies directly in a value. -/
def parts : Json → List Json
  | .array items => items
  | .object fields => fields.map (·.2)
  | _ => []

inductive Each (P : Json → Prop) : Json → Prop where
  | intro {v : Json} (self : P v) (inner : ∀ x ∈ v.parts, Each P x) : Each P v

variable {P : Json → Prop} {items : List Json} {fields : List (String × Json)} {n : Nat}

theorem Each.self {v : Json} : v.Each P → P v
  | intro h _ => h

theorem Each.inner {v : Json} : v.Each P → ∀ x ∈ v.parts, x.Each P
  | intro _ h => h

theorem each_iff_self {v : Json} (h : v.parts = []) : v.Each P ↔ P v :=
  ⟨Each.self, fun hv => .intro hv (by simp [h])⟩

theorem each_array_iff : (array items).Each P ↔ P (.array items) ∧ ∀ v ∈ items, v.Each P :=
  ⟨fun h => ⟨h.self, h.inner⟩, fun h => .intro h.1 h.2⟩

theorem each_object_iff :
    (object fields).Each P ↔ P (.object fields) ∧ ∀ e ∈ fields, e.2.Each P := by
  refine ⟨fun h => ⟨h.self, fun e he => h.inner _ (List.mem_map_of_mem he)⟩, fun h => ?_⟩
  refine .intro h.1 fun x hx => ?_
  obtain ⟨e, he, rfl⟩ := List.mem_map.1 hx
  exact h.2 e he

section Decidable

variable [DecidablePred P]

mutual

def decidableEach : (v : Json) → Decidable (v.Each P)
  | .null | .bool _ | .number _ | .string _ => decidable_of_iff _ (each_iff_self rfl).symm
  | .array items =>
      have := decidableItems items
      decidable_of_iff _ each_array_iff.symm
  | .object fields =>
      have := decidableFields fields
      decidable_of_iff _ each_object_iff.symm

def decidableItems : (items : List Json) → Decidable (∀ v ∈ items, v.Each P)
  | [] => isTrue (List.forall_mem_nil _)
  | v :: rest =>
      have := decidableEach v
      have := decidableItems rest
      decidable_of_iff _ List.forall_mem_cons.symm

def decidableFields :
    (fields : List (String × Json)) → Decidable (∀ e ∈ fields, e.2.Each P)
  | [] => isTrue (List.forall_mem_nil _)
  | (_, v) :: rest =>
      have := decidableEach v
      have := decidableFields rest
      decidable_of_iff _ List.forall_mem_cons.symm

end

instance : DecidablePred (Each P) := decidableEach

end Decidable

/-- The fields of an object stand in key order, each key once. -/
def Ordered : Json → Prop
  | .object fields => Entries.Ordered fields
  | _ => True

instance : DecidablePred Ordered
  | .object fields => inferInstanceAs (Decidable (Entries.Ordered fields))
  | .null | .bool _ | .number _ | .string _ | .array _ => inferInstanceAs (Decidable True)

theorem depthItems_le_iff : depthItems items ≤ n ↔ ∀ v ∈ items, v.depth ≤ n := by
  induction items with
  | nil => simp [depthItems]
  | cons v rest ih => simp [depthItems, ih]

theorem depthFields_le_iff : depthFields fields ≤ n ↔ ∀ e ∈ fields, e.2.depth ≤ n := by
  induction fields with
  | nil => simp [depthFields]
  | cons e rest ih => simp [depthFields, ih]

theorem depth_array_le_iff : (array items).depth ≤ n + 1 ↔ ∀ v ∈ items, v.depth ≤ n := by
  rw [depth, Nat.add_comm, Nat.add_le_add_iff_right, depthItems_le_iff]

theorem depth_object_le_iff : (object fields).depth ≤ n + 1 ↔ ∀ e ∈ fields, e.2.depth ≤ n := by
  rw [depth, Nat.add_comm, Nat.add_le_add_iff_right, depthFields_le_iff]

/-- There is no room for a container where nothing may be nested. -/
theorem exists_room_of_depth_array_le {room : Nat} (h : (array items).depth ≤ room) :
    ∃ inner, room = inner + 1 ∧ ∀ v ∈ items, v.depth ≤ inner := by
  obtain ⟨inner, rfl⟩ : ∃ inner, room = inner + 1 := ⟨room - 1, by rw [depth] at h; omega⟩
  exact ⟨inner, rfl, depth_array_le_iff.1 h⟩

theorem exists_room_of_depth_object_le {room : Nat} (h : (object fields).depth ≤ room) :
    ∃ inner, room = inner + 1 ∧ ∀ e ∈ fields, e.2.depth ≤ inner := by
  obtain ⟨inner, rfl⟩ : ∃ inner, room = inner + 1 := ⟨room - 1, by rw [depth] at h; omega⟩
  exact ⟨inner, rfl, depth_object_le_iff.1 h⟩

theorem documents_eq_map : documents items = items.map document := by
  induction items with
  | nil => rfl
  | cons v rest ih => rw [documents, ih, List.map_cons]

theorem members_eq_map : members fields = fields.map fun e => (some e.1, e.2.document) := by
  induction fields with
  | nil => rfl
  | cons e rest ih => rw [members, ih, List.map_cons]

end Json

/-! ## Reading a value -/

namespace Document

open Json

variable {room : Nat}

theorem values?_documents {items : List Json}
    (h : ∀ v ∈ items, value? room v.document = some v) :
    values? room (documents items) = some items := by
  induction items with
  | nil => rfl
  | cons v rest ih =>
      obtain ⟨hv, hrest⟩ := List.forall_mem_cons.1 h
      simp [documents, values?, hv, ih hrest]

/-- Fields in key order are put behind the fields that were found before them. -/
theorem fields?_members {fields found : List (String × Json)}
    (h : ∀ e ∈ fields, value? room e.2.document = some e.2)
    (hordered : Entries.Ordered (found ++ fields)) :
    fields? room (members fields) found = some (found ++ fields) := by
  induction fields generalizing found with
  | nil => simp [members, fields?]
  | cons e rest ih =>
      obtain ⟨he, hrest⟩ := List.forall_mem_cons.1 h
      have hlast : Entries.insert e.1 e.2 found = found ++ [e] := by
        apply Entries.insert_eq_append
        intro d hd
        exact (List.pairwise_append.1 hordered).2.2 d hd e List.mem_cons_self
      have happend : found ++ e :: rest = (found ++ [e]) ++ rest := by simp
      rw [happend] at hordered ⊢
      simp [members, fields?, he, hlast, ih hrest hordered]

/-- A value is what its document says. -/
theorem value?_document {v : Json} (h : v.Each Ordered) (hroom : v.depth ≤ room) :
    v.document.value? room = some v := by
  induction h generalizing room with
  | @intro v hv _ ih =>
      cases v with
      | array items =>
          obtain ⟨inner, rfl, hdepth⟩ := exists_room_of_depth_array_le hroom
          have hitems : values? inner (documents items) = some items :=
            values?_documents fun v hmem => ih v hmem (hdepth v hmem)
          simp [document, value?, hitems]
      | object fields =>
          obtain ⟨inner, rfl, hdepth⟩ := exists_room_of_depth_object_le hroom
          have hfields : fields? inner (members fields) [] = some ([] ++ fields) :=
            fields?_members (fun e hmem => ih e.2 (List.mem_map_of_mem hmem) (hdepth e hmem)) hv
          simp [document, value?, hfields]
      | _ => simp [document, value?]

theorem each_of_values? {docs : List Document} {vs : List Json} {P : Json → Prop}
    (hdocs : ∀ d ∈ docs, ∀ v, value? room d = some v → P v) (h : values? room docs = some vs) :
    ∀ v ∈ vs, P v := by
  induction docs generalizing vs with
  | nil =>
      obtain rfl : [] = vs := by simpa [values?] using h
      simp
  | cons d rest ih =>
      obtain ⟨hd, hrest⟩ := List.forall_mem_cons.1 hdocs
      simp only [values?, Option.bind_eq_bind, Option.bind_eq_some_iff, Option.pure_def,
        Option.some.injEq] at h
      obtain ⟨v, hv, ws, hws, rfl⟩ := h
      exact List.forall_mem_cons.2 ⟨hd v hv, ih hrest hws⟩

theorem each_of_fields? {docs : List (Option String × Document)}
    {found fields : List (String × Json)} {P : Json → Prop}
    (hdocs : ∀ d ∈ docs, ∀ v, value? room d.2 = some v → P v)
    (hfound : Entries.Ordered found ∧ ∀ e ∈ found, P e.2)
    (h : fields? room docs found = some fields) :
    Entries.Ordered fields ∧ ∀ e ∈ fields, P e.2 := by
  induction docs generalizing found with
  | nil =>
      obtain rfl : found = fields := by simpa [fields?] using h
      exact hfound
  | cons d rest ih =>
      obtain ⟨hd, hrest⟩ := List.forall_mem_cons.1 hdocs
      simp only [fields?, Option.bind_eq_bind, Option.bind_eq_some_iff] at h
      obtain ⟨k, -, v, hv, hfields⟩ := h
      refine ih hrest ⟨hfound.1.insert k v, fun e he => ?_⟩ hfields
      rcases Entries.mem_insert he with rfl | he
      · exact hd v hv
      · exact hfound.2 e he

/-- Whatever is read has all its objects in key order. -/
theorem each_ordered_of_value? :
    ∀ {room : Nat} {d : Document} {v : Json}, d.value? room = some v → v.Each Ordered
  | _, .null, _, h | _, .bool _, _, h => by
      obtain rfl := by simpa [value?] using h
      exact (each_iff_self rfl).2 trivial
  | _, .number _, _, h | _, .string _, _, h => by
      obtain ⟨_, -, rfl⟩ := by simpa [value?] using h
      exact (each_iff_self rfl).2 trivial
  | 0, .array _, _, h | 0, .object _, _, h => by simp [value?] at h
  | room + 1, .array _, _, h => by
      obtain ⟨vs, hvs, rfl⟩ := by simpa [value?] using h
      exact .intro trivial (each_of_values? (fun _ _ _ hv => each_ordered_of_value? hv) hvs)
  | room + 1, .object _, _, h => by
      obtain ⟨fields, hfields, rfl⟩ := by simpa [value?] using h
      exact each_object_iff.2
        (each_of_fields? (fun _ _ _ hv => each_ordered_of_value? hv) ⟨.nil, by simp⟩ hfields)

end Document
end BehaviorTrees
