import BehaviorTrees.Proofs.Json.Document
import BehaviorTrees.Record.Decoder

/-!
# What a decoder makes of a value

A decoder `Reads` a value as something where it finds this in the value's document, given room
for its depth.  A record is read as soon as each of its fields is, in whichever of the two layouts,
and what an object holds besides its fields or in which order makes no difference.
-/

namespace BehaviorTrees.Decoder

open Json

variable {α β : Type} {d : Decoder α} {v : Json} {a : α} {room : Nat}

def Reads (d : Decoder α) (v : Json) (a : α) : Prop :=
  ∀ ⦃room : Nat⦄, v.depth ≤ room → d room v.document = some a

theorem Reads.ofJson_eq (h : d.Reads v a) : d.ofJson v = some a := h le_rfl

/-! ## Parts of a record -/

theorem reads_text (s : String) : text.Reads (.string s) s := fun _ _ => rfl

theorem reads_json (h : v.Each Ordered) : json.Reads v v := fun _ => Document.value?_document h

theorem optional_eq_map {doc : Document} (h : doc ≠ .null) :
    optional d room doc = (d room doc).map some := by
  cases doc with
  | null => exact absurd rfl h
  | _ => rfl

theorem document_ne_null (h : v ≠ .null) : v.document ≠ .null := by
  cases v <;> simp [document] at h ⊢

theorem reads_optional {f : α → Json} {o : Option α}
    (h : ∀ a ∈ o, d.Reads (f a) a ∧ f a ≠ .null) : (optional d).Reads (.optional f o) o := by
  intro room hroom
  cases o with
  | none => rfl
  | some a =>
      obtain ⟨hread, hnull⟩ := h a rfl
      have hdoc : d room (f a).document = some a := hread hroom
      rw [Json.optional, optional_eq_map (document_ne_null hnull), hdoc, Option.map_some]

theorem mapM_map_eq_some {f : α → β} {g : β → Option α} {as : List α}
    (h : ∀ a ∈ as, g (f a) = some a) : (as.map f).mapM g = some as := by
  induction as with
  | nil => rfl
  | cons a rest ih =>
      obtain ⟨ha, hrest⟩ := List.forall_mem_cons.1 h
      rw [List.map_cons, List.mapM_cons, ha, ih hrest]
      rfl

theorem mapM_congr {f g : β → Option α} {bs : List β} (h : ∀ b ∈ bs, f b = g b) :
    bs.mapM f = bs.mapM g := by
  induction bs with
  | nil => rfl
  | cons b rest ih =>
      obtain ⟨hb, hrest⟩ := List.forall_mem_cons.1 h
      rw [List.mapM_cons, List.mapM_cons, hb, ih hrest]

theorem reads_list {f : α → Json} {as : List α} (h : ∀ a ∈ as, d.Reads (f a) a) :
    (list d).Reads (.array (as.map f)) as := by
  intro room hroom
  obtain ⟨inner, rfl, hdepth⟩ := exists_room_of_depth_array_le hroom
  rw [document, list, documents_eq_map, List.map_map]
  exact mapM_map_eq_some fun a ha => h a ha (hdepth _ (List.mem_map_of_mem ha))

/-- Bindings in key order are put behind those found before them. -/
theorem bindings_eq_some {f : α → Json} {entries : List (String × α)} {found : KeyMap α}
    (h : ∀ e ∈ entries, d room (f e.2).document = some e.2)
    (hordered : Entries.Ordered (found.entries ++ entries)) :
    bindings d room (members (entries.map fun e => (e.1, f e.2))) found =
      some ⟨found.entries ++ entries, hordered⟩ := by
  induction entries generalizing found with
  | nil => simp [members, bindings]
  | cons e rest ih =>
      obtain ⟨he, hrest⟩ := List.forall_mem_cons.1 h
      have hlast : (found.insert e.1 e.2).entries = found.entries ++ [e] := by
        apply Entries.insert_eq_append
        intro b hb
        exact (List.pairwise_append.1 hordered).2.2 b hb e List.mem_cons_self
      have hordered' : Entries.Ordered ((found.insert e.1 e.2).entries ++ rest) := by
        simpa [hlast] using hordered
      simp [members, bindings, he, ih hrest hordered', hlast]

theorem reads_keyMap {f : α → Json} {m : KeyMap α} (h : ∀ e ∈ m.entries, d.Reads (f e.2) e.2) :
    (keyMap d).Reads (.object (m.entries.map fun e => (e.1, f e.2))) m := by
  intro room hroom
  obtain ⟨inner, rfl, hdepth⟩ := exists_room_of_depth_object_le hroom
  have hentries : ∀ e ∈ m.entries, d inner (f e.2).document = some e.2 :=
    fun e he => h e he (hdepth _ (List.mem_map_of_mem he))
  exact @bindings_eq_some _ _ _ _ _ ∅ hentries m.ordered


theorem reads_properties {p : Properties} (h : (Json.ofProperties p).Each Ordered) :
    properties.Reads (.ofProperties p) p := by
  have hentries := (each_object_iff.1 h).2
  have hread := reads_keyMap (m := p) (f := id) fun e he => reads_json (hentries e he)
  rwa [show (p.entries.map fun e => (e.1, id e.2)) = p.entries from List.map_id _] at hread

theorem reads_choice {all : List α} {label : α → String}
    (h : all.find? (label · = label a) = some a) : (choice all label).Reads (.string (label a)) a :=
  fun _ _ => h

/-! ## Fields -/

/-- A field stands where it was given a value, or is left out, which says as much as null. -/
def Given (room : Nat) (v : Json) (o : Option Document) : Prop :=
  v.depth ≤ room ∧ (o = some v.document ∨ o = none ∧ v = .null)

/-- The values of a record's fields in their order; in an array none may be left out. -/
def Fields.Give (room : Nat) (values : List Json) : Fields → Prop
  | .named found => List.Forall₂ (Given room) values found
  | .placed found =>
      (∀ v ∈ values, v.depth ≤ room) ∧ found = values.map fun v => some v.document

theorem Fields.Give.given {values : List Json} {f : Fields} (h : f.Give room values) :
    List.Forall₂ (Given room) values f.found := by
  cases f with
  | named found => exact h
  | placed found =>
      obtain ⟨hdepth, rfl⟩ := h
      exact List.forall₂_map_right_iff.2 (List.forall₂_same.2 fun v hv => ⟨hdepth v hv, .inl rfl⟩)

/-- Nothing is left out of an array. -/
theorem Fields.Give.named_of_none_mem {values : List Json} {f : Fields} (h : f.Give room values)
    (hnone : none ∈ f.found) : ∃ found, f = .named found := by
  cases f with
  | named found => exact ⟨found, rfl⟩
  | placed found =>
      obtain ⟨-, rfl⟩ := h
      simp [Fields.found] at hnone

section Fields

variable {o : Option Document} (hgiven : Given room v o) (hreads : d.Reads v a)

include hgiven hreads

theorem required_eq_some (hnull : v ≠ .null) : required d room o = some a := by
  obtain ⟨hroom, rfl | ⟨-, h⟩⟩ := hgiven
  · exact hreads hroom
  · exact absurd h hnull

theorem withDefault_eq_some {fallback : α} (hnull : v = .null → a = fallback) :
    withDefault fallback d room o = some a := by
  obtain ⟨hroom, rfl | ⟨rfl, h⟩⟩ := hgiven
  · exact hreads hroom
  · rw [hnull h, withDefault]

omit hreads in
theorem omittable_eq_some {a : Option α} {f : Fields} (hreads : (optional d).Reads v a)
    (hnull : v = .null → a = none) (hnamed : o = none → ∃ found, f = .named found) :
    omittable d room f o = some a := by
  obtain ⟨hroom, rfl | ⟨rfl, h⟩⟩ := hgiven
  · cases f <;> exact hreads hroom
  · obtain ⟨found, rfl⟩ := hnamed rfl
    rw [hnull h, omittable]

end Fields

/-! ## The members of an object -/

variable {names : List String} {read : Nat → Fields → Option α}

theorem keyed_cons_some (k : String) (doc : Document) (rest : List (Option String × Document)) :
    keyed ((some k, doc) :: rest) = (keyed rest).map ((k, doc) :: ·) := by
  cases h : keyed rest <;> simp [keyed, h]

theorem keyed_eq (members : List (Option String × Document)) :
    keyed members =
      if ∀ e ∈ members, e.1.isSome then
        some (members.filterMap fun e => e.1.map fun k => (k, e.2))
      else none := by
  induction members with
  | nil => rfl
  | cons e rest ih =>
      obtain ⟨key, doc⟩ := e
      cases key with
      | none => simp [keyed]
      | some k =>
          have hcons : (∀ e ∈ (some k, doc) :: rest, e.1.isSome) ↔ ∀ e ∈ rest, e.1.isSome := by
            simp
          rw [keyed_cons_some, ih]
          by_cases hrest : ∀ e ∈ rest, e.1.isSome
          · rw [if_pos hrest, if_pos (hcons.2 hrest)]
            rfl
          · rw [if_neg hrest, if_neg (hcons.not.2 hrest)]
            rfl

theorem member?_perm {members members' : List (String × Document)} (h : members.Perm members') :
    member? members = member? members' := by
  funext name
  have hfilter := h.filter (·.1 = name)
  rw [member?, member?]
  generalize members.filter (·.1 = name) = found at hfilter ⊢
  generalize members'.filter (·.1 = name) = found' at hfilter ⊢
  match found, found', hfilter with
  | [], _, hfilter => rw [hfilter.nil_eq]
  | [_], _, hfilter => rw [List.singleton_perm.1 hfilter]
  | _ :: _ :: _, _ :: _ :: _, _ => rfl
  | _ :: _ :: _, [], hfilter | _ :: _ :: _, [_], hfilter => simpa using hfilter.length_eq

/-- Fields are found wherever they stand, and nothing else is looked at. -/
theorem fields?_object_eq {members members' extra : List (Option String × Document)}
    (hperm : members'.Perm (members ++ extra))
    (hextra : ∀ e ∈ extra, ∃ k, e.1 = some k ∧ k ∉ names) :
    fields? names (.object members') = fields? names (.object members) := by
  have hkeys : (∀ e ∈ members', e.1.isSome) ↔ ∀ e ∈ members, e.1.isSome := by
    have hsome : ∀ e ∈ extra, e.1.isSome := by
      intro e he
      obtain ⟨k, hk, -⟩ := hextra e he
      simp [hk]
    simp only [hperm.mem_iff, List.forall_mem_append, and_iff_left hsome]
  rw [fields?, fields?, keyed_eq, keyed_eq]
  by_cases hall : ∀ e ∈ members, e.1.isSome
  · rw [if_pos hall, if_pos (hkeys.2 hall)]
    set key : Option String × Document → Option (String × Document) :=
      fun e => e.1.map fun k => (k, e.2)
    have hmember : ∀ name ∈ names,
        member? (members'.filterMap key) name = member? (members.filterMap key) name := by
      intro name hname
      have hnone : (extra.filterMap key).filter (·.1 = name) = [] := by
        apply List.filter_eq_nil_iff.2
        intro e he
        obtain ⟨b, hb, hkey⟩ := List.mem_filterMap.1 he
        obtain ⟨k, hk, hnot⟩ := hextra b hb
        obtain rfl : (k, b.2) = e := by simpa [key, hk] using hkey
        have hne : k ≠ name := fun heq => hnot (heq ▸ hname)
        simpa using hne
      rw [member?_perm (hperm.filterMap key), List.filterMap_append, member?, member?,
        List.filter_append, hnone, List.append_nil]
    simp only [Option.bind_eq_bind, Option.bind_some, mapM_congr hmember]
  · rw [if_neg hall, if_neg (hkeys.not.2 hall)]

theorem member?_of_nodup {fields : List (String × Json)} (h : (fields.map Prod.fst).Nodup)
    (name : String) :
    member? (fields.map fun e => (e.1, e.2.document)) name =
      some ((fields.lookup name).map document) := by
  induction fields with
  | nil => rfl
  | cons e rest ih =>
      obtain ⟨k, v⟩ := e
      obtain ⟨hk, hrest⟩ := List.nodup_cons.1 h
      rw [Entries.lookup_cons_eq]
      by_cases hname : name = k
      · subst hname
        have hnone : (rest.map fun e => (e.1, e.2.document)).filter (·.1 = name) = [] := by
          apply List.filter_eq_nil_iff.2
          intro e he
          obtain ⟨b, hb, rfl⟩ := List.mem_map.1 he
          have hne : b.1 ≠ name := fun heq => hk (List.mem_map.2 ⟨b, hb, heq⟩)
          simpa using hne
        simp [member?, hnone]
      · have hrest := ih hrest
        rw [member?] at hrest ⊢
        rw [List.map_cons, List.filter_cons_of_neg (by simpa using Ne.symm hname), hrest,
          if_neg hname]

theorem keyed_members (fields : List (String × Json)) :
    keyed (members fields) = some (fields.map fun e => (e.1, e.2.document)) := by
  induction fields with
  | nil => rfl
  | cons e rest ih => rw [members, keyed_cons_some, ih, Option.map_some, List.map_cons]

/-! ## Records -/

/-- The value of a field of an object; null may be left out. -/
def Supplied (fields : List (String × Json)) (name : String) (v : Json) : Prop :=
  fields.lookup name = some v ∨ fields.lookup name = none ∧ v = .null

theorem supplied_optional {fields : List (String × Json)} {name : String} {f : α → Json}
    {o : Option α} (h : fields.lookup name = o.map f) :
    Supplied fields name (.optional f o) := by
  cases o with
  | none => exact .inr ⟨h, rfl⟩
  | some a => exact .inl h

/-- A record is read from its fields, whatever the layout. -/
def ReadsFields (read : Nat → Fields → Option α) (values : List Json) (a : α) : Prop :=
  ∀ ⦃room : Nat⦄ ⦃f : Fields⦄, f.Give room values → read room f = some a

variable {values : List Json}

theorem ReadsFields.reads_object (h : ReadsFields read values a) {fields : List (String × Json)}
    (hnodup : (fields.map Prod.fst).Nodup) (hfields : List.Forall₂ (Supplied fields) names values) :
    (record names read).Reads (.object fields) a := by
  intro room hroom
  obtain ⟨inner, rfl, hdepth⟩ := exists_room_of_depth_object_le hroom
  have hfound : fields? names (object fields).document =
      some (.named (names.map fun name => (fields.lookup name).map document)) := by
    rw [document, fields?, keyed_members]
    have hmapM : names.mapM (member? (fields.map fun e => (e.1, e.2.document))) =
        some (names.map fun name => (fields.lookup name).map document) := by
      rw [funext (member?_of_nodup hnodup)]
      exact List.mapM_pure
    simp only [Option.bind_eq_bind, Option.bind_some, hmapM, Option.pure_def]
  rw [record, hfound]
  apply h
  refine List.forall₂_map_right_iff.2 (hfields.flip.imp ?_)
  rintro v name (hv | ⟨hv, rfl⟩)
  · have hmem := (Entries.lookup_eq_some_iff_mem hnodup).1 hv
    exact ⟨hdepth _ hmem, .inl (by rw [hv, Option.map_some])⟩
  · exact ⟨Nat.zero_le _, .inr ⟨by rw [hv, Option.map_none], rfl⟩⟩

theorem ReadsFields.reads_array (h : ReadsFields read values a)
    (hlength : values.length = names.length) : (record names read).Reads (.array values) a := by
  intro room hroom
  obtain ⟨inner, rfl, hdepth⟩ := exists_room_of_depth_array_le hroom
  have hfound : fields? names (array values).document =
      some (.placed (values.map fun v => some v.document)) := by
    rw [document, fields?, documents_eq_map]
    simp [hlength, Function.comp_def]
  rw [record, hfound]
  exact h ⟨hdepth, rfl⟩

/-- A kind of record is read as it is written: as an object, whatever the order of its fields and
whatever else is in it, and as an array. -/
structure Faithful (names : List String) (d : Decoder α) (write : α → Json)
    (values : α → List Json) (P : α → Prop) : Prop where
  ofJson_write : ∀ a, P a → d.ofJson (write a) = some a
  ofJson_fields : ∀ a, P a → ∃ fields, write a = .object fields ∧ ∀ fields' extra,
    fields'.Perm (fields ++ extra) → (∀ e ∈ extra, e.1 ∉ names) →
      d.ofJson (.object fields') = some a
  ofJson_values : ∀ a, P a → d.ofJson (.array (values a)) = some a
  object_eq : ∀ room members members' extra, members'.Perm (members ++ extra) →
    (∀ e ∈ extra, ∃ k, e.1 = some k ∧ k ∉ names) →
      d room (.object members') = d room (.object members)

theorem record_object_eq {members members' extra : List (Option String × Document)}
    (hperm : members'.Perm (members ++ extra))
    (hextra : ∀ e ∈ extra, ∃ k, e.1 = some k ∧ k ∉ names) :
    record names read room (.object members') = record names read room (.object members) := by
  cases room with
  | zero => rfl
  | succ inner => rw [record, record, fields?_object_eq hperm hextra]

theorem faithful_record {write : α → Json} {values : α → List Json} {P : α → Prop}
    (hobject : ∀ a, P a → ∃ fields, write a = .object fields ∧ (fields.map Prod.fst).Nodup ∧
      List.Forall₂ (Supplied fields) names (values a))
    (hread : ∀ a, P a → ReadsFields read (values a) a) :
    Faithful names (record names read) write values P where
  ofJson_write a ha := by
    obtain ⟨fields, hwrite, hnodup, hfields⟩ := hobject a ha
    rw [hwrite]
    exact ((hread a ha).reads_object hnodup hfields).ofJson_eq
  ofJson_fields a ha := by
    obtain ⟨fields, hwrite, hnodup, hfields⟩ := hobject a ha
    refine ⟨fields, hwrite, fun fields' extra hperm hextra => ?_⟩
    have hdepth : (object fields).depth ≤ (object fields').depth := by
      refine Nat.add_le_add_left (depthFields_le_iff.2 fun e he => ?_) 1
      exact depthFields_le_iff.1 le_rfl e (hperm.mem_iff.2 (List.mem_append_left _ he))
    have hmembers : (members fields').Perm (members fields ++ members extra) := by
      simpa [members_eq_map] using hperm.map _
    have hunknown : ∀ e ∈ members extra, ∃ k, e.1 = some k ∧ k ∉ names := by
      intro e he
      rw [members_eq_map] at he
      obtain ⟨b, hb, rfl⟩ := List.mem_map.1 he
      exact ⟨b.1, rfl, hextra b hb⟩
    rw [ofJson, document, record_object_eq hmembers hunknown]
    exact (hread a ha).reads_object hnodup hfields hdepth
  ofJson_values a ha := by
    obtain ⟨fields, -, -, hfields⟩ := hobject a ha
    exact ((hread a ha).reads_array hfields.length_eq.symm).ofJson_eq
  object_eq _ _ _ _ := record_object_eq

end BehaviorTrees.Decoder
