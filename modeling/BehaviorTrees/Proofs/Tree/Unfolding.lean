import BehaviorTrees.Proofs.Tree.Claims

/-!
# Unfolding a record

`Tree.Unfolds` says which tree a record describes below a key: the node of the key is of the type
that is made for it, carries the label that is made for it with the words of the record laid over,
and holds the unfoldings of the keys linked, in their order.  Loading a tree succeeds exactly if the
record is well formed, and the root it gives is the unfolding of the root of the record.
-/

namespace BehaviorTrees

variable {σ : Type}

/-! ## Nodes of one type -/

namespace Node

/-- Both nodes are of one type and configured alike, whatever is said of them and whatever they
hold. -/
inductive SameKind : Node σ → Node σ → Prop
  | composite (l l' : Label) (k : CompositeKind σ) (cs cs' : List (Node σ)) :
      SameKind (composite l k cs) (composite l' k cs')
  | decorator (l l' : Label) (k : DecoratorKind σ) (c c' : Option (Node σ)) :
      SameKind (decorator l k c) (decorator l' k c')
  | leaf (l l' : Label) (k : LeafKind σ) : SameKind (leaf l k) (leaf l' k)

variable {n m o : Node σ}

theorem SameKind.symm (h : n.SameKind m) : m.SameKind n := by
  cases h <;> constructor

theorem SameKind.trans (h : n.SameKind m) (h' : m.SameKind o) : n.SameKind o := by
  cases h <;> cases h' <;> constructor

theorem SameKind.category_eq (h : n.SameKind m) : n.category = m.category := by
  cases h <;> rfl

theorem SameKind.eq (h : n.SameKind m) (hlabel : n.label = m.label) (hkids : n.kids = m.kids) :
    n = m := by
  cases h with
  | composite l l' k cs cs' =>
      obtain rfl : l = l' := hlabel
      obtain rfl : cs = cs' := hkids
      rfl
  | decorator l l' k c c' =>
      obtain rfl : l = l' := hlabel
      obtain rfl : c = c' := by
        cases c <;> cases c' <;> simp_all [kids]
      rfl
  | leaf l l' k =>
      obtain rfl : l = l' := hlabel
      rfl

theorem sameKind_mapLabel (f : Label → Label) (n : Node σ) : n.SameKind (n.mapLabel f) := by
  cases n <;> constructor

theorem SameKind.keepsLinks_iff (h : n.SameKind m) : n.KeepsLinks ↔ m.KeepsLinks := by
  cases h with
  | composite l l' k cs cs' => cases k <;> rfl
  | decorator l l' k c c' => cases k <;> rfl
  | leaf l l' k => rfl

@[simp] theorem kids_mapLabel (f : Label → Label) (n : Node σ) : (n.mapLabel f).kids = n.kids := by
  cases n <;> rfl

theorem Blank.mapLabel (h : n.Blank) (f : Label → Label) : (n.mapLabel f).Blank where
  kids := (kids_mapLabel f n).trans h.kids
  keepsLinks := (sameKind_mapLabel f n).keepsLinks_iff.1 h.keepsLinks

end Node

/-! ## The tree a record describes -/

/-- Of the records of nodes only blank nodes are made. -/
def TreeRecord.MakesBlanks (names : Catalog σ) (d : TreeRecord) : Prop :=
  ∀ k r n, d.nodes.find? k = some r → names.Makes r n → n.Blank

theorem Catalog.MakesBlanks.ofRecord {names : Catalog σ} (h : names.MakesBlanks)
    (d : TreeRecord) : d.MakesBlanks names :=
  fun _ _ _ _ hn => h.blank hn

/-- What is said of a node under a key: the words of the record, and where it has none, what the
label of the new node says. -/
structure NodeRecord.LaidOver (r : NodeRecord) (key : NodeId) (l l' : Label) : Prop where
  id : l'.id = r.id.getD key
  title : l'.title = if r.title = "" then l.title else r.title
  description : l'.description = if r.description = "" then l.description else r.description
  properties : ∀ name,
    l'.properties.find? name = (r.properties.find? name).or (l.properties.find? name)
  parameters : ∀ name,
    l'.parameters.find? name = (r.parameters.find? name).or (l.parameters.find? name)

theorem NodeRecord.LaidOver.eq {r : NodeRecord} {key : NodeId} {l l₁ l₂ : Label}
    (h₁ : r.LaidOver key l l₁) (h₂ : r.LaidOver key l l₂) : l₁ = l₂ := by
  have hproperties : l₁.properties = l₂.properties :=
    KeyMap.ext_find? fun name => by rw [h₁.properties, h₂.properties]
  have hparameters : l₁.parameters = l₂.parameters :=
    KeyMap.ext_find? fun name => by rw [h₁.parameters, h₂.parameters]
  have hid := h₁.id.trans h₂.id.symm
  have htitle := h₁.title.trans h₂.title.symm
  have hdescription := h₁.description.trans h₂.description.symm
  cases l₁
  cases l₂
  simp_all

namespace Tree

variable {names : Catalog σ} {d : TreeRecord} {key : NodeId} {keys : List NodeId} {n m : Node σ}
  {c : Claim σ} {cs : List (Claim σ)}

/-- The tree that a record describes below a key. -/
inductive Unfolds (names : Catalog σ) (d : TreeRecord) : NodeId → Node σ → Prop
  | node {key : NodeId} {r : NodeRecord} {blank n : Node σ} (hr : d.nodes.find? key = some r)
      (hblank : names.Makes r blank) (hkind : blank.SameKind n)
      (hlabel : r.LaidOver key blank.label n.label)
      (hkids : List.Forall₂ (Unfolds names d) r.linked n.kids) : Unfolds names d key n

/-- A record describes no more than one tree. -/
theorem Unfolds.eq (h : Unfolds names d key n) (h' : Unfolds names d key m) : n = m := by
  induction n using Node.induct generalizing key m with
  | step n ih =>
      cases h with
      | @node _ r blank _ hr hblank hkind hlabel hkids =>
      cases h' with
      | @node _ r' blank' _ hr' hblank' hkind' hlabel' hkids' =>
      obtain rfl : r = r' := Option.some.inj (hr.symm.trans hr')
      obtain rfl : blank = blank' := hblank.eq hblank'
      -- the children are gone through one by one, each of them smaller than the node
      have heq : ∀ {ks : List NodeId} {ns ms : List (Node σ)}, ns ⊆ n.kids →
          List.Forall₂ (Unfolds names d) ks ns → List.Forall₂ (Unfolds names d) ks ms →
          ns = ms := by
        intro ks ns ms hsub hns hms
        induction hns generalizing ms with
        | nil => cases hms; rfl
        | @cons k c ks cs hc _ ihrest =>
            cases hms with
            | cons hc' hrest' =>
                obtain ⟨hcn, hcs⟩ := List.cons_subset.1 hsub
                rw [ih c hcn hc hc', ihrest hcs hrest']
      exact (hkind.symm.trans hkind').eq (hlabel.eq hlabel')
        (heq (List.Subset.refl _) hkids hkids')

theorem laidOver_dress (key : NodeId) (r : NodeRecord) (blank : Node σ) :
    r.LaidOver key blank.label (dress key r blank).label := by
  rw [dress, Node.label_mapLabel]
  constructor
  case id => rfl
  case title => simp [String.isEmpty_iff]
  case description => simp [String.isEmpty_iff]
  case properties => exact fun name => KeyMap.find?_union
  case parameters => exact fun name => KeyMap.find?_union

/-! ## Putting together -/

section

variable {l : Label} {r : NodeRecord} {links : List NodeId}

theorem attach_composite {k : CompositeKind σ} (h : (Node.composite l k []).KeepsLinks)
    (kids : List (Node σ)) :
    attach ⟨key, links, .composite l k []⟩ kids = .ok (.composite l k kids) := by
  cases kids with
  | nil => rfl
  | cons kid kids =>
      cases k with
      | custom design =>
          have hadopt : design.keepsLinks = true := h
          simp [attach, Node.category, Node.adopt, Node.children, hadopt]
      | _ => simp [attach, Node.category, Node.adopt, Node.children]

theorem attach_decorator {k : DecoratorKind σ} (h : (Node.decorator l k none).KeepsLinks)
    (kid : Option (Node σ)) :
    attach ⟨key, links, .decorator l k none⟩ kid.toList = .ok (.decorator l k kid) := by
  cases kid with
  | none => rfl
  | some kid =>
      cases k with
      | custom design =>
          have hadopt : design.keepsLinks = true := h
          simp [attach, Node.category, Node.adopt, Node.child, hadopt]
      | _ => simp [attach, Node.category, Node.adopt, Node.child]

theorem attach_leaf (k : LeafKind σ) :
    attach ⟨key, links, .leaf l k⟩ [] = .ok (.leaf l k) := by
  cases h : LeafKind.category k <;> simp [attach, Node.category, h]

theorem linked_eq_nil_of_leaf {k : LeafKind σ} (h : (Node.leaf l k).category.CanHold r) :
    r.linked = [] := by
  obtain ⟨hchildren, hchild⟩ := k.canHold_iff.1 h
  rw [NodeRecord.linked, hchildren, hchild]
  rfl

theorem exists_attach_eq_ok {kids : List (Node σ)} (hblank : c.node.Blank)
    (hhold : c.node.category.CanHold r) (hlength : kids.length = r.linked.length) :
    ∃ n, attach c kids = .ok n ∧ c.node.SameKind n ∧ n.label = c.node.label ∧ n.kids = kids := by
  obtain ⟨key, links, node⟩ := c
  obtain ⟨hempty, hkeeps⟩ := hblank
  cases node with
  | composite l k held =>
      obtain rfl : held = [] := hempty
      exact ⟨_, attach_composite hkeeps kids, .composite .., rfl, rfl⟩
  | decorator l k held =>
      obtain rfl : held = none := Option.toList_eq_nil_iff.1 hempty
      have hchildren : r.children.getD [] = [] := hhold
      obtain ⟨kid, rfl⟩ : ∃ kid : Option (Node σ), kids = kid.toList := by
        rw [NodeRecord.linked, hchildren] at hlength
        rcases kids with _ | ⟨kid, _ | ⟨kid', kids⟩⟩
        · exact ⟨none, rfl⟩
        · exact ⟨some kid, rfl⟩
        · cases hchild : r.child <;> simp [hchild] at hlength
      exact ⟨_, attach_decorator hkeeps kid, .decorator .., rfl, rfl⟩
  | leaf l k =>
      rw [linked_eq_nil_of_leaf hhold] at hlength
      obtain rfl := List.eq_nil_of_length_eq_zero hlength
      exact ⟨_, attach_leaf k, .leaf .., rfl, rfl⟩

end

/-- A claim is attached with the trees that lie on top of the stack. -/
theorem attachAll_cons {c : Claim σ} {kids : List (Node σ)} (hlength : kids.length = c.links.length)
    (rest : List (Claim σ)) (done : List (Node σ)) :
    attachAll (c :: rest) (kids.reverse ++ done) =
      attach c kids >>= fun n => attachAll rest (n :: done) := by
  have htake : ((kids.reverse ++ done).take c.links.length).reverse = kids := by
    rw [← hlength, ← List.length_reverse, List.take_left, List.reverse_reverse]
  have hdrop : (kids.reverse ++ done).drop c.links.length = done := by
    rw [← hlength, ← List.length_reverse, List.drop_left]
  rw [attachAll, attachNext, htake, hdrop]
  cases attach c kids <;> rfl

/-- Putting together takes the claims of an outline off, and leaves the trees of its keys on the
stack, the last one on top. -/
theorem Outline.exists_attachAll (hblanks : d.MakesBlanks names) (h : Outline names d keys cs) :
    ∃ trees, List.Forall₂ (Unfolds names d) keys trees ∧
      (trees.flatMap Node.ids).Perm (cs.map (·.node.id)) ∧
      ∀ rest done, attachAll (cs ++ rest) done = attachAll rest (trees.reverse ++ done) := by
  induction h with
  | nil => exact ⟨[], .nil, .refl _, fun _ _ => rfl⟩
  | @cons key keys c below later hc _ _ ihbelow ihlater =>
      obtain ⟨kids, hkids, hids, hbelow⟩ := ihbelow
      obtain ⟨trees, htrees, hlaterIds, hlater⟩ := ihlater
      obtain ⟨-, r, blank, hr, hblank, hnode, hhold, hlinks, -⟩ := hc
      have hdressed : c.node.Blank := hnode ▸ (hblanks key r blank hr hblank).mapLabel _
      obtain ⟨n, hattach, hkind, hlabel, hheld⟩ := exists_attach_eq_ok hdressed
        (by rwa [hnode, category_dress]) (hlinks ▸ hkids.length_eq.symm)
      -- the trees below the claim are on top of the stack when its turn comes
      refine ⟨n :: trees, .cons ?_ htrees, ?_, ?_⟩
      · refine .node hr hblank (.trans ?_ hkind) ?_ (hheld ▸ hlinks ▸ hkids)
        · rw [hnode]
          exact Node.sameKind_mapLabel _ blank
        · rw [hlabel, hnode]
          exact laidOver_dress key r blank
      · have hid : n.id = c.node.id := congrArg Label.id hlabel
        rw [List.flatMap_cons, Node.ids_eq, hheld, hid, List.map_append, List.map_cons]
        exact ((hids.append hlaterIds).cons _).trans List.perm_middle.symm
      · intro rest done
        rw [List.append_assoc, hbelow, List.cons_append, attachAll_cons hkids.length_eq.symm,
          hattach]
        simp only [bind, Except.bind]
        rw [hlater, List.reverse_cons, List.append_assoc, List.singleton_append]

end Tree
end BehaviorTrees
