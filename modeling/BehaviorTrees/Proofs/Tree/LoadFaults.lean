import BehaviorTrees.Proofs.Tree.Unfolding
import Mathlib.Data.List.Flatten

/-!
# Why a loading fails

A fault is `Truthful` if what it says of the record is so.  Following the links from the root, every
key on the stack but the root is there by a link from a node that was claimed already, so a key that
comes up a second time is linked twice, or once more than the root should be.  All faults of loading
are truthful, whatever the factories of the caller make.
-/

namespace BehaviorTrees

variable {σ : Type}

/-! ## Truthful faults -/

/-- The record of a node has a link of a sort; an empty list of children is no link. -/
def NodeRecord.Carries (r : NodeRecord) : Link → Prop
  | .child => r.child ≠ none
  | .children => r.children.getD [] ≠ []

/-- The nodes of a category hold others by links of a sort. -/
def Category.Holds : Category → Link → Prop
  | .composite, .children | .decorator, .child => True
  | _, _ => False

open Classical in
/-- The keys that the nodes to which links lead refer to, each as often as they do. -/
noncomputable def TreeRecord.linksFrom (d : TreeRecord) (root : NodeId) : List NodeId :=
  (d.nodes.entries.filter fun e => d.Reaches root e.1).flatMap fun e => e.2.linked

/-- A factory makes a node of every entry, whether it is used or not, and the root is an entry. -/
structure TreeRecord.Rooted (names : Catalog σ) (d : TreeRecord) (root : NodeId) : Prop where
  makes : ∀ e ∈ d.nodes.entries, ∃ n, names.Makes e.2 n
  isRoot : d.root = some root
  isKey : d.nodes.contains root = true

/-- What a fault says of a record is so. -/
def TreeFault.Truthful (names : Catalog σ) (d : TreeRecord) : TreeFault → Prop
  | unknownType name => ∃ e ∈ d.nodes.entries, e.2.name = name ∧ names.contains name = false ∧
      (Catalog.builtin : Catalog σ).contains name = false
  | node fault => ∃ e ∈ d.nodes.entries, ∃ factory, names.Chooses e.2.name factory ∧
      factory e.2.properties = .error fault
  | missingRoot root => d.root = some root ∧ d.nodes.contains root = false ∧
      ∀ e ∈ d.nodes.entries, ∃ n, names.Makes e.2 n
  | missingNode parent child => ∃ root r, d.Rooted names root ∧ d.Uses root parent r ∧
      child ∈ r.linked ∧ d.nodes.contains child = false
  | sharedNode id => ∃ root, d.Rooted names root ∧ d.Reaches root id ∧
      2 ≤ (d.linksFrom root).count id + if id = root then 1 else 0
  | unexpectedLink key category link => ∃ root r n, d.Rooted names root ∧ d.Uses root key r ∧
      names.Makes r n ∧ n.category = category ∧ r.Carries link ∧
      (¬category.Holds link ∨ names.contains r.name = true ∧ ¬n.KeepsLinks)
  | noRoot | malformed => False

namespace Tree

variable {names : Catalog σ} {d : TreeRecord} {made : List (String × Node σ)} {key root : NodeId}
  {stack : List NodeId} {c : Claim σ} {claimed : List (Claim σ)} {left : Nat} {fault : TreeFault}

/-! ## Making -/

theorem truthful_of_make {e : String × NodeRecord} (he : e ∈ d.nodes.entries)
    (h : make names key e.2 = .error fault) : fault.Truthful names d := by
  rw [make] at h
  cases hresolve : names.resolve? e.2.name with
  | none =>
      rw [hresolve] at h
      cases h
      refine ⟨e, he, rfl, ?_⟩
      rw [Catalog.resolve?] at hresolve
      rw [KeyMap.contains, KeyMap.contains, Catalog.builtin_find?]
      cases hfind : names.find? e.2.name with
      | some factory => simp [hfind] at hresolve
      | none => exact ⟨rfl, by simpa [hfind] using hresolve⟩
  | some factory =>
      simp only [hresolve] at h
      split at h
      · rename_i nodeFault hfault
        cases h
        exact ⟨e, he, factory, Catalog.resolve?_eq_some_iff.1 hresolve, hfault⟩
      · cases h

theorem exists_of_makeAll_eq_error {entries : List (String × NodeRecord)}
    (h : makeAll names entries = .error fault) :
    ∃ e ∈ entries, make names e.1 e.2 = .error fault := by
  induction entries with
  | nil => cases h
  | cons e rest ih =>
      rcases bind_eq_error_iff.1 h with hmake | ⟨n, -, hrest⟩
      · exact ⟨e, List.mem_cons_self, hmake⟩
      · rcases bind_eq_error_iff.1 hrest with hrest | ⟨made, -, hpure⟩
        · obtain ⟨e', he', hmake⟩ := ih hrest
          exact ⟨e', List.mem_cons_of_mem _ he', hmake⟩
        · cases hpure

/-! ## Claiming -/

theorem unexpected_of_links {r : NodeRecord} {category : Category}
    (h : r.links key category = .error fault) :
    ∃ link, fault = .unexpectedLink key category link ∧ r.Carries link ∧ ¬category.Holds link := by
  cases category <;> simp only [NodeRecord.links] at h
  case composite =>
    split at h <;> cases h
    rename_i hchild
    exact ⟨.child, rfl, Option.isSome_iff_ne_none.1 hchild, not_false⟩
  case decorator =>
    split at h <;> cases h
    rename_i hchildren
    exact ⟨.children, rfl, hchildren, not_false⟩
  all_goals
    split at h
    · rename_i hchildren
      cases h
      exact ⟨.children, rfl, hchildren, not_false⟩
    · split at h <;> cases h
      rename_i hchild
      exact ⟨.child, rfl, Option.isSome_iff_ne_none.1 hchild, not_false⟩

theorem missing?_eq_some {nodes : KeyMap NodeRecord} {links : List NodeId} {child : NodeId}
    (h : missing? nodes links = some child) : child ∈ links ∧ nodes.contains child = false := by
  rw [missing?] at h
  exact ⟨List.mem_of_find?_eq_some h, by simpa using List.find?_some h⟩

theorem truthful_of_claim (hmade : makeAll names d.nodes.entries = .ok made)
    (hroot : d.Rooted names root) (hreach : d.Reaches root key)
    (hkey : d.nodes.contains key = true) (h : claim d.nodes made key = .error fault) :
    fault.Truthful names d := by
  obtain ⟨r, hr⟩ := KeyMap.contains_iff.1 hkey
  obtain ⟨blank, hblank⟩ := hroot.makes (key, r) (KeyMap.find?_eq_some_iff.1 hr)
  have hlookup : made.lookup key = some (dress key r blank) :=
    (lookup_of_makeAll hmade).2 ⟨r, hr, make_eq_ok_iff.2 ⟨blank, hblank, rfl⟩⟩
  simp only [claim, hr, hlookup, category_dress] at h
  rcases bind_eq_error_iff.1 h with hlinks | ⟨links, hlinks, h⟩
  · obtain ⟨link, rfl, hcarries, hholds⟩ := unexpected_of_links hlinks
    exact ⟨root, r, blank, hroot, ⟨hreach, hr⟩, hblank, rfl, hcarries, .inl hholds⟩
  · obtain ⟨-, rfl⟩ := NodeRecord.links_eq_ok_iff.1 hlinks
    split at h
    · rename_i child hmissing
      cases h
      obtain ⟨hchild, hnone⟩ := missing?_eq_some hmissing
      exact ⟨root, r, hroot, ⟨hreach, hr⟩, hchild, hnone⟩
    · cases h

namespace Pursuing

/-- Nothing is linked by the claims that is not linked in the record. -/
theorem links_subperm (h : Pursuing names d root left stack claimed) :
    (claimed.flatMap Claim.links).Subperm (d.linksFrom root) := by
  classical
  have hentries : ∃ es : List (String × NodeRecord), es.map Prod.fst = claimed.map Claim.key ∧
      es.flatMap (fun e => e.2.linked) = claimed.flatMap Claim.links ∧
      es ⊆ d.nodes.entries.filter fun e => d.Reaches root e.1 := by
    have hclaims := h.claims
    clear h
    induction claimed with
    | nil => exact ⟨[], rfl, rfl, List.nil_subset _⟩
    | cons c rest ih =>
        obtain ⟨hc, hrest⟩ := List.forall_mem_cons.1 hclaims
        obtain ⟨es, hkeys, hlinks, hsub⟩ := ih hrest
        obtain ⟨hreach, -, r, -, hr, -, -, -, hlinked, -⟩ := hc
        refine ⟨(c.key, r) :: es, by simp [hkeys], by simp [hlinks, hlinked], ?_⟩
        refine List.cons_subset.2 ⟨List.mem_filter.2 ⟨KeyMap.find?_eq_some_iff.1 hr, ?_⟩, hsub⟩
        simpa using hreach
  obtain ⟨es, hkeys, hlinks, hsub⟩ := hentries
  have hnodup : es.Nodup := .of_map Prod.fst (hkeys ▸ h.nodup)
  obtain ⟨es', hperm, hsublist⟩ := List.subperm_of_subset hnodup hsub
  exact ⟨_, hlinks ▸ hperm.flatMap_right _, hsublist.flatMap _⟩

theorem shared_truthful {rest : List NodeId} (hroot : d.Rooted names root)
    (h : Pursuing names d root left (key :: rest) claimed) (hkey : key ∈ claimed.map Claim.key) :
    TreeFault.Truthful names d (.sharedNode key) := by
  refine ⟨root, hroot, (h.reaches key List.mem_cons_self).1, ?_⟩
  have htwice : 2 ≤ (key :: rest ++ claimed.map Claim.key).count key := by
    have := List.count_pos_iff.2 hkey
    rw [List.cons_append, List.count_cons_self, List.count_append]
    omega
  have hlinks := h.links_subperm.count_le key
  rw [h.linked.count_eq, List.count_cons] at htwice
  simp only [beq_iff_eq, eq_comm (a := root)] at htwice
  omega

theorem truthful_of_claimAll (hmade : makeAll names d.nodes.entries = .ok made)
    (hroot : d.Rooted names root) (h : Pursuing names d root left stack claimed)
    (hfault : claimAll d.nodes made left stack claimed = .error fault) :
    fault.Truthful names d := by
  induction left generalizing stack claimed with
  | zero =>
      cases stack with
      | nil => simp [claimAll] at hfault
      | cons key rest =>
          cases hfault
          exact h.shared_truthful hroot h.head_mem
  | succ left ih =>
      cases stack with
      | nil => simp [claimAll] at hfault
      | cons key rest =>
          obtain ⟨hreach, hkey⟩ := h.reaches key List.mem_cons_self
          rw [claimAll] at hfault
          split at hfault
          · rename_i hany
            cases hfault
            exact h.shared_truthful hroot (any_key_iff.1 hany)
          · rename_i hany
            rcases bind_eq_error_iff.1 hfault with hclaim | ⟨c, hc, hfault⟩
            · exact truthful_of_claim hmade hroot hreach hkey hclaim
            · exact ih (h.step (mt any_key_iff.2 hany) ((claim_eq_ok_iff hmade).1 hc)) hfault

end Pursuing

/-! ## Putting together -/

/-- A node that holds others of its category fails to take them only if the caller made it. -/
theorem not_keepsLinks_of_attach {kids : List (Node σ)} (h : attach c kids = .error fault) :
    ∃ link, fault = .unexpectedLink c.key c.node.category link ∧ kids ≠ [] ∧
      c.node.category.Holds link ∧ ¬c.node.KeepsLinks := by
  obtain ⟨key, links, n⟩ := c
  cases kids with
  | nil => rcases n with ⟨l, k, cs⟩ | ⟨l, k, c⟩ | ⟨l, k⟩ <;> simp [attach] at h
  | cons kid kids =>
      rcases n with ⟨l, k, cs⟩ | ⟨l, k, c⟩ | ⟨l, k⟩
      · simp only [attach, Node.category] at h
        split at h <;> cases h
        rename_i hlength
        refine ⟨.children, rfl, by simp, trivial, fun hkeeps => hlength ?_⟩
        cases k with
        | custom design => simp [Node.adopt, Node.children, show design.keepsLinks = true from hkeeps]
        | _ => rfl
      · simp only [attach, Node.category] at h
        split at h <;> cases h
        rename_i hchild
        refine ⟨.child, rfl, by simp, trivial, fun hkeeps => hchild ?_⟩
        cases k with
        | custom design => simp [Node.adopt, Node.child, show design.keepsLinks = true from hkeeps]
        | _ => rfl
      · have hleaf := k.isLeaf_category
        cases hcategory : k.category <;>
          simp_all [attach, Node.category, Category.isLeaf]

theorem exists_of_attachAll_eq_error {done : List (Node σ)}
    (h : attachAll claimed done = .error fault) :
    ∃ c ∈ claimed, ∃ kids, kids.length ≤ c.links.length ∧ attach c kids = .error fault := by
  induction claimed generalizing done with
  | nil => cases h
  | cons c rest ih =>
      rcases bind_eq_error_iff.1 h with hnext | ⟨done', -, hrest⟩
      · rcases bind_eq_error_iff.1 hnext with hattach | ⟨n, -, hpure⟩
        · refine ⟨c, List.mem_cons_self, _, ?_, hattach⟩
          simp
        · cases hpure
      · obtain ⟨c', hc', hattach⟩ := ih hrest
        exact ⟨c', List.mem_cons_of_mem _ hc', hattach⟩

theorem carries_of_links {r : NodeRecord} {category : Category} {link : Link}
    (hhold : category.CanHold r) (hlinked : r.linked ≠ []) (hholds : category.Holds link) :
    r.Carries link := by
  cases category <;> cases link <;> try exact hholds.elim
  · have hchild : r.child = none := hhold
    simpa [NodeRecord.linked, hchild, NodeRecord.Carries] using hlinked
  · have hchildren : r.children.getD [] = [] := hhold
    simpa [NodeRecord.linked, hchildren, NodeRecord.Carries] using hlinked

theorem truthful_of_attach {kids : List (Node σ)} (hroot : d.Rooted names root)
    (hreach : d.Reaches root c.key) (hc : Claims names d c.key c)
    (hlength : kids.length ≤ c.links.length) (h : attach c kids = .error fault) :
    fault.Truthful names d := by
  obtain ⟨link, rfl, hkids, hholds, hkeeps⟩ := not_keepsLinks_of_attach h
  obtain ⟨-, r, blank, hr, hblank, hnode, hhold, hlinks, -⟩ := hc
  rw [hnode, dress, ← (Node.sameKind_mapLabel _ blank).keepsLinks_iff] at hkeeps
  rw [hnode, category_dress] at hholds ⊢
  have hlinked : r.linked ≠ [] := by
    rw [← hlinks]
    rintro hnil
    rw [hnil] at hlength
    exact hkids (List.eq_nil_of_length_eq_zero (Nat.le_zero.1 hlength))
  refine ⟨root, r, blank, hroot, ⟨hreach, hr⟩, hblank, rfl, carries_of_links hhold hlinked hholds,
    .inr ⟨?_, hkeeps⟩⟩
  -- a node of the library would have kept them
  obtain ⟨factory, hfactory | ⟨-, hfactory⟩, hmade⟩ := hblank
  · exact KeyMap.contains_iff.2 ⟨factory, hfactory⟩
  · rw [Catalog.builtin_find?] at hfactory
    exact absurd (Catalog.blank_of_builtin hfactory hmade).keepsLinks hkeeps

/-! ## Loading -/

theorem truthful_of_assemble (hmade : makeAll names d.nodes.entries = .ok made)
    (h : assemble d made = .error fault) : fault.Truthful names d := by
  rw [assemble] at h
  split at h
  · cases h
  · rename_i root hroot
    split at h
    · rename_i hkey
      have hrooted : d.Rooted names root :=
        ⟨exists_makeAll_eq_ok_iff.1 ⟨made, hmade⟩, hroot, hkey⟩
      rcases bind_eq_error_iff.1 h with hclaim | ⟨claimed, hclaim, h⟩
      · exact (Pursuing.start hkey).truthful_of_claimAll hmade hrooted hclaim
      · rcases bind_eq_error_iff.1 h with hattach | ⟨done, -, hpure⟩
        · obtain ⟨c, hc, kids, hlength, hfault⟩ := exists_of_attachAll_eq_error hattach
          obtain ⟨new, rfl, houtline, -⟩ := outline_of_claimAll hmade hclaim .nil
          rw [List.append_nil] at hc
          have hstack : ∀ key ∈ [root], d.Reaches root key := by
            simpa using TreeRecord.Reaches.root
          exact truthful_of_attach hrooted (houtline.reaches hstack c hc) (houtline.claims c hc)
            hlength hfault
        · cases hpure
    · rename_i hkey
      cases h
      exact ⟨hroot, by simpa using hkey, exists_makeAll_eq_ok_iff.1 ⟨made, hmade⟩⟩

theorem truthful_of_load {t : Tree σ} (h : t.load d names = .error fault) :
    fault.Truthful names d := by
  rcases bind_eq_error_iff.1 h with hmake | ⟨made, hmade, h⟩
  · obtain ⟨e, he, hmake⟩ := exists_of_makeAll_eq_error hmake
    exact truthful_of_make he hmake
  · rcases bind_eq_error_iff.1 h with hassemble | ⟨root, -, hpure⟩
    · exact truthful_of_assemble hmade hassemble
    · cases hpure

end Tree
end BehaviorTrees
