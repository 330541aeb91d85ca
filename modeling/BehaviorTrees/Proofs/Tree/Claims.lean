import BehaviorTrees.Proofs.Record.Links
import Mathlib.Algebra.Order.Group.Multiset
import Mathlib.Data.List.Perm.Subperm
import Mathlib.Tactic.Abel

/-!
# Claims

While the links of a record are followed, the nodes they lead to are claimed.  The claims on trees
that stand side by side, each after those on the nodes below it, make an `Outline`.  Claiming from a
root succeeds exactly if the record is well linked, and then gives the outline of one tree, in which
every key that links lead to is claimed once.
-/

namespace BehaviorTrees.Tree

variable {σ : Type} {names : Catalog σ} {d : TreeRecord} {nodes : KeyMap NodeRecord}
  {made : List (String × Node σ)} {key root : NodeId} {keys stack : List NodeId} {c : Claim σ}
  {claimed cs : List (Claim σ)} {left : Nat}

/-! ## Making nodes -/

theorem make_eq_ok_iff {r : NodeRecord} {n : Node σ} :
    make names key r = .ok n ↔ ∃ blank, names.Makes r blank ∧ n = dress key r blank := by
  simp only [make, Catalog.Makes, ← Catalog.resolve?_eq_some_iff]
  cases names.resolve? r.name with
  | none => simp
  | some factory =>
      cases hmade : factory r.properties with
      | error fault => simp [hmade]
      | ok blank => simp [hmade, eq_comm]

theorem makeAll_eq_ok_iff {entries : List (String × NodeRecord)} :
    makeAll names entries = .ok made ↔
      List.Forall₂ (fun e m => m.1 = e.1 ∧ make names e.1 e.2 = .ok m.2) entries made := by
  induction entries generalizing made with
  | nil => simp [makeAll, eq_comm]
  | cons e rest ih =>
      obtain ⟨k, r⟩ := e
      simp only [makeAll, bind_eq_ok_iff, ih, List.forall₂_cons_left_iff]
      constructor
      · rintro ⟨n, hn, made', hmade, heq⟩
        exact ⟨(k, n), made', ⟨rfl, hn⟩, hmade, (Except.ok.inj heq).symm⟩
      · rintro ⟨⟨k', n⟩, made', ⟨rfl, hn⟩, hmade, rfl⟩
        exact ⟨n, hn, made', hmade, rfl⟩

theorem exists_makeAll_eq_ok_iff {entries : List (String × NodeRecord)} :
    (∃ made, makeAll names entries = .ok made) ↔ ∀ e ∈ entries, ∃ n, names.Makes e.2 n := by
  simp only [makeAll_eq_ok_iff]
  induction entries with
  | nil => exact ⟨by simp, fun _ => ⟨[], .nil⟩⟩
  | cons e rest ih =>
      simp only [List.forall₂_cons_left_iff, List.forall_mem_cons, ← ih, make_eq_ok_iff]
      constructor
      · rintro ⟨-, m, made, ⟨-, n, hn, -⟩, hmade, -⟩
        exact ⟨⟨n, hn⟩, made, hmade⟩
      · rintro ⟨⟨n, hn⟩, made, hmade⟩
        exact ⟨_, (e.1, dress e.1 e.2 n), made, ⟨rfl, n, hn, rfl⟩, hmade, rfl⟩

theorem lookup_of_makeAll {entries : List (String × NodeRecord)}
    (h : makeAll names entries = .ok made) {n : Node σ} :
    made.lookup key = some n ↔ ∃ r, entries.lookup key = some r ∧ make names key r = .ok n := by
  rw [makeAll_eq_ok_iff] at h
  induction h with
  | nil => simp
  | @cons e m entries made hem _ ih =>
      obtain ⟨k, r⟩ := e
      obtain ⟨k', n'⟩ := m
      obtain ⟨rfl, hn'⟩ := hem
      rw [Entries.lookup_cons_eq, Entries.lookup_cons_eq]
      by_cases hkey : key = k'
      · subst hkey
        simp [hn']
      · simp [hkey, ih]

/-! ## Single claims -/

/-- A claim on the node of a key, whose links are in order. -/
def Claims (names : Catalog σ) (d : TreeRecord) (key : NodeId) (c : Claim σ) : Prop :=
  c.key = key ∧ ∃ r blank, d.nodes.find? key = some r ∧ names.Makes r blank ∧
    c.node = dress key r blank ∧ blank.category.CanHold r ∧ c.links = r.linked ∧
      ∀ child ∈ r.linked, d.nodes.contains child = true

theorem missing?_eq_none_iff {links : List NodeId} :
    missing? nodes links = none ↔ ∀ child ∈ links, nodes.contains child = true := by
  simp [missing?]

theorem category_dress (key : NodeId) (r : NodeRecord) (n : Node σ) :
    (dress key r n).category = n.category := by
  simp [dress]

theorem claim_eq_ok_iff (hmade : makeAll names d.nodes.entries = .ok made) :
    claim d.nodes made key = .ok c ↔ Claims names d key c := by
  constructor
  · intro h
    rw [claim] at h
    split at h
    · rename_i r n hr hn
      obtain ⟨r', hr', hmake⟩ := (lookup_of_makeAll hmade).1 hn
      obtain rfl : r = r' := Option.some.inj (hr.symm.trans hr')
      obtain ⟨blank, hblank, rfl⟩ := make_eq_ok_iff.1 hmake
      obtain ⟨links, hlinks, h⟩ := bind_eq_ok_iff.1 h
      rw [category_dress, NodeRecord.links_eq_ok_iff] at hlinks
      obtain ⟨hhold, rfl⟩ := hlinks
      split at h
      · cases h
      · rename_i hnone
        obtain rfl := Except.ok.inj h
        exact ⟨rfl, r, blank, hr, hblank, rfl, hhold, rfl, missing?_eq_none_iff.1 hnone⟩
    · cases h
  · rintro ⟨hkey, r, blank, hr, hblank, hnode, hhold, hlinks, hkeys⟩
    have hlookup : made.lookup key = some (dress key r blank) :=
      (lookup_of_makeAll hmade).2 ⟨r, hr, make_eq_ok_iff.2 ⟨blank, hblank, rfl⟩⟩
    have hok : r.links key (dress key r blank).category = .ok r.linked := by
      rw [category_dress, NodeRecord.links_eq_ok_iff]
      exact ⟨hhold, rfl⟩
    have hnone : missing? d.nodes r.linked = none := missing?_eq_none_iff.2 hkeys
    obtain ⟨key', links, node⟩ := c
    obtain ⟨rfl, rfl, rfl⟩ : key' = key ∧ node = dress key r blank ∧ links = r.linked :=
      ⟨hkey, hnode, hlinks⟩
    simp [claim, hr, hlookup, hok, hnone, bind, Except.bind]

/-! ## Outlines -/

/-- The claims on the trees of some keys, side by side, each after those on the nodes below it. -/
inductive Outline (names : Catalog σ) (d : TreeRecord) : List NodeId → List (Claim σ) → Prop
  | nil : Outline names d [] []
  | cons {key : NodeId} {keys : List NodeId} {c : Claim σ} {below later : List (Claim σ)}
      (hc : Claims names d key c) (hbelow : Outline names d c.links below)
      (hlater : Outline names d keys later) : Outline names d (key :: keys) (below ++ c :: later)

namespace Outline

theorem append (h : Outline names d keys cs) {keys' : List NodeId} {cs' : List (Claim σ)}
    (h' : Outline names d keys' cs') : Outline names d (keys ++ keys') (cs ++ cs') := by
  induction h with
  | nil => exact h'
  | cons hc hbelow _ _ ih =>
      rw [List.append_assoc]
      exact .cons hc hbelow ih

theorem of_append {keys' : List NodeId} (h : Outline names d (keys ++ keys') cs) :
    ∃ front back, cs = front ++ back ∧ Outline names d keys front ∧
      Outline names d keys' back := by
  induction keys generalizing cs with
  | nil => exact ⟨[], cs, rfl, .nil, h⟩
  | cons key keys ih =>
      cases h with
      | @cons _ _ c below later hc hbelow hlater =>
          obtain ⟨front, back, rfl, hfront, hback⟩ := ih hlater
          exact ⟨below ++ c :: front, back, by simp, .cons hc hbelow hfront, hback⟩

/-- A node is claimed for being the root of a tree, or by a link of another claim. -/
theorem keys_perm (h : Outline names d keys cs) :
    (cs.map Claim.key).Perm (keys ++ cs.flatMap Claim.links) := by
  induction h with
  | nil => simp
  | @cons key keys c below later hc _ _ ihbelow ihlater =>
      obtain rfl : c.key = key := hc.1
      simp only [List.map_append, List.map_cons, List.flatMap_append, List.flatMap_cons,
        List.cons_append]
      refine (List.Perm.append ihbelow (ihlater.cons c.key)).trans ?_
      rw [← Multiset.coe_eq_coe]
      simp only [← Multiset.coe_add, ← Multiset.cons_coe, Multiset.add_cons]
      rw [Multiset.cons_inj_right]
      abel

theorem claims (h : Outline names d keys cs) : ∀ c ∈ cs, Claims names d c.key c := by
  induction h with
  | nil => simp
  | @cons key keys c below later hc _ _ ihbelow ihlater =>
      intro c' hc'
      rcases List.mem_append.1 hc' with hc' | hc'
      · exact ihbelow c' hc'
      · rcases List.mem_cons.1 hc' with rfl | hc'
        · rw [hc.1]
          exact hc
        · exact ihlater c' hc'

end Outline

/-! ## Claiming -/

theorem any_key_iff {key : NodeId} :
    claimed.any (·.key = key) = true ↔ key ∈ claimed.map Claim.key := by
  simp

theorem claimAll_cons {rest : List NodeId} (hmade : makeAll names d.nodes.entries = .ok made) :
    claimAll d.nodes made (left + 1) (key :: rest) claimed = .ok cs ↔
      key ∉ claimed.map Claim.key ∧ ∃ c, Claims names d key c ∧
        claimAll d.nodes made left (c.links.reverse ++ rest) (c :: claimed) = .ok cs := by
  rw [claimAll, ← any_key_iff]
  by_cases hany : claimed.any (·.key = key) = true
  · simp [hany]
  · rw [if_neg hany, bind_eq_ok_iff]
    simp only [hany, Bool.false_eq_true, not_false_eq_true, true_and, claim_eq_ok_iff hmade]

/-- What is claimed from now on outlines the trees of the keys on the stack. -/
theorem outline_of_claimAll (hmade : makeAll names d.nodes.entries = .ok made)
    (h : claimAll d.nodes made left stack claimed = .ok cs)
    (hclaimed : (claimed.map Claim.key).Nodup) :
    ∃ new, cs = new ++ claimed ∧ Outline names d stack.reverse new ∧
      (cs.map Claim.key).Nodup := by
  induction left generalizing stack claimed with
  | zero =>
      cases stack with
      | nil =>
          obtain rfl : claimed = cs := by simpa [claimAll] using h
          exact ⟨[], rfl, .nil, hclaimed⟩
      | cons key rest => cases h
  | succ left ih =>
      cases stack with
      | nil =>
          obtain rfl : claimed = cs := by simpa [claimAll] using h
          exact ⟨[], rfl, .nil, hclaimed⟩
      | cons key rest =>
          obtain ⟨hfresh, c, hc, h⟩ := (claimAll_cons hmade).1 h
          have hclaimed' : ((c :: claimed).map Claim.key).Nodup :=
            List.nodup_cons.2 ⟨hc.1 ▸ hfresh, hclaimed⟩
          obtain ⟨new, rfl, houtline, hnodup⟩ := ih h hclaimed'
          -- below `c` comes first, and only then the rest of the stack
          rw [List.reverse_append, List.reverse_reverse] at houtline
          obtain ⟨front, back, rfl, hfront, hback⟩ := houtline.of_append
          refine ⟨front ++ (back ++ [c]), by simp, ?_, hnodup⟩
          rw [List.reverse_cons]
          exact hfront.append (.cons hc hback .nil)

/-! ## Claims and reachable keys -/

theorem Claims.links_eq {r : NodeRecord} (h : Claims names d key c)
    (hr : d.nodes.find? key = some r) : c.links = r.linked := by
  obtain ⟨-, r', -, hr', -, -, -, hlinks, -⟩ := h
  rw [hlinks, Option.some.inj (hr'.symm.trans hr)]

theorem Outline.exists_of_reaches (h : Outline names d [root] cs) (hkey : d.Reaches root key) :
    ∃ c ∈ cs, c.key = key := by
  have hmem : key ∈ cs.map Claim.key := by
    induction hkey with
    | root => exact h.keys_perm.symm.subset (by simp)
    | @link k child r _ hr hchild ih =>
        obtain ⟨c, hc, rfl⟩ := List.mem_map.1 ih
        refine h.keys_perm.symm.subset (List.mem_append_right _ (List.mem_flatMap.2 ⟨c, hc, ?_⟩))
        rw [(h.claims c hc).links_eq hr]
        exact hchild
  obtain ⟨c, hc, rfl⟩ := List.mem_map.1 hmem
  exact ⟨c, hc, rfl⟩

theorem Outline.reaches (h : Outline names d keys cs) (hkeys : ∀ key ∈ keys, d.Reaches root key) :
    ∀ c ∈ cs, d.Reaches root c.key := by
  induction h with
  | nil => simp
  | @cons key keys c below later hc _ _ ihbelow ihlater =>
      have hself : d.Reaches root c.key := hc.1 ▸ hkeys key (by simp)
      obtain ⟨r, -, hr, -, -, -, hlinks, -⟩ := hc.2
      intro c' hc'
      rcases List.mem_append.1 hc' with hc' | hc'
      · refine ihbelow (fun child hchild => ?_) c' hc'
        exact .link hself (hc.1 ▸ hr) (hlinks ▸ hchild)
      · rcases List.mem_cons.1 hc' with rfl | hc'
        · exact hself
        · exact ihlater (fun k hk => hkeys k (by simp [hk])) c' hc'

/-- Where no key is claimed twice, the links make a tree. -/
theorem Outline.wellLinked (h : Outline names d [root] cs) (hnodup : (cs.map Claim.key).Nodup) :
    d.WellLinked names root := by
  have hlinks : (root :: cs.flatMap Claim.links).Nodup := h.keys_perm.nodup_iff.1 hnodup
  obtain ⟨hroot, hlinks⟩ := List.nodup_cons.1 hlinks
  obtain ⟨honce, hdisjoint⟩ := List.nodup_flatMap.1 hlinks
  have hused : ∀ k r, d.Uses root k r → ∃ c ∈ cs, c.key = k ∧ Claims names d k c ∧
      c.links = r.linked := by
    rintro k r ⟨hk, hr⟩
    obtain ⟨c, hc, rfl⟩ := h.exists_of_reaches hk
    exact ⟨c, hc, rfl, h.claims c hc, (h.claims c hc).links_eq hr⟩
  constructor
  case isKey =>
    obtain ⟨c, hc, rfl⟩ := h.exists_of_reaches .root
    obtain ⟨-, r, -, hr, -⟩ := h.claims c hc
    exact KeyMap.contains_iff.2 ⟨r, hr⟩
  case canHold =>
    intro k r n hr hn
    obtain ⟨c, -, -, ⟨-, r', blank, hr', hblank, -, hhold, -⟩, -⟩ := hused k r hr
    obtain rfl : r = r' := Option.some.inj (hr.2.symm.trans hr')
    rwa [hn.eq hblank]
  case linkedIsKey =>
    intro k r hr child hchild
    obtain ⟨c, -, -, ⟨-, r', -, hr', -, -, -, -, hkeys⟩, -⟩ := hused k r hr
    obtain rfl : r = r' := Option.some.inj (hr.2.symm.trans hr')
    exact hkeys child hchild
  case linkedOnce =>
    intro k r hr
    obtain ⟨c, hc, -, -, heq⟩ := hused k r hr
    exact heq ▸ honce c hc
  case parent_unique =>
    intro k r k' r' hr hr' child hchild hchild'
    obtain ⟨c, hc, rfl, -, heq⟩ := hused k r hr
    obtain ⟨c', hc', rfl, -, heq'⟩ := hused k' r' hr'
    by_contra hne
    have : Std.Symm (Function.onFun List.Disjoint (Claim.links (σ := σ))) :=
      ⟨fun _ _ => List.Disjoint.symm⟩
    have hcc' : c ≠ c' := fun h => hne (congrArg Claim.key h)
    exact hdisjoint.forall hc hc' hcc' (heq ▸ hchild) (heq' ▸ hchild')
  case root_notLinked =>
    intro k r hr hlinked
    obtain ⟨c, hc, -, -, heq⟩ := hused k r hr
    exact hroot (List.mem_flatMap.2 ⟨c, hc, heq ▸ hlinked⟩)

/-! ## Claiming along the links -/

/-- What is claimed and what is on the stack while links are followed, whether or not they make a
tree: the keys of both are the root and what the claims link, each as often. -/
structure Pursuing (names : Catalog σ) (d : TreeRecord) (root : NodeId) (left : Nat)
    (stack : List NodeId) (claimed : List (Claim σ)) : Prop where
  reaches : ∀ key ∈ stack, d.Reaches root key ∧ d.nodes.contains key = true
  claims : ∀ c ∈ claimed, d.Reaches root c.key ∧ Claims names d c.key c
  nodup : (claimed.map Claim.key).Nodup
  linked : (stack ++ claimed.map Claim.key).Perm (root :: claimed.flatMap Claim.links)
  left : left + claimed.length = d.nodes.size

theorem exists_claims (hwell : d.WellLinked names root)
    (hmakes : ∀ e ∈ d.nodes.entries, ∃ n, names.Makes e.2 n) (hkey : d.Reaches root key) :
    ∃ c, Claims names d key c := by
  obtain ⟨r, hr⟩ := hwell.exists_uses hkey
  obtain ⟨blank, hblank⟩ := hmakes (key, r) (KeyMap.find?_eq_some_iff.1 hr.2)
  exact ⟨⟨key, r.linked, dress key r blank⟩, rfl, r, blank, hr.2, hblank, rfl,
    hwell.canHold key r blank hr hblank, rfl, hwell.linkedIsKey key r hr⟩

namespace Pursuing

theorem start (h : d.nodes.contains root = true) :
    Pursuing names d root d.nodes.size [root] [] where
  reaches := by simpa using ⟨.root, h⟩
  claims := by simp
  nodup := .nil
  linked := by simp
  left := by simp

theorem step {rest : List NodeId} (h : Pursuing names d root (left + 1) (key :: rest) claimed)
    (hfresh : key ∉ claimed.map Claim.key) (hc : Claims names d key c) :
    Pursuing names d root left (c.links.reverse ++ rest) (c :: claimed) := by
  obtain ⟨hreach, hkey⟩ := h.reaches key List.mem_cons_self
  have hclaim := hc
  obtain ⟨rfl, r, blank, hr, -, -, -, hlinks, hkeys⟩ := hclaim
  constructor
  case reaches =>
    intro k hk
    rcases List.mem_append.1 hk with hk | hk
    · have hk := hlinks ▸ List.mem_reverse.1 hk
      exact ⟨.link hreach hr hk, hkeys k hk⟩
    · exact h.reaches k (List.mem_cons_of_mem _ hk)
  case claims =>
    intro c' hc'
    rcases List.mem_cons.1 hc' with rfl | hc'
    · exact ⟨hreach, hc⟩
    · exact h.claims c' hc'
  case nodup => exact List.nodup_cons.2 ⟨hfresh, h.nodup⟩
  case linked =>
    calc
      (c.links.reverse ++ rest ++ (c :: claimed).map Claim.key).Perm
          (c.links ++ (c.key :: rest ++ claimed.map Claim.key)) := by
        rw [List.map_cons, List.append_assoc]
        exact c.links.reverse_perm.append List.perm_middle
      List.Perm _ (c.links ++ root :: claimed.flatMap Claim.links) := h.linked.append_left _
      List.Perm _ (root :: (c :: claimed).flatMap Claim.links) := List.perm_middle
  case left =>
    have := h.left
    rw [List.length_cons]
    omega

/-- With nothing left to be claimed, every entry of the record has been. -/
theorem head_mem {rest : List NodeId} (h : Pursuing names d root 0 (key :: rest) claimed) :
    key ∈ claimed.map Claim.key := by
  have hsub : claimed.map Claim.key ⊆ d.nodes.keys := by
    intro k hk
    obtain ⟨c, hc, rfl⟩ := List.mem_map.1 hk
    obtain ⟨-, -, r, -, hr, -⟩ := h.claims c hc
    exact KeyMap.contains_iff_mem_keys.1 (KeyMap.contains_iff.2 ⟨r, hr⟩)
  have hlength : d.nodes.keys.length ≤ (claimed.map Claim.key).length := by
    have := h.left
    simp only [KeyMap.keys, KeyMap.size, List.length_map] at this ⊢
    omega
  have hperm := (List.subperm_of_subset h.nodup hsub).perm_of_length_le hlength
  exact hperm.symm.subset
    (KeyMap.contains_iff_mem_keys.1 (h.reaches key List.mem_cons_self).2)

/-- In a well-linked record what was claimed links no key twice, and not the root. -/
theorem nodup_links (hwell : d.WellLinked names root)
    (h : Pursuing names d root left stack claimed) :
    (root :: claimed.flatMap Claim.links).Nodup := by
  have hused : ∀ c ∈ claimed, ∃ r, d.Uses root c.key r ∧ c.links = r.linked := by
    intro c hc
    obtain ⟨hreach, hclaims⟩ := h.claims c hc
    obtain ⟨r, hr⟩ := hwell.exists_uses hreach
    exact ⟨r, hr, hclaims.links_eq hr.2⟩
  refine List.nodup_cons.2 ⟨fun hroot => ?_, List.nodup_flatMap.2 ⟨fun c hc => ?_, ?_⟩⟩
  · obtain ⟨c, hc, hlinked⟩ := List.mem_flatMap.1 hroot
    obtain ⟨r, hr, heq⟩ := hused c hc
    exact hwell.root_notLinked c.key r hr (heq ▸ hlinked)
  · obtain ⟨r, hr, heq⟩ := hused c hc
    exact heq ▸ hwell.linkedOnce c.key r hr
  · refine (List.pairwise_map.1 h.nodup).imp_of_mem fun hc hc' hne child hchild hchild' => ?_
    obtain ⟨r, hr, heq⟩ := hused _ hc
    obtain ⟨r', hr', heq'⟩ := hused _ hc'
    exact hne (hwell.parent_unique _ _ _ _ hr hr' child (heq ▸ hchild) (heq' ▸ hchild'))

theorem head_notMem (hwell : d.WellLinked names root) {rest : List NodeId}
    (h : Pursuing names d root left (key :: rest) claimed) : key ∉ claimed.map Claim.key := by
  have hnodup := h.linked.nodup_iff.2 (h.nodup_links hwell)
  exact fun hmem => (List.nodup_cons.1 hnodup).1 (List.mem_append_right _ hmem)

theorem exists_claimAll (hmade : makeAll names d.nodes.entries = .ok made)
    (hwell : d.WellLinked names root) (h : Pursuing names d root left stack claimed) :
    ∃ cs, claimAll d.nodes made left stack claimed = .ok cs := by
  have hmakes := exists_makeAll_eq_ok_iff.1 ⟨made, hmade⟩
  induction left generalizing stack claimed with
  | zero =>
      cases stack with
      | nil => exact ⟨claimed, by simp [claimAll]⟩
      | cons key rest => exact absurd h.head_mem (h.head_notMem hwell)
  | succ left ih =>
      cases stack with
      | nil => exact ⟨claimed, by simp [claimAll]⟩
      | cons key rest =>
          obtain ⟨c, hc⟩ := exists_claims hwell hmakes (h.reaches key List.mem_cons_self).1
          have hfresh := h.head_notMem hwell
          obtain ⟨cs, hcs⟩ := ih (h.step hfresh hc)
          exact ⟨cs, (claimAll_cons hmade).2 ⟨hfresh, c, hc, hcs⟩⟩

end Pursuing

/-- Claiming succeeds exactly where the links make a tree. -/
theorem exists_claimAll_iff (hmade : makeAll names d.nodes.entries = .ok made) :
    (∃ cs, claimAll d.nodes made d.nodes.size [root] [] = .ok cs) ↔ d.WellLinked names root := by
  constructor
  · rintro ⟨cs, hcs⟩
    obtain ⟨new, rfl, houtline, hnodup⟩ := outline_of_claimAll hmade hcs List.nodup_nil
    rw [List.append_nil] at hnodup
    exact houtline.wellLinked hnodup
  · intro hwell
    exact (Pursuing.start (hwell.isKey_of_reaches .root)).exists_claimAll hmade hwell

end BehaviorTrees.Tree
