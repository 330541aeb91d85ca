import BehaviorTrees.Proofs.Tree.Inventory
import BehaviorTrees.Proofs.Tree.Loading

/-!
# Ids of loaded nodes

A record shares no node between two links, but it is by their keys that it tells nodes apart, while
an entry may give its node an id of its own.  The ids of a loaded tree are distinct only if the
entries that are used have distinct ids.
-/

namespace BehaviorTrees

variable {σ : Type}

/-- The records of different keys to which links lead give their nodes different ids. -/
def TreeRecord.OwnIds (d : TreeRecord) (root : NodeId) : Prop :=
  ∀ k r k' r', d.Uses root k r → d.Uses root k' r' → r.id.getD k = r'.id.getD k' → k = k'

namespace Tree

variable {names : Catalog σ} {d : TreeRecord} {root : NodeId} {cs : List (Claim σ)} {t t' : Tree σ}

theorem Claims.id_eq {key : NodeId} {c : Claim σ} {r : NodeRecord} (h : Claims names d key c)
    (hr : d.nodes.find? key = some r) : c.node.id = r.id.getD key := by
  obtain ⟨-, r', blank, hr', -, hnode, -⟩ := h
  obtain rfl : r = r' := Option.some.inj (hr.symm.trans hr')
  rw [hnode]
  exact (laidOver_dress key r blank).id

theorem Outline.nodup_ids_iff (h : Outline names d [root] cs)
    (hkeys : (cs.map Claim.key).Nodup) : (cs.map (·.node.id)).Nodup ↔ d.OwnIds root := by
  have huse : ∀ c ∈ cs, ∃ r, d.Uses root c.key r ∧ c.node.id = r.id.getD c.key := by
    intro c hc
    obtain ⟨-, r, -, hr, -⟩ := h.claims c hc
    have hreaches := h.reaches (by simpa using TreeRecord.Reaches.root) c hc
    exact ⟨r, ⟨hreaches, hr⟩, (h.claims c hc).id_eq hr⟩
  constructor
  · intro hnodup k r k' r' hr hr' hid
    obtain ⟨c, hc, rfl⟩ := h.exists_of_reaches hr.1
    obtain ⟨c', hc', rfl⟩ := h.exists_of_reaches hr'.1
    rw [← (h.claims c hc).id_eq hr.2, ← (h.claims c' hc').id_eq hr'.2] at hid
    rw [List.inj_on_of_nodup_map hnodup hc hc' hid]
  · intro hown
    refine List.Nodup.map_on (fun c hc c' hc' hid => ?_) hkeys.of_map
    obtain ⟨r, hr, hcr⟩ := huse c hc
    obtain ⟨r', hr', hcr'⟩ := huse c' hc'
    have hkey := hown _ _ _ _ hr hr' (hcr.symm.trans (hid.trans hcr'))
    exact List.inj_on_of_nodup_map hkeys hc hc' hkey

/-- Loaded nodes have distinct ids, memories of their own and an entry each in a dump exactly if
the entries of the record that are used have distinct ids. -/
theorem loaded_ids_nodup_iff (hnames : names.MakesBlanks) (hload : t.load d names = .ok t')
    (hroot : d.root = some root) :
    ∃ n, t'.root = some n ∧ (n.ids.Nodup ↔ d.OwnIds root) ∧
      ((n.nodes.map fun m => (Scope.ofNode t'.id m.id).address).Nodup ↔ d.OwnIds root) ∧
      (t'.dump.nodes.size = n.nodes.length ↔ d.OwnIds root) := by
  obtain ⟨made, root?, hmade, hassemble, rfl⟩ := load_eq_ok_iff_exists_makeAll.1 hload
  have hwell := wellLinked_of_assemble hmade hassemble hroot
  obtain ⟨n, cs, hok, -, houtline, hkeys, hperm⟩ :=
    exists_assemble_eq_ok (hnames.ofRecord d) hmade hroot hwell
  obtain rfl : some n = root? := Except.ok.inj (hok.symm.trans hassemble)
  have hids : n.ids.Nodup ↔ d.OwnIds root :=
    hperm.nodup_iff.trans (houtline.nodup_ids_iff hkeys)
  have haddress : ∀ id : TreeId, (n.nodes.map fun m => (Scope.ofNode id m.id).address) =
      n.ids.map (Address.node id) := by simp [Node.ids, Scope.ofNode, Scope.address]
  refine ⟨n, rfl, hids, ?_, (size_nodes_dump_eq_iff rfl).trans hids⟩
  rw [haddress, List.nodup_map_iff fun a b h => (Address.node.inj h).2, hids]

/-! ## Two entries of one id -/

/-- Both children of the sequence are to have the id of the second. -/
def namesakes : TreeRecord := pairRecord { name := "Runner", id := some "b" } { name := "Failer" }

theorem loaded_ids_repeat :
    ∃ t' n, emptyTree.load namesakes ∅ = .ok t' ∧ t'.root = some n ∧ n.ids = ["s", "b", "b"] ∧
      ¬n.ids.Nodup ∧ t'.dump.nodes.keys = ["b", "s"] := by
  refine ⟨_, _, rfl, rfl, ?_, ?_, ?_⟩ <;> decide

theorem loaded_ids_nodup_iff_pair :
    steadyPair.OwnIds "s" ∧ ¬namesakes.OwnIds "s" ∧
      ∃ t' n, emptyTree.load steadyPair steadyNames = .ok t' ∧ t'.root = some n ∧
        t'.dump.nodes.size = n.nodes.length := by
  obtain ⟨t, n, hload, hn, hids⟩ : ∃ t n, emptyTree.load steadyPair steadyNames = .ok t ∧
      t.root = some n ∧ n.ids.Nodup := ⟨_, _, rfl, rfl, by decide⟩
  obtain ⟨t', n', hload', hn', hids'⟩ : ∃ t' n', emptyTree.load namesakes steadyNames = .ok t' ∧
      t'.root = some n' ∧ ¬n'.ids.Nodup := ⟨_, _, rfl, rfl, by decide⟩
  obtain ⟨m, hm, hiff, -, hsize⟩ := loaded_ids_nodup_iff steadyNames_makesBlanks hload rfl
  obtain ⟨m', hm', hiff', -⟩ := loaded_ids_nodup_iff steadyNames_makesBlanks hload' rfl
  obtain rfl : n = m := Option.some.inj (hn.symm.trans hm)
  obtain rfl : n' = m' := Option.some.inj (hn'.symm.trans hm')
  exact ⟨hiff.1 hids, fun hown => hids' (hiff'.2 hown), t, n, hload, hn,
    hsize.2 (hiff.1 hids)⟩

end Tree
end BehaviorTrees
