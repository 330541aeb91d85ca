import BehaviorTrees.Proofs.Json.Reading
import BehaviorTrees.Proofs.Record.Decoding
import BehaviorTrees.Tree.Dump
import BehaviorTrees.Tree.Load

/-!
# Records as text

The text that is written for the record of a tree is read as this record.  Trees can therefore be
handed on as text just as well as in records.
-/

namespace BehaviorTrees

variable {σ τ : Type} {r : TreeRecord}

theorem TreeRecord.ofText?_pretty (hordered : r.Ordered) (hrange : r.json.Each Json.InRange)
    (hdepth : r.json.depth ≤ Document.roomForText) : ofText? r.json.pretty = some r := by
  rw [ofText?, Document.ofText?_pretty hrange, Option.bind_some]
  exact reads_json hordered hdepth

/-- A record is read as it was printed, and a tree is loaded from the text of a dump as it would
be from the dump itself. -/
theorem Tree.loadText_dumpText (hordered : r.Ordered) (hrange : r.json.Each Json.InRange)
    (hdepth : r.json.depth ≤ Document.roomForText) :
    TreeRecord.ofText? r.json.pretty = some r ∧
      ∀ (s : Tree σ) (t : Tree τ) (names : Catalog τ),
        s.dump = r → t.loadText s.dumpText names = t.load s.dump names := by
  have hread := TreeRecord.ofText?_pretty hordered hrange hdepth
  refine ⟨hread, fun s t names hdump => ?_⟩
  rw [loadText, dumpText, hdump, hread]

theorem Tree.loadText_dumpText_patrol :
    TreeRecord.patrol.Ordered ∧ TreeRecord.patrol.json.Each Json.InRange ∧
      TreeRecord.patrol.json.depth ≤ Document.roomForText ∧
      TreeRecord.ofText? TreeRecord.patrol.json.pretty = some TreeRecord.patrol := by
  have hrange : TreeRecord.patrol.json.Each Json.InRange := by decide
  have hdepth : TreeRecord.patrol.json.depth ≤ Document.roomForText := by decide
  have hread := (@loadText_dumpText Unit Unit _ TreeRecord.patrol_ordered hrange hdepth).1
  exact ⟨TreeRecord.patrol_ordered, hrange, hdepth, hread⟩

end BehaviorTrees
