import BehaviorTrees.Text.Quoted
import BehaviorTrees.Tree

/-!
# Descriptions

One-line texts that tell trees and catalogs apart in a report.
-/

namespace BehaviorTrees

variable {σ : Type}

/-- Names the type of the root, not its title. -/
def Tree.describe (t : Tree σ) : String :=
  let root := match t.root with
    | some n => "Some(" ++ Text.quote n.name ++ ")"
    | none => "None"
  "BehaviorTree \x7b id: TreeId(" ++ Text.quote t.id ++ "), title: " ++ Text.quote t.title ++
    ", root: " ++ root ++ " \x7d"

def Catalog.describe (c : Catalog σ) : String :=
  "Registry \x7b names: [" ++ ", ".intercalate (c.keys.map Text.quote) ++ "] \x7d"

end BehaviorTrees
