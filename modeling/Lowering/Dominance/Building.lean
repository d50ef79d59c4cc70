import Lowering.Dominance.Tree
import Lowering.Pass

/-!
# Dominator trees as a pass
-/

namespace Lowering

/-- Builds a dominator tree and notes how many blocks it reaches; an empty graph goes unnoticed. -/
def DomTree.construct {n : Nat} (edges : Edges n) (entry : Nat) : Pass (DomTree n) := do
  let tree ← DomTree.build edges entry
  if n ≠ 0 then
    let reached := tree.preorder.length
    Pass.note .dominators s!"dominator tree: {reached} of {n} blocks reachable"
  return tree

end Lowering
