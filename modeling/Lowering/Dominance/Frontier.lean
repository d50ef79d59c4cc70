import Lowering.Dominance.Tree

/-!
# Dominance frontiers

The frontier of a block holds the joins just outside its reach: blocks with a predecessor that the
block dominates, and that it does not strictly dominate itself.
-/

namespace Lowering.DomTree

variable {n : Nat}

/-- Extends the chain of a block's immediate dominator by the block. -/
def extendChain (tree : DomTree n) (chains : Table n (List (Fin n))) (block : Fin n) :
    Table n (List (Fin n)) :=
  let above :=
    match tree.idom.get block with
    | some dominator => chains.get dominator
    | none => []
  chains.set block (block :: above)

/-- For each reachable block the path from it up to the root, both included; empty for the others. -/
def chains (tree : DomTree n) : Table n (List (Fin n)) :=
  tree.preorder.foldl tree.extendChain (Table.replicate n [])

/-- The blocks passed on the ways up from the predecessors of a join, before its immediate
dominator. -/
def passed (tree : DomTree n) (edges : Edges n) (chains : Table n (List (Fin n)))
    (join : Fin n) : List (Fin n) :=
  if tree.reachable.get join then
    (edges.preds.get join).flatMap fun pred =>
      (chains.get pred).takeWhile fun block => some block != tree.idom.get join
  else []

/-- The dominance frontier of every block, ascending; empty for unreachable blocks. -/
def frontiers (tree : DomTree n) (edges : Edges n) : Table n (List (Fin n)) :=
  let chains := tree.chains
  let passed := Table.tabulate (tree.passed edges chains)
  Table.tabulate fun block => (List.finRange n).filter fun join => (passed.get join).contains block

end Lowering.DomTree
