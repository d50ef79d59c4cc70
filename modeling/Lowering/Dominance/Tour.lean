import Lowering.Dominance.Tree

/-!
# Tours of a dominator tree

A tour enters every block before the blocks it dominates and leaves it behind them.
-/

namespace Lowering

inductive Visit (n : Nat) where
  | enter (block : Fin n)
  | leave (block : Fin n)
deriving DecidableEq, Repr

namespace Visit

variable {n : Nat}

/-- The visits that an agenda leads to; a block already entered is passed over. -/
def expand (children : Fin n → List (Fin n)) (marks : Search.Marks n) :
    List (Visit n) → List (Visit n)
  | [] => []
  | .leave block :: rest => .leave block :: expand children marks rest
  | .enter block :: rest =>
      if marks.get block then expand children marks rest
      else .enter block ::
        expand children (marks.set block true)
          ((children block).map Visit.enter ++ .leave block :: rest)
termination_by agenda => (marks.left, agenda.length)
decreasing_by
  · exact Prod.Lex.right _ (by simp)
  · exact Prod.Lex.right _ (by simp)
  · exact Prod.Lex.left _ _ (marks.left_set_lt block ‹_›)

end Visit

/-- The tour of a tree from its root, children in ascending order. -/
def DomTree.tour {n : Nat} (tree : DomTree n) : List (Visit n) :=
  if inside : tree.root < n then
    Visit.expand (fun block => tree.children.get block) (.none n) [.enter ⟨tree.root, inside⟩]
  else []

end Lowering
