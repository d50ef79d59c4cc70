import Lowering.Flow.Graph
import Lowering.Table

/-!
# Edge tables

The successor and predecessor tables of a flow graph: every edge once, successors in the order of
their first occurrence, predecessors ascending.  Both tables are filled in one pass over the blocks,
in which the successors listed so far tell whether an edge is new.
-/

namespace Lowering

/-- Deduplicated edges over `n` blocks, indexed from both ends. -/
structure Edges (n : Nat) where
  succs : Table n (List (Fin n))
  preds : Table n (List (Fin n))
deriving DecidableEq, Repr

namespace Edges

variable {n : Nat}

def empty : Edges n := ⟨Table.replicate n [], Table.replicate n []⟩

/-- Lists an edge at both of its ends, unless its block has it among the successors. -/
def enter (block : Fin n) (edges : Edges n) (target : Fin n) : Edges n :=
  if (edges.succs.get block).contains target then edges
  else
    { succs := edges.succs.modify block (· ++ [target])
      preds := edges.preds.modify target (· ++ [block]) }

/-- Lists the edges of a block to its raw successors; one that is not a block is a fault. -/
def enterAll (block : Fin n) (edges : Edges n) : List Nat → Except Fault (Edges n)
  | [] => .ok edges
  | target :: rest =>
      if inside : target < n then enterAll block (edges.enter block ⟨target, inside⟩) rest
      else .error (.missingTarget block target)

/-- The tables of a flow graph whose successors are all blocks. -/
def build (graph : FlowGraph n) : Except Fault (Edges n) :=
  (List.finRange n).foldlM (fun edges block => edges.enterAll block (graph.succs block)) empty

/-- The tables as a flow graph again. -/
def toGraph (edges : Edges n) : FlowGraph n :=
  ⟨fun block => (edges.succs.get block).map Fin.val⟩

end Edges

end Lowering
