import Lowering.Flow.Graph
import Lowering.Flow.Search

/-!
# Reachability

Which blocks control can reach, found breadth first on the raw successor lists, and the numbering
of the blocks that are kept when the others are dropped.
-/

namespace Lowering

namespace FlowGraph

variable {n : Nat}

/-- The blocks reached from a start block, in breadth-first order; strays are passed over. -/
def reached (graph : FlowGraph n) (start : Fin n) : List (Fin n) :=
  Search.breadthFirst graph.targets (.none n) [start]

/-- Marks the blocks reachable from `start`.  A start block or a reached successor that is not a
block is a fault; of several such successors the first one met breadth first is reported. -/
def reachable (graph : FlowGraph n) (start : Nat) : Except Fault (Table n Bool) :=
  if n = 0 then .ok (Table.replicate n false)
  else if inside : start < n then
    let order := graph.reached ⟨start, inside⟩
    match order.findSome? graph.stray? with
    | some target => .error (.outOfBounds n target)
    | none => .ok (Table.tabulate fun block => order.contains block)
  else .error (.outOfBounds n start)

end FlowGraph

/-- Numbers the kept entries from `next` on and leaves the others without a number. -/
def compactFrom (next : Nat) : List Bool → List (Option Nat)
  | [] => []
  | true :: rest => some next :: compactFrom (next + 1) rest
  | false :: rest => none :: compactFrom next rest

/-- The new number of each block once the blocks marked `false` are dropped. -/
def compactIds (keep : List Bool) : List (Option Nat) := compactFrom 0 keep

end Lowering
