import Lowering.Flow.Reachability
import Lowering.Pass
import Lowering.Ssa.Func

/-!
# Pruning

Drops the blocks that control cannot reach and renumbers the others in order.  Phi entries for
dropped blocks go with them.
-/

namespace Lowering.Ssa

namespace Block

/-- Renames the blocks a block refers to. -/
def rename (names : Nat → Option Nat) (block : Block) : Except Fault Block :=
  match block.term.rename? names with
  | some term =>
      .ok
        { block with
          term
          phis := block.phis.map fun phi => { phi with incoming := phi.incoming.rename names } }
  | none => .error (.droppedTarget block.name)

end Block

namespace Func

/-- The function made of the marked blocks, renumbered. -/
def restrict (f : Func) (keep : List Bool) : Except Fault Func := do
  let names (block : Nat) : Option Nat := (compactIds keep)[block]?.join
  let kept := (f.blocks.zip keep).filterMap fun (block, kept) => if kept then some block else none
  let blocks ← kept.mapM (Block.rename names)
  return { f with blocks }

/-- Drops unreachable blocks; also gives their number.  A function without any stays as it is. -/
def prune (f : Func) : Pass (Func × Nat) := do
  let keep ← f.flow.reachable FlowGraph.entry
  let removed := keep.toList.countP (!·)
  if removed = 0 then return (f, 0)
  let pruned ← f.restrict keep.toList
  Pass.note .pruning s!"{f.name}: removed {removed} unreachable blocks"
  return (pruned, removed)

end Func

end Lowering.Ssa
