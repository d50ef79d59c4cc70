import Lowering.Dominance.Building
import Lowering.Dominance.Frontier
import Lowering.Ssa.Promotion.Renaming
import Lowering.Ssa.Promotion.Slots
import Lowering.Ssa.Pruning

/-!
# Promotion of stack slots

Turns slots that are only loaded from and stored to into values: phis are placed at the joins of
their stores, a tour of the dominator tree removes their accesses, and the results of removed loads
are replaced by what they stand for.
-/

namespace Lowering.Ssa

/-- What a promotion did. -/
structure PromotionStats where
  /-- The promoted slots, by the value of their `alloca`. -/
  slots : List Nat
  phis : Nat
  loads : Nat
  stores : Nat
deriving DecidableEq, Repr

namespace Func

/-- Renames the accesses to the promoted slots along a tour of the dominator tree. -/
def renamed (f : Func) (slots : List Nat) (edges : Edges f.blocks.length)
    (tree : DomTree f.blocks.length)
    (placed : List (PlacedPhi f.blocks.length slots.length)) :
    Except Fault (Renaming f.blocks.length slots.length) :=
  tree.tour.foldlM (Renaming.visit (slotOf? slots) edges placed)
    (.start placed fun block => (f.blocks.get block).insts)

/-- The blocks with their phis and kept instructions, every operand resolved. -/
def rebuilt (f : Func) {k : Nat} (placed : List (PlacedPhi f.blocks.length k))
    (outcome : Renaming f.blocks.length k) : List Block :=
  let fuel := outcome.aliases.size
  List.ofFn fun block =>
    let old := f.blocks.get block
    let phis := (placed.filter fun phi => phi.block == block).map fun phi =>
      ({ dest := phi.dest, incoming := outcome.incoming.getD phi.dest .empty } : Phi)
    let new := { old with phis := old.phis ++ phis, insts := outcome.insts.get block }
    new.mapOperands (resolve outcome.aliases fuel)

/-- Promotes slots of a function whose blocks are all reachable. -/
def promoteSlots (f : Func) (slots : List Nat) (edges : Edges f.blocks.length)
    (tree : DomTree f.blocks.length) : Except Fault (Func × PromotionStats) := do
  let sites := f.phiSites slots (tree.frontiers edges)
  let (placed, nextValue) ← numberPhis f.nextValue sites
  let outcome ← f.renamed slots edges tree placed
  let promoted := { f with blocks := f.rebuilt placed outcome, nextValue }
  return (promoted, ⟨slots, placed.length, outcome.loads, outcome.stores⟩)

/-- Drops unreachable blocks and promotes the slots that can be. -/
def promote (f : Func) : Pass (Func × PromotionStats) := do
  let (pruned, _) ← f.prune
  let f ← pruned.reserveValues
  let slots := f.promotableSlots
  if slots.isEmpty then return (f, ⟨[], 0, 0, 0⟩)
  let edges ← Edges.build f.flow
  let tree ← DomTree.construct edges FlowGraph.entry
  let (promoted, stats) ← f.promoteSlots slots edges tree
  let count := slots.length
  Pass.note .promotion (f.name ++
    s!": promoted {count} slots, {stats.phis} phis, removed {stats.loads} loads and {stats.stores} stores")
  return (promoted, stats)

end Func

end Lowering.Ssa
