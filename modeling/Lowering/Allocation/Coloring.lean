import Lowering.Allocation.Round
import Lowering.MinQueue

/-!
# Coloring

Stacked registers are colored in the reverse order of stacking, each with the first color of the
pool that none of its neighbors has.  A register that finds no color is spilled.  Merged registers
share the color of their representative.
-/

namespace Lowering.Machine

/-- Colors of registers that are not physical, and the registers left without. -/
structure Coloring where
  colors : RegMap PhysReg
  spilled : List Reg

namespace Coloring

/-- The color of a register; a physical register is its own color. -/
def color? (coloring : Coloring) : Reg → Option PhysReg
  | .physical reg => some reg
  | reg => coloring.colors.get? reg

end Coloring

namespace Round

variable {m : Nat}

/-- Positions in the pool of the colors that a register's neighbors have. -/
def usedColors (round : Round m) (coloring : Coloring) (reg : Reg) : List Nat :=
  (round.graph.neighbors reg).filterMap fun neighbor =>
    (coloring.color? (round.representative neighbor)).bind round.pool.idxOf?

/-- Colors or spills one register. -/
def assign (round : Round m) (coloring : Coloring) (reg : Reg) : Coloring :=
  let used := (round.usedColors coloring reg).foldl MinQueue.push .empty
  let free := used.smallestAbsent.1
  match round.pool[free]? with
  | some color => { coloring with colors := coloring.colors.insert reg color }
  | none => { coloring with spilled := coloring.spilled ++ [reg] }

/-- Gives a merged register the color of its representative. -/
def share (round : Round m) (coloring : Coloring) (reg : Reg) : Coloring :=
  match coloring.color? (round.representative reg) with
  | some color => { coloring with colors := coloring.colors.insert reg color }
  | none => coloring

/-- The coloring of a finished round. -/
def assignColors (round : Round m) : Coloring :=
  round.merged.keys.foldl round.share (round.stack.foldl round.assign ⟨∅, []⟩)

/-- The places of the copies that were merged away. -/
def mergedSites (round : Round m) : List (Nat × Nat) :=
  (round.movesIn .coalesced).map fun move =>
    ((round.moves.get move).block, (round.moves.get move).index)

end Round

end Lowering.Machine
