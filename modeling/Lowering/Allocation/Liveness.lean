import Lowering.Flow.Edges
import Lowering.Flow.Search
import Lowering.Machine.Func

/-!
# Liveness

A register is live into a block if some path from the top of the block reaches a use of it before
any definition.  Each register is followed on its own: from the blocks that use it before they
define it, backwards through the blocks that do not define it.
-/

namespace Lowering.Machine

/-- A copy between tracked registers. -/
structure MoveSite where
  block : Nat
  /-- The position of the copy in its block. -/
  index : Nat
  dest : Reg
  src : Reg
deriving DecidableEq, Repr

/-- Adds the tracked ones of some registers to a live set. -/
def RegSet.addTracked (live : RegSet) (regs : List Reg) : RegSet :=
  (regs.filter Reg.isTracked).foldl (fun live reg => live.insert reg) live

def RegSet.removeAll (live : RegSet) (regs : List Reg) : RegSet :=
  regs.foldl (fun live reg => live.erase reg) live

/-- The registers live before an instruction, from those live after it. -/
def Instr.liveBefore (instr : Instr) (live : RegSet) : RegSet :=
  RegSet.addTracked (RegSet.removeAll live instr.defs) instr.uses

namespace Block

/-- The registers live at the top of a block, from those live at its end. -/
def transfer (block : Block) (liveOut : RegSet) : RegSet :=
  block.instrs.foldr Instr.liveBefore (RegSet.addTracked liveOut block.term.uses)

/-- The registers used before they are defined. -/
def exposed (block : Block) : RegSet := block.transfer ∅

def defines (block : Block) (reg : Reg) : Bool :=
  block.instrs.any fun instr => instr.defs.contains reg

/-- The copies between tracked registers in a block. -/
def moves (index : Nat) (block : Block) : List MoveSite :=
  (block.instrs.mapIdx fun position instr =>
    match instr with
    | .move dest src =>
        if dest.isTracked && src.isTracked then [⟨index, position, dest, src⟩] else []
    | _ => []).flatten

end Block

/-- What is live where in a function of `n` blocks. -/
structure Liveness (n : Nat) where
  liveIn : Table n RegSet
  liveOut : Table n RegSet
  /-- Copies between tracked registers, in program order. -/
  moves : List MoveSite

namespace Func

/-- The registers live at the top of a block of the function, from those live at its end. -/
def transferAt (f : Func) (block : Nat) (liveOut : RegSet) : Except Fault RegSet := do
  let found ← fetch f.blocks block
  found.instrs.forM Instr.arity
  return found.transfer liveOut

/-- The blocks that a register is live into. -/
def liveBlocks (f : Func) (edges : Edges f.blocks.length) (exposed : Table f.blocks.length RegSet)
    (reg : Reg) : List (Fin f.blocks.length) :=
  let through (block : Fin f.blocks.length) :=
    (edges.preds.get block).filter fun pred => !(f.blocks.get pred).defines reg
  Search.breadthFirst through (.none _)
    ((List.finRange f.blocks.length).filter fun block => (exposed.get block).contains reg)

/-- Live sets along known edges. -/
def livenessAlong (f : Func) (edges : Edges f.blocks.length) : Liveness f.blocks.length :=
  let exposed := Table.tabulate fun block => (f.blocks.get block).exposed
  let regs := f.regSet.toList.filter Reg.isTracked
  let liveIn := regs.foldl
    (fun table reg =>
      (f.liveBlocks edges exposed reg).foldl
        (fun table block => table.modify block fun live => live.insert reg) table)
    (Table.replicate f.blocks.length (∅ : RegSet))
  { liveIn
    liveOut := .tabulate fun block =>
      (edges.succs.get block).foldl (fun live succ => live.insertMany (liveIn.get succ)) ∅
    moves := (f.blocks.mapIdx Block.moves).flatten }

/-- The live sets of a function with proper jumps and calls. -/
def liveness (f : Func) : Except Fault (Liveness f.blocks.length) := do
  let edges ← Edges.build f.flow
  f.arity
  return f.livenessAlong edges

end Func

end Lowering.Machine
