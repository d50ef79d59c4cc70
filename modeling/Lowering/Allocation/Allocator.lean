import Lowering.Allocation.Coloring
import Lowering.Allocation.Spill
import Lowering.Machine.Check

/-!
# Register allocation

Rounds of coloring are repeated, with spill code in between, until a round needs no spill.  Its
colors are then written into the code, merged copies and copies of a register to itself are
dropped, and so are the adjustments of the stack pointer if the frame is empty.
-/

namespace Lowering.Machine

structure Allocator where
  /-- Registers that colors are drawn from; color `i` is the register at position `i`. -/
  pool : List PhysReg
  /-- Are copies merged at all? -/
  coalesce : Bool
  /-- How many rounds may be tried. -/
  maxRounds : Nat
deriving DecidableEq, Repr

/-- What an allocation did. -/
structure AllocationReport where
  rounds : Nat
  /-- Registers spilled over all rounds. -/
  spilled : Nat
  /-- Copies dropped because their operands were merged. -/
  coalesced : Nat
  /-- Copies dropped because both operands got the same color. -/
  selfMoves : Nat
deriving DecidableEq, Repr

/-- The report as a note shows it. -/
def AllocationReport.text (report : AllocationReport) : String :=
  "AllocationReport \x7b " ++
    s!"rounds: {report.rounds}, spilled: {report.spilled}, coalesced: {report.coalesced}, " ++
    s!"self_moves: {report.selfMoves}" ++ " \x7d"

namespace Allocator

def defaultMaxRounds : Nat := 256

/-- An allocator with a pool of its own.  An instruction may read two spilled registers, so the
pool has to hold two. -/
def new (pool : List PhysReg) : Except Fault Allocator :=
  if pool.length < 2 then .error (.poolTooSmall pool.length)
  else .ok ⟨pool, true, defaultMaxRounds⟩

/-- An allocator with the first registers of the common pool, all of them unless told otherwise. -/
def ofLimits (registers : Option Nat) (coalesce : Bool) (maxRounds : Nat) :
    Except Fault Allocator := do
  let allocator ← new (PhysReg.pool.take (registers.getD PhysReg.pool.length))
  return { allocator with coalesce, maxRounds }

end Allocator

/-- The color of a register of a function. -/
def paint (function : String) (colors : RegMap PhysReg) : Reg → Except Fault Reg
  | .physical reg => .ok (.physical reg)
  | .spilled slot => .error (.survivedSpill function slot)
  | .virtual number =>
      match colors.get? (.virtual number) with
      | some color => .ok (.physical color)
      | none => .error (.noColor function number)

/-- The color of a register, or the register itself without one. -/
def painted (colors : RegMap PhysReg) (reg : Reg) : Reg :=
  match reg with
  | .virtual _ => ((colors.get? reg).map Reg.physical).getD reg
  | _ => reg

/-- What is left of a colored instruction, and how many copies of a register to itself went. -/
def tidy (frameEmpty : Bool) (instr : Instr) : List Instr × Nat :=
  match instr with
  | .move dest src => if dest = src then ([], 1) else ([instr], 0)
  | .spGrow | .spRecover => (if frameEmpty then [] else [instr], 0)
  | _ => ([instr], 0)

namespace Func

/-- Colors the instructions of a block from position `index` on. -/
def colorInstrs (f : Func) (colors : RegMap PhysReg) (isMerged : Nat → Bool) (frameEmpty : Bool)
    (index : Nat) : List Instr → Except Fault (List Instr × Nat)
  | [] => .ok ([], 0)
  | instr :: rest => do
      if isMerged index then f.colorInstrs colors isMerged frameEmpty (index + 1) rest
      else
        let _ ← (instr.operandUses ++ instr.operandDef?.toList).mapM (paint f.name colors)
        let (first, dropped) := tidy frameEmpty (instr.mapRegs (painted colors))
        let (later, droppedLater) ←
          f.colorInstrs colors isMerged frameEmpty (index + 1) rest
        return (first ++ later, dropped + droppedLater)

/-- Colors blocks from number `index` on. -/
def colorBlocks (f : Func) (colors : RegMap PhysReg) (merged : List (Nat × Nat))
    (frameEmpty : Bool) (index : Nat) : List Block → Except Fault (List Block × Nat)
  | [] => .ok ([], 0)
  | block :: rest => do
      let (instrs, dropped) ←
        f.colorInstrs colors (fun i => merged.contains (index, i)) frameEmpty 0 block.instrs
      let _ ← block.term.operandUses.mapM (paint f.name colors)
      let term := block.term.mapRegs (painted colors)
      let (later, droppedLater) ← f.colorBlocks colors merged frameEmpty (index + 1) rest
      return ({ block with instrs, term } :: later, dropped + droppedLater)

/-- Writes colors into the code; also gives the number of copies of a register to itself that were
dropped. -/
def applyColors (f : Func) (colors : RegMap PhysReg) (merged : List (Nat × Nat)) :
    Except Fault (Func × Nat) := do
  let frame ← f.frameSize
  let (blocks, selfMoves) ← f.colorBlocks colors merged (frame == 0) 0 f.blocks
  return ({ f with blocks }, selfMoves)

end Func

namespace Allocator

/-- The copies a round of a function may merge. -/
def movesOf (allocator : Allocator) {n : Nat} (liveness : Liveness n) : List MoveSite :=
  if allocator.coalesce then liveness.moves else []

/-- A finished round of a function, with its coloring. -/
structure Attempt where
  coloring : Coloring
  /-- The places of the copies that were merged away. -/
  merged : List (Nat × Nat)

/-- Runs a round on the given graph and copies. -/
def attempt (allocator : Allocator) (graph : InterferenceGraph) (moves : List MoveSite) :
    Attempt :=
  let round := (Round.start allocator.pool graph (Table.tabulate moves.get)).run
  ⟨round.assignColors, round.mergedSites⟩

/-- One round on a function. -/
def round (allocator : Allocator) (f : Func) : Pass Attempt := do
  let liveness ← f.liveness
  let graph := f.interference liveness
  let nodes := graph.nodes.length
  let edges := graph.edgeCount
  Pass.note .interference (f.name ++ s!": interference graph with {nodes} nodes and {edges} edges")
  return allocator.attempt graph (allocator.movesOf liveness)

/-- Repeats rounds, at most `left` of them, until one needs no spill. -/
def rounds (allocator : Allocator) (f : Func) (report : AllocationReport) :
    Nat → Pass (Func × AllocationReport)
  | 0 => Pass.lift (.error (.noColoring f.name allocator.pool.length allocator.maxRounds))
  | left + 1 => do
      let attempt ← allocator.round f
      let report := { report with rounds := report.rounds + 1 }
      let spilled := attempt.coloring.spilled
      if spilled.isEmpty then
        let (colored, selfMoves) ← f.applyColors attempt.coloring.colors attempt.merged
        return (colored, { report with coalesced := attempt.merged.length, selfMoves })
      else
        let count := spilled.length
        Pass.note .allocation (f.name ++ s!": round {report.rounds} spills {count} registers")
        let (relieved, fresh) ← f.spill spilled
        let temps := fresh.length
        Pass.note .allocation (f.name ++ s!": spill code uses {temps} fresh registers")
        allocator.rounds relieved { report with spilled := report.spilled + count } left

/-- Gives every virtual register of a function a register of the pool or a place in the frame. -/
def allocate (allocator : Allocator) (f : Func) : Pass (Func × AllocationReport) := do
  let regs ← f.registers
  match regs.findSome? Reg.slot? with
  | some slot => Pass.lift (.error (.spilledInput f.name slot))
  | none =>
      let reserved ← f.reserveVirtuals
      let (allocated, report) ← allocator.rounds reserved ⟨0, 0, 0, 0⟩ allocator.maxRounds
      match ← allocated.checkAllocated with
      | .error objection => Pass.lift (.error (.rejected objection.message))
      | .ok () =>
          let frame ← allocated.frameSize
          Pass.note .allocation (f.name ++
            s!": allocated in {report.rounds} rounds, {report.spilled} spilled, {report.coalesced} moves coalesced, frame {frame} bytes")
          return (allocated, report)

end Allocator

end Lowering.Machine
