import Lowering.Flow.Graph
import Lowering.Machine.Instr
import Lowering.Width
import Std.Data.TreeMap
import Std.Data.TreeSet

/-!
# Machine functions

A list of labelled blocks, the number of stack slots of the frame, and the next virtual register to
hand out.
-/

namespace Lowering

/-- A set of registers, listed in register order. -/
abbrev RegSet := Std.TreeSet Reg Reg.order

/-- A map from registers. -/
abbrev RegMap (α : Type) := Std.TreeMap Reg α Reg.order

namespace Machine

structure Block where
  label : String
  instrs : List Instr
  term : Terminator
deriving DecidableEq, Repr

namespace Block

/-- Every register that a block mentions. -/
def regs (block : Block) : List Reg :=
  block.instrs.flatMap (fun instr => instr.uses ++ instr.defs) ++ block.term.uses

def mapRegs (f : Reg → Reg) (block : Block) : Block :=
  { block with instrs := block.instrs.map (Instr.mapRegs f), term := block.term.mapRegs f }

end Block

structure Func where
  name : String
  blocks : List Block
  /-- The number of 4-byte slots in the frame. -/
  slots : Nat
  /-- The next virtual register to hand out. -/
  nextVirtual : Nat
deriving DecidableEq, Repr

/-- Bytes of a slot. -/
def wordSize : Nat := 4

/-- The frame grows in multiples of this many bytes. -/
def stackAlign : Nat := 16

namespace Func

/-- A function without blocks. -/
def new (name : String) : Func := ⟨name, [], 0, 0⟩

def flow (f : Func) : FlowGraph f.blocks.length := ⟨fun block => (f.blocks.get block).term.targets⟩

/-- Appends an empty block and gives its number. -/
def addBlock (f : Func) (label : String) (term : Terminator) : Func × Nat :=
  ({ f with blocks := f.blocks ++ [⟨label, [], term⟩] }, f.blocks.length)

def push (f : Func) (block : Nat) (instr : Instr) : Except Fault Func := do
  let old ← fetch f.blocks block
  return { f with blocks := f.blocks.set block { old with instrs := old.instrs ++ [instr] } }

def mapRegs (f : Func) (change : Reg → Reg) : Func :=
  { f with blocks := f.blocks.map (Block.mapRegs change) }

/-- The virtual register `distance` further on. -/
def shiftVirtual (distance : Nat) : Reg → Reg
  | .virtual number => .virtual (number + distance)
  | reg => reg

/-- Renames every virtual register to the one `distance` further on. -/
def shiftVirtuals (f : Func) (distance : Nat) : Except Fault Func := do
  let operands := f.blocks.flatMap fun block =>
    block.instrs.flatMap (fun instr => instr.operandUses ++ instr.operandDef?.toList) ++
      block.term.operandUses
  let _ ← (operands.filterMap Reg.virtual?).mapM (Width.w32.add distance)
  return f.mapRegs (shiftVirtual distance)

/-- There are argument registers for all calls. -/
def arity (f : Func) : Except Fault Unit :=
  f.blocks.forM fun block => block.instrs.forM Instr.arity

/-- Every register mentioned, in register order. -/
def regSet (f : Func) : RegSet := Std.TreeSet.ofList (f.blocks.flatMap Block.regs) Reg.order

/-- Every register mentioned, once the calls are known to be proper. -/
def registers (f : Func) : Except Fault (List Reg) := do
  f.arity
  return f.regSet.toList

/-- Hands out a virtual register. -/
def freshVirtual (f : Func) : Except Fault (Func × Reg) := do
  let next ← Width.w32.add f.nextVirtual 1
  return ({ f with nextVirtual := next }, .virtual f.nextVirtual)

/-- Moves the counter past every virtual register mentioned. -/
def reserveVirtuals (f : Func) : Except Fault Func := do
  let regs ← f.registers
  let next ← (regs.filterMap Reg.virtual?).foldlM
    (fun next v => do
      let after ← Width.w32.add v 1
      return if next < after then after else next)
    f.nextVirtual
  return { f with nextVirtual := next }

/-- Adds a slot to the frame. -/
def newSlot (f : Func) : Except Fault (Func × Nat) := do
  let slots ← Width.w64.add f.slots 1
  return ({ f with slots }, f.slots)

/-- Bytes of the frame: its slots, rounded up to the stack alignment. -/
def frameSize (f : Func) : Except Fault Nat := do
  let slotsPerStep := stackAlign / wordSize
  let rounded ← Width.w64.add f.slots slotsPerStep
  Width.w64.mul ((rounded - 1) / slotsPerStep) stackAlign

/-- The signed number with the same lower 32 bits. -/
def toSigned32 (n : Nat) : Int :=
  let low := n % 4294967296
  if low < 2147483648 then Int.ofNat low else Int.ofNat low - 4294967296

/-- Distance of a slot from the stack pointer once the frame is grown; slots are laid out downwards
from the top of the frame. -/
def slotOffset (f : Func) (slot : Nat) : Except Fault Int := do
  let frame ← f.frameSize
  let above ← Width.w64.add slot 1
  let bytes ← Width.w64.mul wordSize above
  let offset ← Width.w64.sub frame bytes
  return toSigned32 offset

end Func

end Machine

end Lowering
