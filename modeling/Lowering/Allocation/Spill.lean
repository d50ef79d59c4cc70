import Lowering.Allocation.Liveness
import Lowering.Order
import Lowering.Pass

/-!
# Spill code

Every spilled register gets a slot of the frame.  A use becomes a load into a fresh register right
before the instruction, a definition a store right behind it, and a copy from or to a spilled
register the load or store itself.
-/

namespace Lowering.Machine

/-- Code with the registers that were handed out for it and the number of the next one. -/
structure SpillCode where
  instrs : List Instr
  fresh : List Reg
  next : Nat

/-- Hands out registers for slots, in order, from a counter on; gives the counter behind them. -/
def assignTemps (next : Nat) : List Nat → Except Fault (List (Nat × Nat) × Nat)
  | [] => .ok ([], next)
  | slot :: rest => do
      let after ← Width.w32.add next 1
      let (temps, last) ← assignTemps after rest
      return ((slot, next) :: temps, last)

/-- Replaces spilled registers by the registers handed out for their slots. -/
def replaceSpilled (temps : List (Nat × Nat)) : Reg → Reg
  | .spilled slot =>
      match temps.lookup slot with
      | some temp => .virtual temp
      | none => .spilled slot
  | reg => reg

/-- Slots and registers in the order of the slots. -/
def sortTemps (temps : List (Nat × Nat)) : List (Nat × Nat) :=
  (Std.TreeMap.ofList temps byNumber).toList

/-- The loads of some slots into the registers handed out for them. -/
def loadsOf (temps : List (Nat × Nat)) : List Instr :=
  temps.map fun (slot, temp) => .load (.virtual temp) (.slot slot)

def tempRegs (temps : List (Nat × Nat)) : List Reg := temps.map fun (_, temp) => .virtual temp

/-- The slots of spilled registers among some registers, each once. -/
def spilledSlots (regs : List Reg) : List Nat := (regs.filterMap Reg.slot?).eraseDups

namespace Instr

/-- Spill code for an instruction that is not a copy. -/
def spillPlain (instr : Instr) (next : Nat) : Except Fault SpillCode := do
  let (loaded, next) ← assignTemps next (spilledSlots instr.operandUses)
  let (stored, next) ← assignTemps next (instr.operandDef?.bind Reg.slot?).toList
  let loads := sortTemps loaded
  let body := instr.mapOperands (replaceSpilled loaded) (replaceSpilled stored)
  let stores := stored.map fun (slot, temp) => Instr.store (.virtual temp) (.slot slot)
  return ⟨loadsOf loads ++ body :: stores, tempRegs stored ++ tempRegs loads, next⟩

/-- Spill code for an instruction whose spilled registers are marked by their slots. -/
def spill (instr : Instr) (next : Nat) : Except Fault SpillCode :=
  match instr with
  | .move (.spilled dest) (.spilled src) =>
      if dest = src then .ok ⟨[], [], next⟩
      else do
        let temp := Reg.virtual next
        let next ← Width.w32.add next 1
        return ⟨[.load temp (.slot src), .store temp (.slot dest)], [temp], next⟩
  | .move (.spilled dest) src => .ok ⟨[.store src (.slot dest)], [], next⟩
  | .move dest (.spilled src) => .ok ⟨[.load dest (.slot src)], [], next⟩
  | .move dest src => .ok ⟨[.move dest src], [], next⟩
  | instr => instr.spillPlain next

end Instr

/-- Spill code for the instructions of a block. -/
def spillInstrs (next : Nat) : List Instr → Except Fault SpillCode
  | [] => .ok ⟨[], [], next⟩
  | instr :: rest => do
      let first ← instr.spill next
      let later ← spillInstrs first.next rest
      return ⟨first.instrs ++ later.instrs, first.fresh ++ later.fresh, later.next⟩

/-- Spill code for a block whose spilled registers are marked by their slots; also gives the
registers handed out and the number of the next one. -/
def Block.spill (block : Block) (next : Nat) : Except Fault (Block × List Reg × Nat) := do
  let code ← spillInstrs next block.instrs
  let (loaded, next) ← assignTemps code.next (spilledSlots block.term.operandUses)
  let loads := sortTemps loaded
  let term := block.term.mapRegs (replaceSpilled loaded)
  let relieved := { block with instrs := code.instrs ++ loadsOf loads, term }
  return (relieved, code.fresh ++ tempRegs loads, next)

/-- Spill code for blocks. -/
def spillBlocks (next : Nat) : List Block → Except Fault (List Block × List Reg × Nat)
  | [] => .ok ([], [], next)
  | block :: rest => do
      let (block, fresh, next) ← block.spill next
      let (later, freshLater, next) ← spillBlocks next rest
      return (block :: later, fresh ++ freshLater, next)

namespace Func

/-- Gives every register to be spilled a slot; of several slots of a register the last counts. -/
def assignSlots (f : Func) (slotOf : RegMap Nat) : List Reg → Pass (Func × RegMap Nat)
  | [] => return (f, slotOf)
  | .physical reg :: _ => Pass.lift (.error (.physicalSpill f.name reg.name))
  | reg :: rest => do
      let (grown, slot) ← f.newSlot
      Pass.note .spilling (f.name ++ ": spill " ++ reg.text ++ s!" to slot {slot}")
      grown.assignSlots (slotOf.insert reg slot) rest

/-- Moves registers into slots of the frame; also gives the fresh registers of the spill code. -/
def spill (f : Func) (spilled : List Reg) : Pass (Func × List Reg) := do
  let (f, slotOf) ← f.assignSlots ∅ spilled
  let mark (reg : Reg) : Reg :=
    match slotOf.get? reg with
    | some slot => .spilled slot
    | none => reg
  let marked := f.blocks.map (Block.mapRegs mark)
  let (blocks, fresh, nextVirtual) ← spillBlocks f.nextVirtual marked
  return ({ f with blocks, nextVirtual }, fresh)

end Func

end Lowering.Machine
