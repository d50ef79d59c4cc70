import Lowering.Order
import Lowering.Ssa.Func

/-!
# Promotable slots

A slot can be promoted if its address is never used but as the address of a load or store.
-/

namespace Lowering.Ssa

/-- The slot an instruction makes. -/
def Inst.madeSlot? : Inst → Option Nat
  | alloca dest => some dest
  | _ => none

/-- Operands of a block that are read as values. -/
def Block.valueOperands (block : Block) : List Operand :=
  block.phis.flatMap (fun phi => phi.incoming.operands) ++
    block.insts.flatMap Inst.valueOperands ++ block.term.operands

namespace Func

/-- The slots a function makes, ascending. -/
def slots (f : Func) : List Nat :=
  (f.blocks.foldl (fun set block => set.insertMany (block.insts.filterMap Inst.madeSlot?))
    (∅ : NumberSet)).toList

/-- The slots whose address is only loaded from and stored to, ascending. -/
def promotableSlots (f : Func) : List Nat :=
  let escaped := f.blocks.flatMap Block.valueOperands
  f.slots.filter fun slot => !escaped.contains (.value slot)

end Func

end Lowering.Ssa
