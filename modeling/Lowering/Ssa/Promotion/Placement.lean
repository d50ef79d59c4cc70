import Lowering.Ssa.Func
import Lowering.Ssa.Promotion.Joins

/-!
# Placement of phis

Every promoted slot gets a phi at each join of the blocks that store to it.  The results are fresh
values, handed out slot by slot in the order the joins are found.
-/

namespace Lowering.Ssa

/-- A phi for slot number `slot` at the head of a block. -/
structure PlacedPhi (n k : Nat) where
  slot : Fin k
  block : Fin n
  dest : Nat
deriving DecidableEq, Repr

/-- The number of the slot that an operand addresses. -/
def slotOf? (slots : List Nat) (addr : Operand) : Option (Fin slots.length) :=
  addr.value?.bind fun v => slots.finIdxOf? v

/-- Does the instruction store to a slot? -/
def Inst.storesTo (slot : Nat) : Inst → Bool
  | store _ addr => addr.value? == some slot
  | _ => false

namespace Func

/-- The blocks that store to a slot, ascending. -/
def storeSites (f : Func) (slot : Nat) : List (Fin f.blocks.length) :=
  (List.finRange f.blocks.length).filter fun block =>
    (f.blocks.get block).insts.any (Inst.storesTo slot)

/-- The slots and blocks that get a phi, in the order of their results. -/
def phiSites (f : Func) (slots : List Nat) (frontiers : Table f.blocks.length (List (Fin f.blocks.length))) :
    List (Fin slots.length × Fin f.blocks.length) :=
  (List.finRange slots.length).flatMap fun slot =>
    (joins frontiers (f.storeSites (slots.get slot))).map fun block => (slot, block)

end Func

/-- Gives the phis results from a counter on, which is returned past them. -/
def numberPhis {n k : Nat} (next : Nat) :
    List (Fin k × Fin n) → Except Fault (List (PlacedPhi n k) × Nat)
  | [] => .ok ([], next)
  | (slot, block) :: rest => do
      let after ← Width.w32.add next 1
      let (placed, last) ← numberPhis after rest
      return (⟨slot, block, next⟩ :: placed, last)

end Lowering.Ssa
