import Lowering.Proofs.Allocation.SpillSlots
import Lowering.Proofs.Machine.PrintedFlow
import Mathlib

/-!
# The layout of printed frames

Code that passes the check on allocated code prints.  Its slots are words of the frame that do not
overlap, and the stack pointer moves by the size of the frame, the fewest aligned bytes that hold them.
-/

namespace Lowering.Machine

/-- Where a slot lies in a frame of some bytes: downwards from its top. -/
def slotPlace (size slot : Nat) : Nat := size - wordSize * (slot + 1)

/-- The text of an address, with slots at their places in a frame. -/
def Address.textIn (size : Nat) : Address → String
  | slot s => s!"{slotPlace size s}(sp)"
  | address => address.text

/-- The text of an instruction for a frame of some bytes. -/
def Instr.textIn (size : Nat) : Instr → String
  | spGrow => operation "addi" ["sp", "sp", s!"-{size}"]
  | spRecover => operation "addi" ["sp", "sp", s!"{size}"]
  | instr => instr.textWith (Address.textIn size)

namespace Func

variable {f : Func} {size : Nat}

/-! ## Places in the frame -/

/-- The frame has the fewest bytes that hold its slots and keep the stack aligned. -/
theorem isLeast_frameSize (sized : f.frameSize = .ok size) :
    IsLeast {bytes | stackAlign ∣ bytes ∧ wordSize * f.slots ≤ bytes} size := by
  obtain ⟨rfl, _⟩ := frameSize_eq_ok sized
  unfold stackAlign wordSize
  refine ⟨⟨Nat.dvd_mul_left 16 _, by omega⟩, ?_⟩
  rintro bytes ⟨⟨steps, rfl⟩, holds⟩
  omega

theorem slotPlace_inside (sized : f.frameSize = .ok size) {slot : Nat} (inside : slot < f.slots) :
    wordSize ∣ slotPlace size slot ∧ slotPlace size slot + wordSize ≤ size := by
  have bytes := slot_le_frameSize sized inside
  obtain ⟨rfl, _⟩ := frameSize_eq_ok sized
  unfold slotPlace wordSize at *
  omega

theorem slotPlace_disjoint (sized : f.frameSize = .ok size) {first second : Nat}
    (insideFirst : first < f.slots) (insideSecond : second < f.slots) (different : first ≠ second) :
    slotPlace size first + wordSize ≤ slotPlace size second ∨
      slotPlace size second + wordSize ≤ slotPlace size first := by
  have bytesFirst := slot_le_frameSize sized insideFirst
  have bytesSecond := slot_le_frameSize sized insideSecond
  unfold slotPlace wordSize at *
  omega

/-! ## Printing -/

theorem toSigned32_of_lt {n : Nat} (fits : n < 2147483648) : toSigned32 n = Int.ofNat n := by
  unfold toSigned32
  rw [Nat.mod_eq_of_lt (by omega)]
  exact if_pos fits

theorem addressText_eq (sized : f.frameSize = .ok size) (fits : size < 2147483648) {address : Address}
    (inside : ∀ slot, address.slot? = some slot → slot < f.slots) :
    f.addressText address = .ok (address.textIn size) := by
  cases address with
  | based base offset => rfl
  | slot slot =>
      have small : size - wordSize * (slot + 1) < 2147483648 := by omega
      refine bind_eq_ok.mpr ⟨_, slotOffset_eq sized (inside slot rfl), ?_⟩
      rw [toSigned32_of_lt small]
      rfl

theorem instrLine_eq (sized : f.frameSize = .ok size) (fits : size < 2147483648) {instr : Instr}
    (inside : ∀ slot, instr.slot? = some slot → slot < f.slots) :
    f.instrLine instr = .ok (.instr (instr.textIn size)) := by
  cases instr with
  | load dest address => exact bind_eq_ok.mpr ⟨_, addressText_eq sized fits inside, rfl⟩
  | store src address => exact bind_eq_ok.mpr ⟨_, addressText_eq sized fits inside, rfl⟩
  | spGrow => exact bind_eq_ok.mpr ⟨_, sized, rfl⟩
  | spRecover => exact bind_eq_ok.mpr ⟨_, sized, rfl⟩
  | _ => rfl

/-- The lines of a block for a frame of some bytes, where `ends` stands for its terminator. -/
def rowIn (f : Func) (size : Nat) (block : Block) (ends : List Line) : List Line :=
  .label (f.blockLabel block) :: block.instrs.map (fun instr => .instr (instr.textIn size)) ++ ends

theorem blockLines_eq (sized : f.frameSize = .ok size) (fits : size < 2147483648) (index : Nat)
    {block : Block} (settled : block.Settled f.slots)
    (targets : ∀ target ∈ block.term.targets, target < f.blocks.length) :
    ∃ ends, f.termLines index block.term = .ok ends ∧
      f.blockLines index block = .ok (f.rowIn size block ends) := by
  obtain ⟨_, body, same⟩ := exists_mapM_ok (fun instr => Line.instr (instr.textIn size)) Eq
    fun instr isInstr => ⟨instr, instrLine_eq sized fits (settled.instrs instr isInstr).framed, rfl⟩
  obtain rfl := List.forall₂_eq_eq_eq ▸ same
  obtain ⟨ends, isTerm⟩ := exists_termLines index targets
  exact ⟨ends, isTerm, bind_eq_ok.mpr ⟨_, body, bind_eq_ok.mpr ⟨ends, isTerm, rfl⟩⟩⟩

/-- The lines of the blocks, block by block, for a frame of some bytes. -/
def RowsIn (f : Func) (size : Nat) (rows : List (List Line)) : Prop :=
  List.Forall₂ (fun (numbered : Nat × Block) row =>
    ∃ ends, f.termLines numbered.1 numbered.2.term = .ok ends ∧ row = f.rowIn size numbered.2 ends)
    (f.blocks.mapIdx Prod.mk) rows

theorem exists_rowsIn (sized : f.frameSize = .ok size) (fits : size < 2147483648)
    (settled : ∀ block ∈ f.blocks, block.Settled f.slots)
    (targets : ∀ block ∈ f.blocks, ∀ target ∈ block.term.targets, target < f.blocks.length) :
    ∃ rows, f.lines = .ok (f.header ++ rows.flatten) ∧ f.RowsIn size rows := by
  obtain ⟨rows, printed, areRows⟩ : ∃ rows, (f.blocks.mapIdx Prod.mk).mapM
      (fun numbered => f.blockLines numbered.1 numbered.2) = .ok (rows.map id) ∧
        f.RowsIn size rows := by
    refine exists_mapM_ok id _ fun numbered member => ?_
    obtain ⟨index, inside, rfl⟩ := List.mem_mapIdx.mp member
    have isBlock := List.getElem_mem inside
    obtain ⟨ends, isTerm, isRow⟩ :=
      blockLines_eq sized fits index (settled _ isBlock) (targets _ isBlock)
    exact ⟨_, isRow, ends, isTerm, rfl⟩
  rw [List.map_id] at printed
  exact ⟨rows, bind_eq_ok.mpr ⟨rows, printed, rfl⟩, areRows⟩

/-- Checked code prints.  Every access to a slot is printed with the place of the slot in the frame: an
aligned word inside of the frame, and another word for every other slot.  The frame has the fewest bytes
that hold the slots and keep the stack aligned, and it grows and recovers by just these. -/
theorem text_of_checkAllocated (accepted : f.checkAllocated = .ok (.ok ()))
    (targets : ∀ block ∈ f.blocks, ∀ target ∈ block.term.targets, target < f.blocks.length)
    (sized : f.frameSize = .ok size) (fits : size < 2147483648) :
    (∃ rows, f.text = .ok (String.join ((f.header ++ rows.flatten).map fun line => line.text ++ "\n")) ∧
        f.RowsIn size rows) ∧
      (∀ block ∈ f.blocks, ∀ instr ∈ block.instrs, ∀ slot, instr.slot? = some slot →
        slot < f.slots) ∧
      (∀ slot < f.slots, 4 ∣ slotPlace size slot ∧ slotPlace size slot + 4 ≤ size) ∧
      (∀ first < f.slots, ∀ second < f.slots, first ≠ second →
        slotPlace size first + 4 ≤ slotPlace size second ∨
          slotPlace size second + 4 ≤ slotPlace size first) ∧
      IsLeast {bytes | 16 ∣ bytes ∧ 4 * f.slots ≤ bytes} size := by
  have settled := settled_of_checkBlocks accepted
  obtain ⟨rows, areLines, areRows⟩ := exists_rowsIn sized fits settled targets
  refine ⟨⟨rows, bind_eq_ok.mpr ⟨_, areLines, rfl⟩, areRows⟩, ?_, ?_, ?_, isLeast_frameSize sized⟩
  · exact fun block isBlock instr isInstr => ((settled block isBlock).instrs instr isInstr).framed
  · exact fun slot => slotPlace_inside sized
  · exact fun first insideFirst second => slotPlace_disjoint sized insideFirst

/-- Keeps a value in the last of five slots while it uses the first one. -/
def sheltering : Func where
  name := "sheltering"
  blocks :=
    [⟨"entry", [.spGrow, .store resultReg (.slot 4), .store resultReg (.slot 0)], .jump 2⟩,
      ⟨"exit", [.spRecover], .ret⟩,
      ⟨"back", [.load resultReg (.slot 4)], .jump 1⟩]
  slots := 5
  nextVirtual := 0

theorem text_of_checkAllocated_sheltering :
    sheltering.checkAllocated = .ok (.ok ()) ∧ sheltering.frameSize = .ok 32 ∧
      (∃ text, sheltering.text = .ok text) ∧ (4 ∣ slotPlace 32 4 ∧ slotPlace 32 4 + 4 ≤ 32) ∧
      (slotPlace 32 4 + 4 ≤ slotPlace 32 0 ∨ slotPlace 32 0 + 4 ≤ slotPlace 32 4) ∧
      IsLeast {bytes | 16 ∣ bytes ∧ 4 * 5 ≤ bytes} 32 := by
  have accepted : sheltering.checkAllocated = .ok (.ok ()) := by rfl
  have sized : sheltering.frameSize = .ok 32 := by rfl
  obtain ⟨⟨_, printed, _⟩, _, inside, disjoint, least⟩ :=
    text_of_checkAllocated accepted (by decide) sized (by decide)
  exact ⟨accepted, sized, ⟨_, printed⟩, inside 4 (by decide),
    disjoint 4 (by decide) 0 (by decide) (by decide), least⟩

end Func

end Lowering.Machine
