import Lowering.Machine.Printing

/-!
# The check on allocated code

Only physical registers are left, and every slot access stays inside the frame.
-/

namespace Lowering.Machine

/-- What the check objects to. -/
inductive Objection where
  | instrRegister (function : String) (instr : Instr) (label : String) (reg : Reg)
  | slotOutside (function : String) (slot slots : Nat)
  | termRegister (function label : String) (reg : Reg)
deriving DecidableEq, Repr

def Objection.message : Objection → String
  | instrRegister function instr label reg =>
      function ++ ": `" ++ instr.text ++ "` in " ++ label ++ " still refers to " ++ reg.text
  | slotOutside function slot slots =>
      function ++ s!": slot {slot} is outside a frame of {slots} slots"
  | termRegister function label reg =>
      function ++ ": terminator of " ++ label ++ " still refers to " ++ reg.text

/-- Nothing, or an objection. -/
abbrev Verdict := Except Objection Unit

namespace Func

/-- What is wrong with an instruction of a block. -/
def instrObjection? (f : Func) (label : String) (instr : Instr) : Option Objection :=
  match (instr.uses ++ instr.defs).find? fun reg => !reg.isPhysical with
  | some reg => some (.instrRegister f.name instr label reg)
  | none =>
      match instr.slot? with
      | some slot => if slot < f.slots then none else some (.slotOutside f.name slot f.slots)
      | none => none

/-- What is wrong with a terminator. -/
def termObjection? (f : Func) (block : Block) : Option Objection :=
  (block.term.uses.find? fun reg => !reg.isPhysical).map (.termRegister f.name block.label)

/-- Checks instructions in turn. -/
def checkInstrs (f : Func) (label : String) : List Instr → Except Fault Verdict
  | [] => .ok (.ok ())
  | instr :: rest => do
      instr.arity
      match f.instrObjection? label instr with
      | some objection => return .error objection
      | none => f.checkInstrs label rest

/-- Checks blocks in turn. -/
def checkBlocks (f : Func) : List Block → Except Fault Verdict
  | [] => .ok (.ok ())
  | block :: rest => do
      match ← f.checkInstrs block.label block.instrs with
      | .error objection => return .error objection
      | .ok () =>
          match f.termObjection? block with
          | some objection => return .error objection
          | none => f.checkBlocks rest

/-- Only physical registers and slots of the frame are left. -/
def checkAllocated (f : Func) : Except Fault Verdict := f.checkBlocks f.blocks

end Func

end Lowering.Machine
