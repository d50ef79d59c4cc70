import Lowering.Machine.Func

/-!
# Printing machine functions

A function prints as assembly lines: its name, then each block with its label.  A jump to the block
that follows is left out, and slots are addressed from the stack pointer.
-/

namespace Lowering.Machine

def intText : Int → String
  | .ofNat n => s!"{n}"
  | .negSucc n => s!"-{n + 1}"

def Address.text : Address → String
  | based base offset => intText offset ++ "(" ++ base.text ++ ")"
  | slot s => s!"[slot {s}]"

def AluOp.text : AluOp → String
  | add => "add"
  | sub => "sub"
  | mul => "mul"
  | div => "div"
  | rem => "rem"
  | and => "and"
  | or => "or"
  | xor => "xor"
  | sll => "sll"
  | sra => "sra"
  | slt => "slt"
  | sltu => "sltu"

def ImmOp.text : ImmOp → String
  | addi => "addi"
  | andi => "andi"
  | ori => "ori"
  | xori => "xori"
  | slli => "slli"
  | srai => "srai"
  | slti => "slti"

def ZeroCmp.text : ZeroCmp → String
  | seqz => "seqz"
  | snez => "snez"
  | sltz => "sltz"
  | sgtz => "sgtz"

def BranchOp.text : BranchOp → String
  | beq => "beq"
  | bne => "bne"
  | blt => "blt"
  | bge => "bge"

/-- An operation on operands. -/
def operation (op : String) (operands : List String) : String :=
  op ++ " " ++ ", ".intercalate operands

/-- An instruction with its addresses printed by `address`. -/
def Instr.textWith (address : Address → String) : Instr → String
  | li dest imm => operation "li" [dest.text, intText imm]
  | la dest symbol => operation "la" [dest.text, symbol]
  | load dest addr => operation "lw" [dest.text, address addr]
  | store src addr => operation "sw" [src.text, address addr]
  | move dest src => operation "mv" [dest.text, src.text]
  | alu op dest lhs rhs => operation op.text [dest.text, lhs.text, rhs.text]
  | aluImm op dest lhs imm => operation op.text [dest.text, lhs.text, intText imm]
  | cmpZero op dest src => operation op.text [dest.text, src.text]
  | call callee _ => operation "call" [callee]
  | spGrow => "spgrow"
  | spRecover => "sprecover"

/-- An instruction outside a function: slots are shown by number. -/
def Instr.text (instr : Instr) : String := instr.textWith Address.text

/-- A line of assembly. -/
inductive Line where
  /-- Makes a name visible to other files. -/
  | globl (name : String)
  | label (label : String)
  | instr (text : String)
  | branch (op : BranchOp) (lhs rhs : Reg) (label : String)
  | jump (label : String)
  | ret
deriving DecidableEq, Repr

def Line.text : Line → String
  | globl name => "\t.globl\t" ++ name
  | label name => name ++ ":"
  | instr text => "\t" ++ text
  | branch op lhs rhs name => "\t" ++ operation op.text [lhs.text, rhs.text, name]
  | jump name => "\t" ++ operation "j" [name]
  | ret => "\tret"

namespace Func

/-- The label of a block, which names the function as well. -/
def blockLabel (f : Func) (block : Block) : String := "." ++ f.name ++ "_" ++ block.label

/-- The label of a block by number. -/
def labelOf (f : Func) (block : Nat) : Except Fault String := do
  let target ← fetch f.blocks block
  return f.blockLabel target

/-- The address of a memory access; slots are resolved against the frame. -/
def addressText (f : Func) (address : Address) : Except Fault String :=
  match address with
  | .based _ _ => .ok address.text
  | .slot slot => do
      let offset ← f.slotOffset slot
      return intText offset ++ "(sp)"

/-- The line of an instruction. -/
def instrLine (f : Func) (instr : Instr) : Except Fault Line :=
  match instr with
  | .load _ addr | .store _ addr => do
      let address ← f.addressText addr
      return .instr (instr.textWith fun _ => address)
  | .spGrow => do
      let frame ← f.frameSize
      return .instr (operation "addi" ["sp", "sp", s!"-{frame}"])
  | .spRecover => do
      let frame ← f.frameSize
      return .instr (operation "addi" ["sp", "sp", s!"{frame}"])
  | _ => .ok (.instr instr.text)

/-- The line of a jump, left out if the target is the block that follows. -/
def jumpLines (f : Func) (block target : Nat) : Except Fault (List Line) :=
  if target = block + 1 then .ok []
  else do
    let label ← f.labelOf target
    return [.jump label]

/-- The lines of the terminator of a block. -/
def termLines (f : Func) (block : Nat) : Terminator → Except Fault (List Line)
  | .ret => .ok [.ret]
  | .branch op lhs rhs thenBlock elseBlock => do
      let label ← f.labelOf thenBlock
      let otherwise ← f.jumpLines block elseBlock
      return .branch op lhs rhs label :: otherwise
  | .jump target => f.jumpLines block target

/-- The lines of a block. -/
def blockLines (f : Func) (index : Nat) (block : Block) : Except Fault (List Line) := do
  let body ← block.instrs.mapM f.instrLine
  let term ← f.termLines index block.term
  return .label (f.blockLabel block) :: body ++ term

/-- The lines of a function. -/
def lines (f : Func) : Except Fault (List Line) := do
  let blocks ← (f.blocks.mapIdx Prod.mk).mapM fun (index, block) => f.blockLines index block
  return .globl f.name :: .label f.name :: blocks.flatten

def text (f : Func) : Except Fault String := do
  let lines ← f.lines
  return String.join (lines.map fun line => line.text ++ "\n")

end Func

end Lowering.Machine
