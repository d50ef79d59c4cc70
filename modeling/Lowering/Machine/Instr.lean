import Lowering.Register

/-!
# Machine instructions

RV32 instructions over virtual and physical registers.  Analyses see an instruction only through
the registers it uses and defines; explicit operands can be replaced, the registers of a call and
the stack pointer of a slot access cannot.
-/

namespace Lowering.Machine

inductive Address where
  | based (base : Reg) (offset : Int)
  /-- A slot of the frame, addressed from the stack pointer once the frame size is known. -/
  | slot (slot : Nat)
deriving DecidableEq, Repr

namespace Address

def uses : Address → List Reg
  | based base _ => [base]
  | slot _ => [.sp]

def mapRegs (f : Reg → Reg) : Address → Address
  | based base offset => based (f base) offset
  | slot s => slot s

def slot? : Address → Option Nat
  | slot s => some s
  | based _ _ => none

end Address

inductive AluOp where
  | add | sub | mul | div | rem | and | or | xor | sll | sra | slt | sltu
deriving DecidableEq, Repr

inductive ImmOp where
  | addi | andi | ori | xori | slli | srai | slti
deriving DecidableEq, Repr

inductive ZeroCmp where
  | seqz | snez | sltz | sgtz
deriving DecidableEq, Repr

inductive BranchOp where
  | beq | bne | blt | bge
deriving DecidableEq, Repr

inductive Instr where
  | li (dest : Reg) (imm : Int)
  | la (dest : Reg) (symbol : String)
  | load (dest : Reg) (addr : Address)
  | store (src : Reg) (addr : Address)
  | move (dest src : Reg)
  | alu (op : AluOp) (dest lhs rhs : Reg)
  | aluImm (op : ImmOp) (dest lhs : Reg) (imm : Int)
  | cmpZero (op : ZeroCmp) (dest src : Reg)
  /-- Calls with the first `argc` argument registers as arguments. -/
  | call (callee : String) (argc : Nat)
  /-- Makes room for the frame. -/
  | spGrow
  /-- Gives the room of the frame back. -/
  | spRecover
deriving DecidableEq, Repr

namespace Instr

/-- The registers of the first `argc` arguments. -/
def arguments (argc : Nat) : List Reg := ((List.finRange 8).take argc).map Reg.arg

def uses : Instr → List Reg
  | li _ _ | la _ _ => []
  | load _ addr => addr.uses
  | store src addr => src :: addr.uses
  | move _ src | cmpZero _ _ src => [src]
  | alu _ _ lhs rhs => [lhs, rhs]
  | aluImm _ _ lhs _ => [lhs]
  | call _ argc => arguments argc
  | spGrow | spRecover => [.sp]

def defs : Instr → List Reg
  | li dest _ | la dest _ | load dest _ | move dest _ | alu _ dest _ _ | aluImm _ dest _ _
  | cmpZero _ dest _ => [dest]
  | store _ _ => []
  | call _ _ => PhysReg.callerSaved.map Reg.physical
  | spGrow | spRecover => [.sp]

/-- There are argument registers for all arguments of a call. -/
def arity : Instr → Except Fault Unit
  | call _ argc => if argc ≤ 8 then .ok () else .error .invalidArgument
  | _ => .ok ()

def isMove : Instr → Bool
  | move _ _ => true
  | _ => false

/-- The slot of the frame that an instruction accesses. -/
def slot? : Instr → Option Nat
  | load _ addr | store _ addr => addr.slot?
  | _ => none

/-- The operands that are read and can be replaced. -/
def operandUses : Instr → List Reg
  | load _ (.based base _) => [base]
  | store src (.based base _) => [src, base]
  | store src (.slot _) => [src]
  | move _ src | cmpZero _ _ src => [src]
  | alu _ _ lhs rhs => [lhs, rhs]
  | aluImm _ _ lhs _ => [lhs]
  | load _ (.slot _) | li _ _ | la _ _ | call _ _ | spGrow | spRecover => []

/-- The operand that is written and can be replaced. -/
def operandDef? : Instr → Option Reg
  | li dest _ | la dest _ | load dest _ | move dest _ | alu _ dest _ _ | aluImm _ dest _ _
  | cmpZero _ dest _ => some dest
  | store _ _ | call _ _ | spGrow | spRecover => none

/-- Replaces the operands, those read by `use` and the one written by `def`. -/
def mapOperands (use definition : Reg → Reg) : Instr → Instr
  | li dest imm => li (definition dest) imm
  | la dest symbol => la (definition dest) symbol
  | load dest addr => load (definition dest) (addr.mapRegs use)
  | store src addr => store (use src) (addr.mapRegs use)
  | move dest src => move (definition dest) (use src)
  | alu op dest lhs rhs => alu op (definition dest) (use lhs) (use rhs)
  | aluImm op dest lhs imm => aluImm op (definition dest) (use lhs) imm
  | cmpZero op dest src => cmpZero op (definition dest) (use src)
  | call callee argc => call callee argc
  | spGrow => spGrow
  | spRecover => spRecover

def mapRegs (f : Reg → Reg) (instr : Instr) : Instr := instr.mapOperands f f

end Instr

inductive Terminator where
  | ret
  | branch (op : BranchOp) (lhs rhs : Reg) (thenBlock elseBlock : Nat)
  | jump (target : Nat)
deriving DecidableEq, Repr

namespace Terminator

def targets : Terminator → List Nat
  | ret => []
  | branch _ _ _ thenBlock elseBlock => [thenBlock, elseBlock]
  | jump target => [target]

/-- A return reads the return address and the result. -/
def uses : Terminator → List Reg
  | ret => [.physical .ra, .arg 0]
  | branch _ lhs rhs _ _ => [lhs, rhs]
  | jump _ => []

/-- The operands that can be replaced. -/
def operandUses : Terminator → List Reg
  | branch _ lhs rhs _ _ => [lhs, rhs]
  | ret | jump _ => []

def mapRegs (f : Reg → Reg) : Terminator → Terminator
  | branch op lhs rhs thenBlock elseBlock => branch op (f lhs) (f rhs) thenBlock elseBlock
  | ret => ret
  | jump target => jump target

end Terminator

end Lowering.Machine
