import Lowering.Flow.Graph
import Lowering.Ssa.Incoming
import Lowering.Width

/-!
# Functions in SSA form

A function is a list of blocks; block `0` is the entry.  Locals live in stack slots made by
`alloca` until they are promoted, after which their values flow through phis.
-/

namespace Lowering.Ssa

inductive Operand where
  | value (v : Nat)
  | const (c : Int)
  /-- What a slot holds before anything is stored to it. -/
  | undef
deriving DecidableEq, Repr

namespace Operand

def value? : Operand → Option Nat
  | value v => some v
  | const _ | undef => none

end Operand

inductive BinOp where
  | add | sub | mul | div | rem | and | or | xor | shl | shr
deriving DecidableEq, Repr

inductive CmpOp where
  | eq | ne | lt | le | gt | ge
deriving DecidableEq, Repr

inductive Inst where
  /-- Reserves a stack slot; `dest` is its address. -/
  | alloca (dest : Nat)
  | load (dest : Nat) (addr : Operand)
  | store (value addr : Operand)
  | binary (op : BinOp) (dest : Nat) (lhs rhs : Operand)
  | cmp (op : CmpOp) (dest : Nat) (lhs rhs : Operand)
  | call (dest : Option Nat) (callee : String) (args : List Operand)
deriving DecidableEq, Repr

namespace Inst

/-- The value an instruction defines. -/
def def? : Inst → Option Nat
  | alloca dest | load dest _ | binary _ dest _ _ | cmp _ dest _ _ => some dest
  | call dest _ _ => dest
  | store _ _ => none

/-- The memory operand of a load or store. -/
def address? : Inst → Option Operand
  | load _ addr | store _ addr => some addr
  | alloca _ | binary _ _ _ _ | cmp _ _ _ _ | call _ _ _ => none

/-- The operands that are read as values: all but the memory operand. -/
def valueOperands : Inst → List Operand
  | alloca _ | load _ _ => []
  | store value _ => [value]
  | binary _ _ lhs rhs | cmp _ _ lhs rhs => [lhs, rhs]
  | call _ _ args => args

def operands (inst : Inst) : List Operand := inst.valueOperands ++ inst.address?.toList

def mapOperands (f : Operand → Operand) : Inst → Inst
  | alloca dest => alloca dest
  | load dest addr => load dest (f addr)
  | store value addr => store (f value) (f addr)
  | binary op dest lhs rhs => binary op dest (f lhs) (f rhs)
  | cmp op dest lhs rhs => cmp op dest (f lhs) (f rhs)
  | call dest callee args => call dest callee (args.map f)

end Inst

inductive Terminator where
  | ret (value : Option Operand)
  | branch (cond : Operand) (thenBlock elseBlock : Nat)
  | jump (target : Nat)
deriving DecidableEq, Repr

namespace Terminator

def targets : Terminator → List Nat
  | ret _ => []
  | branch _ thenBlock elseBlock => [thenBlock, elseBlock]
  | jump target => [target]

def operands : Terminator → List Operand
  | ret value => value.toList
  | branch cond _ _ => [cond]
  | jump _ => []

def mapOperands (f : Operand → Operand) : Terminator → Terminator
  | ret value => ret (value.map f)
  | branch cond thenBlock elseBlock => branch (f cond) thenBlock elseBlock
  | jump target => jump target

/-- Renames the targets; none if one of them has no new name. -/
def rename? (names : Nat → Option Nat) : Terminator → Option Terminator
  | ret value => some (ret value)
  | branch cond thenBlock elseBlock => do
      some (branch cond (← names thenBlock) (← names elseBlock))
  | jump target => do some (jump (← names target))

end Terminator

/-- Selects an operand by the block control came from. -/
structure Phi where
  dest : Nat
  incoming : Incoming Operand
deriving DecidableEq, Repr

def Phi.mapOperands (f : Operand → Operand) (phi : Phi) : Phi :=
  { phi with incoming := phi.incoming.map f }

structure Block where
  name : String
  phis : List Phi
  insts : List Inst
  term : Terminator
deriving DecidableEq, Repr

namespace Block

/-- The values a block defines, in order. -/
def defs (block : Block) : List Nat :=
  block.phis.map Phi.dest ++ block.insts.filterMap Inst.def?

def mapOperands (f : Operand → Operand) (block : Block) : Block :=
  { block with
    phis := block.phis.map (Phi.mapOperands f)
    insts := block.insts.map (Inst.mapOperands f)
    term := block.term.mapOperands f }

end Block

structure Func where
  name : String
  params : List Nat
  blocks : List Block
  /-- The next value to hand out. -/
  nextValue : Nat
deriving DecidableEq, Repr

namespace Func

/-- A function without blocks. -/
def new (name : String) : Func := ⟨name, [], [], 0⟩

/-- The flow graph of the terminators. -/
def flow (f : Func) : FlowGraph f.blocks.length := ⟨fun block => (f.blocks.get block).term.targets⟩

/-- The values a function defines, in order. -/
def defs (f : Func) : List Nat := f.params ++ f.blocks.flatMap Block.defs

/-- Appends an empty block and gives its number. -/
def addBlock (f : Func) (name : String) (term : Terminator) : Func × Nat :=
  ({ f with blocks := f.blocks ++ [⟨name, [], [], term⟩] }, f.blocks.length)

/-- Changes one block. -/
def modifyBlock (f : Func) (block : Nat) (change : Block → Block) : Except Fault Func := do
  let old ← fetch f.blocks block
  return { f with blocks := f.blocks.set block (change old) }

def push (f : Func) (block : Nat) (inst : Inst) : Except Fault Func :=
  f.modifyBlock block fun old => { old with insts := old.insts ++ [inst] }

def pushPhi (f : Func) (block : Nat) (phi : Phi) : Except Fault Func :=
  f.modifyBlock block fun old => { old with phis := old.phis ++ [phi] }

def setTerm (f : Func) (block : Nat) (term : Terminator) : Except Fault Func :=
  f.modifyBlock block fun old => { old with term }

/-- Hands out a value. -/
def freshValue (f : Func) : Except Fault (Func × Nat) := do
  let next ← Width.w32.add f.nextValue 1
  return ({ f with nextValue := next }, f.nextValue)

/-- Appends a parameter. -/
def addParam (f : Func) : Except Fault (Func × Nat) := do
  let (f, param) ← f.freshValue
  return ({ f with params := f.params ++ [param] }, param)

/-- Moves a counter past a number. -/
def reserve (next v : Nat) : Except Fault Nat := do
  let after ← Width.w32.add v 1
  return if next < after then after else next

/-- Moves the counter past every value defined. -/
def reserveValues (f : Func) : Except Fault Func := do
  let next ← f.defs.foldlM reserve f.nextValue
  return { f with nextValue := next }

end Func

end Lowering.Ssa
