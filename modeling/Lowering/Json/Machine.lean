import Lowering.Json.Value
import Lowering.Machine.Func

/-!
# Machine functions as JSON

The same conventions as for SSA functions; physical registers are written by name.
-/

namespace Lowering

open Json

namespace PhysReg

def toJson (reg : PhysReg) : Json := str reg.name

def ofJson? (json : Json) : Option PhysReg := json.str?.bind ofName?

end PhysReg

namespace Reg

def toJson : Reg → Json
  | virtual number => tagged "Virtual" (nat number)
  | physical reg => tagged "Precolored" reg.toJson
  | spilled slot => tagged "Spilled" (nat slot)

def ofJson? (json : Json) : Option Reg := do
  let (name, some data) ← json.case? | none
  match name with
  | "Virtual" => (u32? data).map virtual
  | "Precolored" => (PhysReg.ofJson? data).map physical
  | "Spilled" => (u64? data).map spilled
  | _ => none

end Reg

namespace Machine

def i32? (json : Json) : Option Int := json.intWithin? (-2147483648) 2147483647

def u8? (json : Json) : Option Nat := json.natBelow? 256

namespace Address

def toJson : Address → Json
  | based base offset => tagged "Based" (obj [("base", base.toJson), ("offset", int offset)])
  | slot s => tagged "Slot" (nat s)

def ofJson? (json : Json) : Option Address := do
  let (name, some data) ← json.case? | none
  match name with
  | "Based" =>
      let [base, offset] ← data.members? ["base", "offset"] | none
      some (based (← required? Reg.ofJson? base) (← required? i32? offset))
  | "Slot" => (u64? data).map slot
  | _ => none

end Address

/-- Reads one of some cases without data by its name. -/
def oneOf? {α : Type} (cases : List α) (caseName : α → String) (json : Json) : Option α := do
  let (name, data) ← json.case?
  let op ← cases.find? fun op => caseName op == name
  bare? op data

namespace AluOp

def caseName : AluOp → String
  | add => "Add"
  | sub => "Sub"
  | mul => "Mul"
  | div => "Div"
  | rem => "Rem"
  | and => "And"
  | or => "Or"
  | xor => "Xor"
  | sll => "Sll"
  | sra => "Sra"
  | slt => "Slt"
  | sltu => "Sltu"

def ofJson? : Json → Option AluOp :=
  oneOf? [add, sub, mul, div, rem, and, or, xor, sll, sra, slt, sltu] caseName

end AluOp

namespace ImmOp

def caseName : ImmOp → String
  | addi => "Addi"
  | andi => "Andi"
  | ori => "Ori"
  | xori => "Xori"
  | slli => "Slli"
  | srai => "Srai"
  | slti => "Slti"

def ofJson? : Json → Option ImmOp := oneOf? [addi, andi, ori, xori, slli, srai, slti] caseName

end ImmOp

namespace ZeroCmp

def caseName : ZeroCmp → String
  | seqz => "Seqz"
  | snez => "Snez"
  | sltz => "Sltz"
  | sgtz => "Sgtz"

def ofJson? : Json → Option ZeroCmp := oneOf? [seqz, snez, sltz, sgtz] caseName

end ZeroCmp

namespace BranchOp

def caseName : BranchOp → String
  | beq => "Beq"
  | bne => "Bne"
  | blt => "Blt"
  | bge => "Bge"

def ofJson? : Json → Option BranchOp := oneOf? [beq, bne, blt, bge] caseName

end BranchOp

namespace Instr

def toJson : Instr → Json
  | li dest imm => tagged "Li" (obj [("dest", dest.toJson), ("imm", int imm)])
  | la dest symbol => tagged "La" (obj [("dest", dest.toJson), ("symbol", str symbol)])
  | load dest addr => tagged "Load" (obj [("dest", dest.toJson), ("addr", addr.toJson)])
  | store src addr => tagged "Store" (obj [("src", src.toJson), ("addr", addr.toJson)])
  | move dest src => tagged "Move" (obj [("dest", dest.toJson), ("src", src.toJson)])
  | alu op dest lhs rhs =>
      tagged "Calc" (obj
        [("op", str op.caseName), ("dest", dest.toJson), ("lhs", lhs.toJson), ("rhs", rhs.toJson)])
  | aluImm op dest lhs imm =>
      tagged "CalcI" (obj
        [("op", str op.caseName), ("dest", dest.toJson), ("lhs", lhs.toJson), ("imm", int imm)])
  | cmpZero op dest src =>
      tagged "CmpZ" (obj [("op", str op.caseName), ("dest", dest.toJson), ("src", src.toJson)])
  | call callee argc => tagged "Call" (obj [("callee", str callee), ("argc", nat argc)])
  | spGrow => str "SpGrow"
  | spRecover => str "SpRecover"

def ofData? (name : String) (data : Json) : Option Instr :=
  match name with
  | "Li" => do
      let [dest, imm] ← data.members? ["dest", "imm"] | none
      some (li (← required? Reg.ofJson? dest) (← required? i32? imm))
  | "La" => do
      let [dest, symbol] ← data.members? ["dest", "symbol"] | none
      some (la (← required? Reg.ofJson? dest) (← required? str? symbol))
  | "Load" => do
      let [dest, addr] ← data.members? ["dest", "addr"] | none
      some (load (← required? Reg.ofJson? dest) (← required? Address.ofJson? addr))
  | "Store" => do
      let [src, addr] ← data.members? ["src", "addr"] | none
      some (store (← required? Reg.ofJson? src) (← required? Address.ofJson? addr))
  | "Move" => do
      let [dest, src] ← data.members? ["dest", "src"] | none
      some (move (← required? Reg.ofJson? dest) (← required? Reg.ofJson? src))
  | "Calc" => do
      let [op, dest, lhs, rhs] ← data.members? ["op", "dest", "lhs", "rhs"] | none
      some (alu (← required? AluOp.ofJson? op) (← required? Reg.ofJson? dest)
        (← required? Reg.ofJson? lhs) (← required? Reg.ofJson? rhs))
  | "CalcI" => do
      let [op, dest, lhs, imm] ← data.members? ["op", "dest", "lhs", "imm"] | none
      some (aluImm (← required? ImmOp.ofJson? op) (← required? Reg.ofJson? dest)
        (← required? Reg.ofJson? lhs) (← required? i32? imm))
  | "CmpZ" => do
      let [op, dest, src] ← data.members? ["op", "dest", "src"] | none
      some (cmpZero (← required? ZeroCmp.ofJson? op) (← required? Reg.ofJson? dest)
        (← required? Reg.ofJson? src))
  | "Call" => do
      let [callee, argc] ← data.members? ["callee", "argc"] | none
      some (call (← required? str? callee) (← required? u8? argc))
  | _ => none

def ofJson? (json : Json) : Option Instr := do
  let (name, data) ← json.case?
  match name with
  | "SpGrow" => bare? spGrow data
  | "SpRecover" => bare? spRecover data
  | _ => data.bind (ofData? name)

end Instr

namespace Terminator

def toJson : Terminator → Json
  | ret => str "Ret"
  | branch op lhs rhs thenBlock elseBlock =>
      tagged "Branch" (obj
        [("op", str op.caseName), ("lhs", lhs.toJson), ("rhs", rhs.toJson),
          ("then", nat thenBlock), ("els", nat elseBlock)])
  | jump target => tagged "Jump" (nat target)

def ofJson? (json : Json) : Option Terminator := do
  let (name, data) ← json.case?
  match name with
  | "Ret" => bare? ret data
  | "Branch" =>
      let [op, lhs, rhs, thenBlock, elseBlock] ←
        (← data).members? ["op", "lhs", "rhs", "then", "els"] | none
      some (branch (← required? BranchOp.ofJson? op) (← required? Reg.ofJson? lhs)
        (← required? Reg.ofJson? rhs) (← required? u64? thenBlock) (← required? u64? elseBlock))
  | "Jump" => (required? u64? data).map jump
  | _ => none

end Terminator

namespace Block

def toJson (block : Block) : Json :=
  obj
    [ ("label", str block.label), ("instrs", arr (block.instrs.map Instr.toJson)),
      ("term", block.term.toJson) ]

def ofJson? (json : Json) : Option Block := do
  let [label, instrs, term] ← json.members? ["label", "instrs", "term"] | none
  some
    { label := ← required? str? label
      instrs := ← default? (list? Instr.ofJson?) [] instrs
      term := ← required? Terminator.ofJson? term }

end Block

namespace Func

def toJson (f : Func) : Json :=
  obj
    [ ("name", str f.name), ("blocks", arr (f.blocks.map Block.toJson)),
      ("slots", nat f.slots), ("next_virtual", nat f.nextVirtual) ]

def ofJson? (json : Json) : Option Func := do
  let [name, blocks, slots, next] ←
    json.members? ["name", "blocks", "slots", "next_virtual"] | none
  some
    { name := ← required? str? name
      blocks := ← required? (list? Block.ofJson?) blocks
      slots := ← default? u64? 0 slots
      nextVirtual := ← default? u32? 0 next }

end Func

end Machine

end Lowering
