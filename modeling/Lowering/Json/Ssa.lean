import Lowering.Json.Value
import Lowering.Ssa.Func

/-!
# SSA functions as JSON

Records are objects with one member for each field, cases with data are objects with the case as
their only member, cases without data are strings.  The operands of a phi are an object keyed by
the decimal block numbers.
-/

namespace Lowering.Ssa

open Json

namespace Operand

def toJson : Operand → Json
  | value v => tagged "Value" (nat v)
  | const c => tagged "Const" (int c)
  | undef => str "Undef"

def ofJson? (json : Json) : Option Operand := do
  match ← json.case? with
  | ("Value", data) => (required? u32? data).map value
  | ("Const", data) => (required? i64? data).map const
  | ("Undef", data) => bare? undef data
  | _ => none

end Operand

namespace BinOp

def caseName : BinOp → String
  | add => "Add"
  | sub => "Sub"
  | mul => "Mul"
  | div => "Div"
  | rem => "Rem"
  | and => "And"
  | or => "Or"
  | xor => "Xor"
  | shl => "Shl"
  | shr => "Shr"

def toJson (op : BinOp) : Json := str op.caseName

def ofJson? (json : Json) : Option BinOp := do
  let (name, data) ← json.case?
  let op ← [add, sub, mul, div, rem, and, or, xor, shl, shr].find? fun op => op.caseName == name
  bare? op data

end BinOp

namespace CmpOp

def caseName : CmpOp → String
  | eq => "Eq"
  | ne => "Ne"
  | lt => "Lt"
  | le => "Le"
  | gt => "Gt"
  | ge => "Ge"

def toJson (op : CmpOp) : Json := str op.caseName

def ofJson? (json : Json) : Option CmpOp := do
  let (name, data) ← json.case?
  let op ← [eq, ne, lt, le, gt, ge].find? fun op => op.caseName == name
  bare? op data

end CmpOp

namespace Inst

def toJson : Inst → Json
  | alloca dest => tagged "Alloca" (obj [("dest", nat dest)])
  | load dest addr => tagged "Load" (obj [("dest", nat dest), ("addr", addr.toJson)])
  | store value addr => tagged "Store" (obj [("value", value.toJson), ("addr", addr.toJson)])
  | binary op dest lhs rhs =>
      tagged "Binary" (obj
        [("op", op.toJson), ("dest", nat dest), ("lhs", lhs.toJson), ("rhs", rhs.toJson)])
  | cmp op dest lhs rhs =>
      tagged "Cmp" (obj
        [("op", op.toJson), ("dest", nat dest), ("lhs", lhs.toJson), ("rhs", rhs.toJson)])
  | call dest callee args =>
      tagged "Call" (obj
        [("dest", ofOption nat dest), ("callee", str callee), ("args", arr (args.map Operand.toJson))])

def ofData? (name : String) (data : Json) : Option Inst :=
  match name with
  | "Alloca" => do
      let [dest] ← data.members? ["dest"] | none
      some (alloca (← required? u32? dest))
  | "Load" => do
      let [dest, addr] ← data.members? ["dest", "addr"] | none
      some (load (← required? u32? dest) (← required? Operand.ofJson? addr))
  | "Store" => do
      let [value, addr] ← data.members? ["value", "addr"] | none
      some (store (← required? Operand.ofJson? value) (← required? Operand.ofJson? addr))
  | "Binary" => do
      let [op, dest, lhs, rhs] ← data.members? ["op", "dest", "lhs", "rhs"] | none
      some (binary (← required? BinOp.ofJson? op) (← required? u32? dest)
        (← required? Operand.ofJson? lhs) (← required? Operand.ofJson? rhs))
  | "Cmp" => do
      let [op, dest, lhs, rhs] ← data.members? ["op", "dest", "lhs", "rhs"] | none
      some (cmp (← required? CmpOp.ofJson? op) (← required? u32? dest)
        (← required? Operand.ofJson? lhs) (← required? Operand.ofJson? rhs))
  | "Call" => do
      let [dest, callee, args] ← data.members? ["dest", "callee", "args"] | none
      some (call (← optional? u32? dest) (← required? str? callee)
        (← required? (list? Operand.ofJson?) args))
  | _ => none

def ofJson? (json : Json) : Option Inst := do
  let (name, some data) ← json.case? | none
  ofData? name data

end Inst

namespace Terminator

def toJson : Terminator → Json
  | ret value => tagged "Ret" (ofOption Operand.toJson value)
  | branch cond thenBlock elseBlock =>
      tagged "Branch" (obj
        [("cond", cond.toJson), ("then", nat thenBlock), ("els", nat elseBlock)])
  | jump target => tagged "Jump" (nat target)

def ofJson? (json : Json) : Option Terminator := do
  let (name, some data) ← json.case? | none
  match name with
  | "Ret" => (data.nullable? Operand.ofJson?).map ret
  | "Branch" =>
      let [cond, thenBlock, elseBlock] ← data.members? ["cond", "then", "els"] | none
      some (branch (← required? Operand.ofJson? cond) (← required? u64? thenBlock)
        (← required? u64? elseBlock))
  | "Jump" => (u64? data).map jump
  | _ => none

end Terminator

/-- Reads a block number written without sign and superfluous zeros. -/
def blockKey? (key : String) : Option Nat :=
  let digits := key.toList
  if !digits.isEmpty && digits.all Char.isDigit && (digits.length == 1 || digits.head? != some '0')
  then
    let block := digits.foldl (fun n c => 10 * n + (c.toNat - '0'.toNat)) 0
    if block < 18446744073709551616 then some block else none
  else none

def incomingOfJson? : Json → Option (Incoming Operand)
  | .obj members => do
      let entries ← members.mapM fun (key, value) => do
        some (← blockKey? key, ← Operand.ofJson? value)
      some (Incoming.ofList entries)
  | _ => none

namespace Phi

def toJson (phi : Phi) : Json :=
  obj
    [ ("dest", nat phi.dest),
      ("incoming", obj (phi.incoming.entries.map fun (block, operand) =>
        (s!"{block}", operand.toJson))) ]

def ofJson? (json : Json) : Option Phi := do
  let [dest, incoming] ← json.members? ["dest", "incoming"] | none
  some ⟨← required? u32? dest, ← required? incomingOfJson? incoming⟩

end Phi

namespace Block

def toJson (block : Block) : Json :=
  obj
    [ ("name", str block.name), ("phis", arr (block.phis.map Phi.toJson)),
      ("insts", arr (block.insts.map Inst.toJson)), ("term", block.term.toJson) ]

def ofJson? (json : Json) : Option Block := do
  let [name, phis, insts, term] ← json.members? ["name", "phis", "insts", "term"] | none
  some
    { name := ← required? str? name
      phis := ← default? (list? Phi.ofJson?) [] phis
      insts := ← default? (list? Inst.ofJson?) [] insts
      term := ← required? Terminator.ofJson? term }

end Block

namespace Func

def toJson (f : Func) : Json :=
  obj
    [ ("name", str f.name), ("params", arr (f.params.map nat)),
      ("blocks", arr (f.blocks.map Block.toJson)), ("next_value", nat f.nextValue) ]

def ofJson? (json : Json) : Option Func := do
  let [name, params, blocks, next] ←
    json.members? ["name", "params", "blocks", "next_value"] | none
  some
    { name := ← required? str? name
      params := ← default? (list? u32?) [] params
      blocks := ← required? (list? Block.ofJson?) blocks
      nextValue := ← default? u32? 0 next }

end Func

end Lowering.Ssa
