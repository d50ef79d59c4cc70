import Lowering.Ssa.Func

/-!
# Printing SSA functions

A function prints as a header with its parameters, then each block with its number, name and
contents, one phi, instruction or terminator a line.
-/

namespace Lowering.Ssa

def valueText (v : Nat) : String := s!"%{v}"

def blockText (block : Nat) : String := s!"bb{block}"

def Operand.text : Operand → String
  | value v => valueText v
  | const (.ofNat c) => s!"{c}"
  | const (.negSucc c) => s!"-{c + 1}"
  | undef => "undef"

def BinOp.text : BinOp → String
  | add => "add"
  | sub => "sub"
  | mul => "mul"
  | div => "div"
  | rem => "rem"
  | and => "and"
  | or => "or"
  | xor => "xor"
  | shl => "shl"
  | shr => "shr"

def CmpOp.text : CmpOp → String
  | eq => "eq"
  | ne => "ne"
  | lt => "lt"
  | le => "le"
  | gt => "gt"
  | ge => "ge"

def Inst.text : Inst → String
  | alloca dest => valueText dest ++ " = alloca"
  | load dest addr => valueText dest ++ " = load " ++ addr.text
  | store value addr => "store " ++ value.text ++ ", " ++ addr.text
  | binary op dest lhs rhs =>
      valueText dest ++ " = " ++ op.text ++ " " ++ lhs.text ++ ", " ++ rhs.text
  | cmp op dest lhs rhs =>
      valueText dest ++ " = icmp " ++ op.text ++ " " ++ lhs.text ++ ", " ++ rhs.text
  | call dest callee args =>
      let call := "call @" ++ callee ++ "(" ++ ", ".intercalate (args.map Operand.text) ++ ")"
      match dest with
      | some dest => valueText dest ++ " = " ++ call
      | none => call

def Terminator.text : Terminator → String
  | ret (some value) => "ret " ++ value.text
  | ret none => "ret"
  | branch cond thenBlock elseBlock =>
      "br " ++ cond.text ++ ", " ++ blockText thenBlock ++ ", " ++ blockText elseBlock
  | jump target => "jump " ++ blockText target

def Phi.text (phi : Phi) : String :=
  let entry (pair : Nat × Operand) := "[" ++ blockText pair.1 ++ ": " ++ pair.2.text ++ "]"
  let head := valueText phi.dest ++ " = phi"
  if phi.incoming.entries.isEmpty then head
  else head ++ " " ++ ", ".intercalate (phi.incoming.entries.map entry)

/-- The lines of a block: phis, instructions, terminator. -/
def Block.lines (block : Block) : List String :=
  block.phis.map Phi.text ++ block.insts.map Inst.text ++ [block.term.text]

def Block.text (block : Block) : String :=
  String.join (block.lines.map fun line => "  " ++ line ++ "\n")

def Func.text (f : Func) : String :=
  let params := ", ".intercalate (f.params.map valueText)
  let block (index : Nat) (block : Block) :=
    blockText index ++ ": ; " ++ block.name ++ "\n" ++ block.text
  "fn @" ++ f.name ++ "(" ++ params ++ ") \x7b\n" ++ String.join (f.blocks.mapIdx block) ++ "\x7d\n"

end Lowering.Ssa
