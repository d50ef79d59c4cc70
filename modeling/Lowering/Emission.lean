import Lowering.Machine.Printing
import Lowering.Ssa.Printing
import Lowering.Text.Quoted

/-!
# Printed modules
-/

namespace Lowering

/-- The functions with an empty line between two of them. -/
def Ssa.moduleText (funcs : List Ssa.Func) : String :=
  "\n".intercalate (funcs.map Ssa.Func.text)

/-- An assembly file with every function of the module read from `source`. -/
def Machine.moduleText (source : String) (funcs : List Machine.Func) : Except Fault String := do
  let texts ← funcs.mapM Machine.Func.text
  return "\t.file\t" ++ Text.quoted source ++ "\n\t.text\n" ++
    String.join (texts.map fun text => "\t.align\t2\n" ++ text ++ "\n")

end Lowering
