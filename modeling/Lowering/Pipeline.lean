import Lowering.Allocation.Allocator
import Lowering.Settings
import Lowering.Ssa.Check
import Lowering.Ssa.Promotion

/-!
# The passes of a stage

Every function of a module goes through the passes of its stage and, if the settings ask for it,
through the checks on their result.  The first fault or objection ends the run.
-/

namespace Lowering

namespace Ssa

/-- A pass whose result is checked. -/
abbrev Checked := ExceptT Objection Pass

namespace Func

/-- All checks on the result of a promotion. -/
def checkLowered (f : Func) (promoted : List Nat) : Checked Unit := do
  ExceptT.mk (pure f.checkSingleDefinition)
  ExceptT.mk (Pass.lift f.checkPhis)
  ExceptT.mk f.checkDominance
  ExceptT.mk (pure (f.checkPromoted promoted))

/-- Promotes or only prunes; also gives the promoted slots. -/
def simplify (f : Func) (settings : Settings) : Pass (Func × List Nat) := do
  if settings.promote then
    let (promoted, stats) ← f.promote
    return (promoted, stats.slots)
  else
    let (pruned, _) ← f.prune
    return (pruned, [])

def lower (settings : Settings) (f : Func) : Checked Func := do
  let (lowered, promoted) ← f.simplify settings
  if settings.verify then lowered.checkLowered promoted
  return lowered

end Func

end Ssa

namespace Machine

/-- A pass whose result is checked. -/
abbrev Checked := ExceptT Objection Pass

def Allocator.ofSettings (settings : Settings) : Except Fault Allocator :=
  ofLimits settings.registers settings.coalesce settings.maxRounds

def Func.lower (settings : Settings) (allocator : Allocator) (f : Func) : Checked Func := do
  let (allocated, report) ← allocator.allocate f
  Pass.note .program (f.name ++ ": " ++ report.text)
  if settings.verify then ExceptT.mk (Pass.lift allocated.checkAllocated)
  return allocated

end Machine

/-- Lowers every function of an SSA module. -/
def Settings.lowerSsa (settings : Settings) (funcs : List Ssa.Func) :
    Ssa.Checked (List Ssa.Func) :=
  funcs.mapM (Ssa.Func.lower settings)

/-- Lowers every function of a machine module. -/
def Settings.lowerMachine (settings : Settings) (funcs : List Machine.Func) :
    Machine.Checked (List Machine.Func) := do
  let allocator ← ExceptT.lift (Pass.lift (Machine.Allocator.ofSettings settings))
  funcs.mapM (Machine.Func.lower settings allocator)

end Lowering
