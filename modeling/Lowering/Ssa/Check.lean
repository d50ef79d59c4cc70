import Lowering.Dominance.Building
import Lowering.Order
import Lowering.Ssa.Printing

/-!
# Checks on SSA functions

Phis select from exactly the predecessors of their block, every value is defined once, every use is
dominated by its definition, and promoted slots are no longer accessed.  A check that fails says
why; only malformed control flow is a fault.
-/

namespace Lowering.Ssa

/-- What a check objects to. -/
inductive Objection where
  | phiKeys (function : String) (dest block : Nat) (keys preds : List Nat)
  | redefined (function : String) (v : Nat)
  | unreachable (function : String) (block : Nat)
  | undefinedUse (function : String) (v block : Nat)
  | notDominated (function : String) (v definedIn usedIn : Nat)
  | stillAccessed (function : String) (slot : Nat) (inst : Inst) (block : Nat)
deriving DecidableEq, Repr

/-- A set of blocks as objections show it. -/
def blockSetText (blocks : List Nat) : String :=
  "\x7b" ++ ", ".intercalate (blocks.map fun block => s!"BlockId({block})") ++ "\x7d"

def Objection.message : Objection → String
  | phiKeys function dest block keys preds =>
      function ++ ": phi " ++ valueText dest ++ " in " ++ blockText block ++ " has incoming " ++
        blockSetText keys ++ " but predecessors " ++ blockSetText preds
  | redefined function v => function ++ ": " ++ valueText v ++ " is defined more than once"
  | unreachable function block => function ++ ": " ++ blockText block ++ " is unreachable"
  | undefinedUse function v block =>
      function ++ ": use of undefined value " ++ valueText v ++ " in " ++ blockText block
  | notDominated function v definedIn usedIn =>
      function ++ ": " ++ valueText v ++ " defined in " ++ blockText definedIn ++
        " does not dominate its use in " ++ blockText usedIn
  | stillAccessed function slot inst block =>
      function ++ ": promoted slot " ++ valueText slot ++ " still accessed by `" ++ inst.text ++
        "` in " ++ blockText block

/-- Nothing, or an objection. -/
abbrev Verdict := Except Objection Unit

/-- A place in a function: phis and parameters are at position `0` of their block, instruction `i`
at `i + 1`, the terminator behind the instructions. -/
structure Point where
  block : Nat
  position : Nat
deriving DecidableEq, Repr

namespace Block

/-- The values a block defines, with their places. -/
def definitions (index : Nat) (block : Block) : List (Nat × Point) :=
  block.phis.map (fun phi => (phi.dest, ⟨index, 0⟩)) ++
    (block.insts.mapIdx fun i inst => inst.def?.toList.map fun v => (v, ⟨index, i + 1⟩)).flatten

/-- The position of the terminator. -/
def endPosition (block : Block) : Nat := block.insts.length + 1

/-- The operands of instructions and terminator, with their places. -/
def uses (index : Nat) (block : Block) : List (Operand × Point) :=
  (block.insts.mapIdx fun i inst =>
      inst.operands.map fun operand => (operand, ⟨index, i + 1⟩)).flatten ++
    block.term.operands.map fun operand => (operand, ⟨index, block.endPosition⟩)

end Block

namespace Func

/-- The values a function defines, with their places. -/
def definitions (f : Func) : List (Nat × Point) :=
  f.params.map (fun param => (param, ⟨FlowGraph.entry, 0⟩)) ++
    (f.blocks.mapIdx Block.definitions).flatten

/-- The place of each defined value; a second definition is objected to. -/
def definitionMap (f : Func) : Except Objection (NumberMap Point) :=
  f.definitions.foldlM
    (fun known (v, point) =>
      if known.contains v then .error (.redefined f.name v) else .ok (known.insert v point))
    ∅

/-- Every value is defined once. -/
def checkSingleDefinition (f : Func) : Verdict := f.definitionMap.map fun _ => ()

/-- The entries of every phi are for the predecessors of its block. -/
def checkPhis (f : Func) : Except Fault Verdict := do
  let edges ← Edges.build f.flow
  return (List.finRange f.blocks.length).forM fun block =>
    let preds := (edges.preds.get block).map Fin.val
    (f.blocks.get block).phis.forM fun phi =>
      if phi.incoming.keys = preds then .ok ()
      else .error (.phiKeys f.name phi.dest block phi.incoming.keys preds)

/-- Is an operand available at a point? -/
def checkUse {n : Nat} (f : Func) (tree : DomTree n) (known : NumberMap Point)
    (operand : Operand) (use : Point) : Except Fault Verdict :=
  match operand.value? with
  | none => .ok (.ok ())
  | some v =>
      match known.get? v with
      | none => .ok (.error (.undefinedUse f.name v use.block))
      | some point => do
          let available ←
            if point.block = use.block then .ok (decide (point.position < use.position))
            else tree.dominates point.block use.block
          return if available then .ok ()
            else .error (.notDominated f.name v point.block use.block)

/-- The operands of a block's phis are used at the ends of its predecessors. -/
def phiUses (f : Func) (block : Block) : List (Except Fault (Operand × Point)) :=
  block.phis.flatMap fun phi =>
    phi.incoming.entries.map fun (pred, operand) => do
      let source ← fetch f.blocks pred
      return (operand, ⟨pred, source.endPosition⟩)

/-- All uses of a function in the order they are checked. -/
def uses (f : Func) : List (Except Fault (Operand × Point)) :=
  (f.blocks.mapIdx fun index block =>
    f.phiUses block ++ (block.uses index).map Except.ok).flatten

/-- Runs checks in turn up to the first fault or objection. -/
def firstObjection : List (Except Fault Verdict) → Except Fault Verdict
  | [] => .ok (.ok ())
  | .error fault :: _ => .error fault
  | .ok (.error objection) :: _ => .ok (.error objection)
  | .ok (.ok ()) :: rest => firstObjection rest

/-- Every use is dominated by its definition; operands of phis at the end of the predecessor. -/
def checkDominance (f : Func) : Pass Verdict :=
  match f.definitionMap with
  | .error objection => return .error objection
  | .ok known => do
      let edges ← Edges.build f.flow
      let tree ← DomTree.construct edges FlowGraph.entry
      match (List.range f.blocks.length).find? fun block => !tree.isReachable block with
      | some block => return .error (.unreachable f.name block)
      | none =>
          firstObjection <| f.uses.map fun use => do
            let (operand, point) ← use
            f.checkUse tree known operand point

/-- The slot an instruction accesses or makes. -/
def accessedSlot? : Inst → Option Nat
  | .alloca dest => some dest
  | inst => inst.address?.bind Operand.value?

/-- No instruction accesses one of the slots. -/
def checkPromoted (f : Func) (slots : List Nat) : Verdict :=
  (f.blocks.mapIdx Prod.mk).forM fun (index, block) =>
    block.insts.forM fun inst =>
      match (accessedSlot? inst).filter slots.contains with
      | some slot => .error (.stillAccessed f.name slot inst index)
      | none => .ok ()

end Func

end Lowering.Ssa
