import Lowering.Dominance.Tour
import Lowering.Flow.Edges
import Lowering.Order
import Lowering.Ssa.Promotion.Placement

/-!
# Renaming

A tour of the dominator tree keeps, for every promoted slot, a stack of the values visible in it.
Stores and phis push, leaving a block pops what was pushed there.  A load becomes an alias of the
value on top, and every edge out of a block brings the values on top to the phis of its target.
-/

namespace Lowering.Ssa

/-- The state of a tour over `n` blocks with `k` promoted slots. -/
structure Renaming (n k : Nat) where
  /-- The visible values of each slot, the latest first. -/
  names : Table k (List Operand)
  /-- The slots pushed in each block that is open, the innermost first. -/
  pushed : List (List (Fin k))
  /-- What the results of removed loads stand for. -/
  aliases : NumberMap Operand
  /-- What the placed phis select from. -/
  incoming : NumberMap (Incoming Operand)
  /-- The instructions kept in each block. -/
  insts : Table n (List Inst)
  loads : Nat
  stores : Nat

namespace Renaming

variable {n k : Nat}

/-- Every slot holds `undef` and every placed phi selects from nothing. -/
def start (placed : List (PlacedPhi n k)) (insts : Fin n → List Inst) : Renaming n k where
  names := .replicate k [.undef]
  pushed := []
  aliases := ∅
  incoming := placed.foldl (fun incoming phi => incoming.insert phi.dest .empty) ∅
  insts := .tabulate insts
  loads := 0
  stores := 0

/-- The value of a slot here. -/
def top (state : Renaming n k) (slot : Fin k) : Except Fault Operand :=
  match state.names.get slot with
  | operand :: _ => .ok operand
  | [] => .error (.noReachingDefinition slot)

/-- Makes an operand the value of a slot until the innermost block is left. -/
def push (state : Renaming n k) (slot : Fin k) (operand : Operand) : Renaming n k :=
  { state with
    names := state.names.modify slot (operand :: ·)
    pushed :=
      match state.pushed with
      | innermost :: outer => (slot :: innermost) :: outer
      | [] => [] }

/-- Leaves the innermost block. -/
def pop (state : Renaming n k) : Renaming n k :=
  match state.pushed with
  | innermost :: outer =>
      { state with
        names := innermost.foldl (fun names slot => names.modify slot List.tail) state.names
        pushed := outer }
  | [] => state

def keep (state : Renaming n k) (block : Fin n) (inst : Inst) : Renaming n k :=
  { state with insts := state.insts.modify block (· ++ [inst]) }

/-- Renames one instruction: accesses to promoted slots go, all else is kept. -/
def inst (slotOf : Operand → Option (Fin k)) (block : Fin n) (state : Renaming n k)
    (inst : Inst) : Except Fault (Renaming n k) :=
  match inst with
  | .alloca dest =>
      .ok (if (slotOf (.value dest)).isSome then state else state.keep block inst)
  | .load dest addr =>
      match slotOf addr with
      | some slot => do
          let operand ← state.top slot
          return { state with
            aliases := state.aliases.insert dest operand
            loads := state.loads + 1 }
      | none => .ok (state.keep block inst)
  | .store value addr =>
      match slotOf addr with
      | some slot =>
          .ok { state.push slot value with stores := state.stores + 1 }
      | none => .ok (state.keep block inst)
  | _ => .ok (state.keep block inst)

/-- Brings the value of a phi's slot to the phi from a block. -/
def feed (block : Fin n) (state : Renaming n k) (phi : PlacedPhi n k) :
    Except Fault (Renaming n k) := do
  let operand ← state.top phi.slot
  match state.incoming.get? phi.dest with
  | some incoming =>
      return { state with
        incoming := state.incoming.insert phi.dest (incoming.insert block operand) }
  | none => .error (.phiNeverPlaced phi.dest)

/-- Enters or leaves a block. -/
def visit (slotOf : Operand → Option (Fin k)) (edges : Edges n) (placed : List (PlacedPhi n k))
    (state : Renaming n k) : Visit n → Except Fault (Renaming n k)
  | .leave _ => .ok state.pop
  | .enter block => do
      let phisAt (here : Fin n) := placed.filter fun phi => phi.block == here
      let opened := { state with pushed := [] :: state.pushed }
      let named := (phisAt block).foldl
        (fun state phi => state.push phi.slot (.value phi.dest)) opened
      let cleared := { named with insts := named.insts.set block [] }
      let renamed ← (state.insts.get block).foldlM (inst slotOf block) cleared
      ((edges.succs.get block).flatMap phisAt).foldlM (feed block) renamed

end Renaming

/-- What an operand stands for once at most `fuel` aliases are followed. -/
def resolve (aliases : NumberMap Operand) : Nat → Operand → Operand
  | fuel + 1, .value v =>
      match aliases.get? v with
      | some operand => resolve aliases fuel operand
      | none => .value v
  | _, operand => operand

end Lowering.Ssa
