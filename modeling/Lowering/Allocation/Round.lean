import Lowering.Allocation.Interference

/-!
# Rounds of register allocation

A round takes registers off the interference graph until none is left: registers with few
neighbors are stacked, copies are merged if that cannot make the graph harder to color, copies that
stand in the way are given up, and in the end a register with many neighbors is stacked in the hope
of a free color.  Everything a step does is a function of the round.
-/

namespace Lowering.Machine

/-- Where a register that is not physical waits while it is in the graph. -/
inductive Worklist where
  /-- Few neighbors and no pending copies: ready to be stacked. -/
  | simplify
  /-- Few neighbors, but copies that may still be merged. -/
  | freeze
  /-- Many neighbors. -/
  | spill
deriving DecidableEq, Repr

/-- What has become of a copy. -/
inductive MoveState where
  /-- To be considered. -/
  | worklist
  /-- Considered, but not safe to merge yet. -/
  | active
  | coalesced
  /-- The operands interfere. -/
  | constrained
  /-- Given up. -/
  | frozen
deriving DecidableEq, Repr

/-- A round with `m` copies.  A register on a worklist has its number of neighbors in the graph beside
it. -/
structure Round (m : Nat) where
  pool : List PhysReg
  /-- Registers that must differ in color; merged ones included. -/
  graph : InterferenceGraph
  simplifyList : RegMap Nat
  freezeList : RegMap Nat
  spillList : RegMap Nat
  /-- Merged registers, with the registers they were merged into. -/
  merged : RegMap Reg
  /-- Stacked registers, the latest first. -/
  stack : List Reg
  moves : Table m MoveSite
  moveStates : Table m MoveState
  /-- The copies of each register and of those merged into it, ascending. -/
  moveLists : RegMap (List (Fin m))

namespace Round

variable {m : Nat}

/-- The number of colors. -/
def k (round : Round m) : Nat := round.pool.length

def worklist (round : Round m) : Worklist → RegMap Nat
  | .simplify => round.simplifyList
  | .freeze => round.freezeList
  | .spill => round.spillList

/-- The number of neighbors of a register on a worklist. -/
def degree (round : Round m) (reg : Reg) : Nat :=
  match round.simplifyList.get? reg, round.freezeList.get? reg with
  | some degree, _ => degree
  | none, some degree => degree
  | none, none => round.spillList.getD reg 0

/-- Physical registers count as having more neighbors than there are colors. -/
def isSignificant (round : Round m) (reg : Reg) : Bool :=
  reg.isPhysical || round.k ≤ round.degree reg

/-- Is the register still in the graph? -/
def isPresent (round : Round m) (reg : Reg) : Bool :=
  reg.isPhysical || round.simplifyList.contains reg || round.freezeList.contains reg ||
    round.spillList.contains reg

/-- The neighbors still in the graph. -/
def adjacent (round : Round m) (reg : Reg) : List Reg :=
  (round.graph.neighbors reg).filter round.isPresent

/-- May the copy still be merged? -/
def isPending (round : Round m) (move : Fin m) : Bool :=
  match round.moveStates.get move with
  | .worklist | .active => true
  | .coalesced | .constrained | .frozen => false

/-- The copies of a register that may still be merged. -/
def pendingMoves (round : Round m) (reg : Reg) : List (Fin m) :=
  (round.moveLists.getD reg []).filter round.isPending

def isMoveRelated (round : Round m) (reg : Reg) : Bool := !(round.pendingMoves reg).isEmpty

/-- Takes a register off its worklist. -/
def leave (round : Round m) (reg : Reg) : Round m :=
  { round with
    simplifyList := round.simplifyList.erase reg
    freezeList := round.freezeList.erase reg
    spillList := round.spillList.erase reg }

/-- Puts a register with a number of neighbors on a worklist. -/
def put (round : Round m) (worklist : Worklist) (reg : Reg) (degree : Nat) : Round m :=
  match worklist with
  | .simplify => { round with simplifyList := round.simplifyList.insert reg degree }
  | .freeze => { round with freezeList := round.freezeList.insert reg degree }
  | .spill => { round with spillList := round.spillList.insert reg degree }

/-- Moves a register to a worklist. -/
def enter (round : Round m) (worklist : Worklist) (reg : Reg) : Round m :=
  (round.leave reg).put worklist reg (round.degree reg)

def setMoveState (round : Round m) (move : Fin m) (state : MoveState) : Round m :=
  { round with moveStates := round.moveStates.set move state }

/-- Changes the number of neighbors of a register on a worklist. -/
def modifyDegree (round : Round m) (reg : Reg) (change : Nat → Nat) : Round m :=
  { round with
    simplifyList := round.simplifyList.modify reg change
    freezeList := round.freezeList.modify reg change
    spillList := round.spillList.modify reg change }

/-- Joins two registers and counts a new neighbor for both. -/
def addEdge (round : Round m) (a b : Reg) : Round m :=
  if round.graph.isNewEdge a b then
    ({ round with graph := round.graph.addEdge a b }.modifyDegree a (· + 1)).modifyDegree b (· + 1)
  else round

/-- The copies in a given state, ascending. -/
def movesIn (round : Round m) (state : MoveState) : List (Fin m) :=
  (List.finRange m).filter fun move => round.moveStates.get move == state

/-- Follows merges from a register, at most `fuel` of them. -/
def follow (round : Round m) : Nat → Reg → Reg
  | 0, reg => reg
  | fuel + 1, reg =>
      match round.merged.get? reg with
      | some into => round.follow fuel into
      | none => reg

/-- The register that a register has been merged into, directly or not. -/
def representative (round : Round m) (reg : Reg) : Reg := round.follow round.merged.size reg

/-- Lets the given registers' copies be considered again. -/
def enableMoves (round : Round m) (regs : List Reg) : Round m :=
  regs.foldl
    (fun round reg =>
      (round.pendingMoves reg).foldl
        (fun round move =>
          if round.moveStates.get move = .active then round.setMoveState move .worklist
          else round)
        round)
    round

/-- Takes a neighbor of a register out of the count.  A register that now has fewer neighbors than
there are colors leaves the spill candidates. -/
def decrementDegree (round : Round m) (reg : Reg) : Round m :=
  if reg.isPhysical then round
  else
    let before := round.degree reg
    let round := round.modifyDegree reg (· - 1)
    if before = round.k && round.spillList.contains reg then
      let round := round.enableMoves (round.adjacent reg ++ [reg])
      round.enter (if round.isMoveRelated reg then .freeze else .simplify) reg
    else round

/-- Stacks a register. -/
def simplify (round : Round m) (reg : Reg) : Round m :=
  let round := { round.leave reg with stack := reg :: round.stack }
  (round.adjacent reg).foldl decrementDegree round

/-- Makes a register ready to be stacked if nothing is in the way. -/
def addWorklist (round : Round m) (reg : Reg) : Round m :=
  if !reg.isPhysical && !round.isMoveRelated reg && round.degree reg < round.k then
    round.enter .simplify reg
  else round

/-- Can a neighbor of a register do no harm to physical register `u` if the register becomes `u`? -/
def isHarmless (round : Round m) (u neighbor : Reg) : Bool :=
  !round.isSignificant neighbor || neighbor.isPhysical || round.graph.hasEdge neighbor u

/-- Do fewer registers than there are colors have many neighbors? -/
def isConservative (round : Round m) (regs : RegSet) : Bool :=
  (regs.toList.countP round.isSignificant) < round.k

/-- Is a physical register one of the pool? -/
def isInPool (round : Round m) : Reg → Bool
  | .physical reg => round.pool.contains reg
  | .virtual _ | .spilled _ => false

/-- Is it safe to merge `v` into `u`? -/
def isMergeable (round : Round m) (u v : Reg) : Bool :=
  if u.isPhysical then (round.adjacent v).all (round.isHarmless u)
  else
    round.isConservative (Std.TreeSet.ofList (round.adjacent u ++ round.adjacent v) Reg.order)

/-- Merges `v` into `u`. -/
def combine (round : Round m) (u v : Reg) : Round m :=
  let round := { round.leave v with merged := round.merged.insert v u }
  let ofU := round.moveLists.getD u []
  let ofV := round.moveLists.getD v []
  let both := (List.finRange m).filter fun move => ofU.contains move || ofV.contains move
  let round := { round with moveLists := round.moveLists.insert u both }
  let round := round.enableMoves [v]
  let round := (round.adjacent v).foldl
    (fun round t => (round.addEdge t u).decrementDegree t) round
  if round.isSignificant u && round.freezeList.contains u then round.enter .spill u
  else round

/-- Considers a copy. -/
def coalesce (round : Round m) (move : Fin m) : Round m :=
  let site := round.moves.get move
  let x := round.representative site.dest
  let y := round.representative site.src
  let (u, v) := if y.isPhysical then (y, x) else (x, y)
  if u = v then (round.setMoveState move .coalesced).addWorklist u
  else if v.isPhysical || round.graph.hasEdge u v || (u.isPhysical && !round.isInPool u) then
    ((round.setMoveState move .constrained).addWorklist u).addWorklist v
  else if round.isMergeable u v then
    ((round.setMoveState move .coalesced).combine u v).addWorklist u
  else round.setMoveState move .active

/-- Gives a copy of `u` up; its other operand may become ready to be stacked. -/
def freezeMove (u : Reg) (round : Round m) (move : Fin m) : Round m :=
  let site := round.moves.get move
  let v :=
    if round.representative site.src = round.representative u then
      round.representative site.dest
    else round.representative site.src
  let round := round.setMoveState move .frozen
  if round.freezeList.contains v && !round.isMoveRelated v then round.enter .simplify v
  else round

/-- Gives all pending copies of a register up. -/
def freezeMoves (round : Round m) (reg : Reg) : Round m :=
  (round.pendingMoves reg).foldl (freezeMove reg) round

/-- Gives the copies of a register up so that it can be stacked. -/
def freeze (round : Round m) (reg : Reg) : Round m :=
  (round.enter .simplify reg).freezeMoves reg

/-- The better one of a spill candidate and the next: the one with more neighbors. -/
def betterSpill (best : Option (Reg × Nat)) (reg : Reg) (degree : Nat) : Option (Reg × Nat) :=
  match best with
  | none => some (reg, degree)
  | some (_, most) => if most < degree then some (reg, degree) else best

/-- The candidate with the most neighbors, the first of several. -/
def spillChoice? (round : Round m) : Option Reg :=
  (round.spillList.foldl betterSpill none).map Prod.fst

/-- One step: stack a register, consider a copy, give copies up, or pick a spill candidate, in this
order of preference and the first of several; none if there is nothing left to do. -/
def step? (round : Round m) : Option (Round m) :=
  match round.simplifyList.minKey? with
  | some reg => some (round.simplify reg)
  | none =>
      match round.movesIn .worklist with
      | move :: _ => some (round.coalesce move)
      | [] =>
          match round.freezeList.minKey? with
          | some reg => some (round.freeze reg)
          | none => round.spillChoice?.map round.freeze

/-- Takes at most `fuel` steps. -/
def steps (round : Round m) : Nat → Round m
  | 0 => round
  | fuel + 1 =>
      match round.step? with
      | some next => next.steps fuel
      | none => round

/-- More steps than a round can take: each register is stacked or merged once and leaves the spill
candidates at most twice, and each such event lets every copy be considered once more. -/
def stepBound (round : Round m) : Nat := 3 * (round.graph.nodes.length + 1) * (m + 1)

/-- Steps until there is nothing left to do. -/
def run (round : Round m) : Round m := round.steps round.stepBound

/-- A round on a graph that the operands of its copies are nodes of. -/
def startOn (pool : List PhysReg) (graph : InterferenceGraph) (moves : Table m MoveSite) :
    Round m :=
  let movesOf (reg : Reg) : List (Fin m) :=
    (List.finRange m).filter fun move =>
      (moves.get move).dest == reg || (moves.get move).src == reg
  let first (reg : Reg) : Worklist :=
    if pool.length ≤ (graph.neighbors reg).length then .spill
    else if (movesOf reg).isEmpty then .simplify
    else .freeze
  let empty : Round m :=
    { pool, graph, moves
      simplifyList := ∅
      freezeList := ∅
      spillList := ∅
      merged := ∅
      stack := []
      moveStates := .replicate m .worklist
      moveLists := graph.nodes.foldl (fun lists reg => lists.insert reg (movesOf reg)) ∅ }
  (graph.nodes.filter fun reg => !reg.isPhysical).foldl
    (fun round reg => round.put (first reg) reg (graph.neighbors reg).length) empty

/-- The registers that copies read and write. -/
def operandsOf (moves : Table m MoveSite) : List Reg :=
  (List.finRange m).flatMap fun move => [(moves.get move).dest, (moves.get move).src]

/-- The graph that a round works on: the operands of its copies are nodes. -/
def admitted (graph : InterferenceGraph) (moves : Table m MoveSite) : InterferenceGraph :=
  (operandsOf moves).foldl (fun graph reg => graph.addNode reg) graph

/-- The round of an interference graph and the copies that may be merged. -/
def start (pool : List PhysReg) (graph : InterferenceGraph) (moves : Table m MoveSite) :
    Round m :=
  startOn pool (admitted graph moves) moves

end Round

end Lowering.Machine
