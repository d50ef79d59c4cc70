import Lowering.Dominance.Immediate
import Lowering.Flow.Edges
import Lowering.Flow.Search

/-!
# Dominator trees

The tree of immediate dominators of a flow graph, with its preorder.  A block dominates exactly a
contiguous run of the preorder that starts at the block itself, so a dominance query compares
positions.
-/

namespace Lowering

/-- A depth-first search of `n` blocks: the visited blocks in order, each after the block it was
reached from. -/
structure Spanning (n : Nat) where
  walk : List (Fin n × Fin n)

namespace Spanning

variable {n : Nat}

/-- The search of a graph from a block; the start counts as reached from itself. -/
def search (succ : Fin n → List (Fin n)) (start : Fin n) : Spanning n :=
  ⟨Search.depthFirst succ (Search.Marks.none n) [(start, start)]⟩

/-- The number of blocks visited. -/
def count (span : Spanning n) : Nat := span.walk.length

/-- The block with a given number. -/
def vertex (span : Spanning n) (w : Fin span.count) : Fin n := (span.walk.get w).2

/-- The number of a block, if it was visited. -/
def number? (span : Spanning n) (block : Fin n) : Option (Fin span.count) :=
  span.walk.findFinIdx? fun step => step.2 == block

/-- The number of the block that a block was reached from. -/
def parent (span : Spanning n) (w : Fin span.count) : Fin span.count :=
  (span.number? (span.walk.get w).1).getD w

end Spanning

/-- The dominator tree of a flow graph over `n` blocks. -/
structure DomTree (n : Nat) where
  root : Nat
  reachable : Table n Bool
  /-- Immediate dominators; none for the root and for unreachable blocks. -/
  idom : Table n (Option (Fin n))
  /-- Blocks by immediate dominator, ascending. -/
  children : Table n (List (Fin n))
  preorder : List (Fin n)
  /-- Position of each block in the preorder. -/
  position : Table n Nat
  /-- Number of blocks that each block dominates. -/
  extent : Table n Nat
deriving DecidableEq, Repr

namespace DomTree

variable {n : Nat}

/-- Immediate dominators of the blocks reachable from `root`. -/
def idoms (edges : Edges n) (root : Fin n) : Table n (Option (Fin n)) :=
  let span := Spanning.search (fun block => edges.succs.get block) root
  let numbers := Table.tabulate span.number?
  if some_visited : 0 < span.count then
    let zero : Fin span.count := ⟨0, some_visited⟩
    let parents := Table.tabulate span.parent
    let idom := immediateDominators zero (fun w => parents.get w) fun w =>
      (edges.preds.get (span.vertex w)).filterMap fun pred => numbers.get pred
    numbers.map fun number =>
      number.bind fun w => if w = zero then none else some (span.vertex (idom.get w))
  else Table.replicate n none

/-- The tree with the given immediate dominators. -/
def assemble (root : Fin n) (reachable : Table n Bool) (idom : Table n (Option (Fin n))) :
    DomTree n :=
  let children := Table.tabulate fun block =>
    (List.finRange n).filter fun child => idom.get child == some block
  let preorder := (Spanning.search (fun block => children.get block) root).walk.map Prod.snd
  let extent := preorder.reverse.foldl
    (fun extent block =>
      match idom.get block with
      | some above => extent.set above (extent.get above + extent.get block)
      | none => extent)
    (Table.replicate n 1)
  { root, reachable, idom, children, preorder, extent
    position := Table.tabulate fun block => preorder.idxOf block }

/-- The dominator tree of the blocks reachable from `root`. -/
def rooted (edges : Edges n) (root : Fin n) : DomTree n :=
  let span := Spanning.search (fun block => edges.succs.get block) root
  assemble root (Table.tabulate fun block => (span.number? block).isSome) (idoms edges root)

/-- The dominator tree from an entry block; a graph without blocks has the empty tree. -/
def build (edges : Edges n) (entry : Nat) : Except Fault (DomTree n) :=
  if inside : entry < n then .ok (rooted edges ⟨entry, inside⟩)
  else if n = 0 then
    .ok
      { root := entry
        reachable := Table.replicate n false
        idom := Table.replicate n none
        children := Table.replicate n []
        preorder := []
        position := Table.replicate n 0
        extent := Table.replicate n 0 }
  else .error (.outOfBounds n entry)

/-- Is the block reachable from the root?  False for numbers that are no blocks. -/
def isReachable (tree : DomTree n) (block : Nat) : Bool := (tree.reachable.get? block).getD false

/-- Does `a` dominate `b`?  Meant for reachable blocks; every one of them dominates itself. -/
def contains (tree : DomTree n) (a b : Fin n) : Bool :=
  tree.position.get a ≤ tree.position.get b &&
    tree.position.get b < tree.position.get a + tree.extent.get a

/-- The immediate dominator of a reachable block, none for the root. -/
def idom? (tree : DomTree n) (block : Nat) : Except Fault (Option (Fin n)) :=
  if tree.isReachable block then .ok ((tree.idom.get? block).getD none)
  else .error (.unreachableIdom block)

/-- Does `a` dominate `b`, both reachable? -/
def dominates (tree : DomTree n) (a b : Nat) : Except Fault Bool :=
  if tree.isReachable a && tree.isReachable b then
    if inside : a < n ∧ b < n then .ok (tree.contains ⟨a, inside.1⟩ ⟨b, inside.2⟩)
    else .ok false
  else .error (.unreachableDominance a b)

/-- The blocks that a block dominates immediately, ascending. -/
def childrenOf (tree : DomTree n) (block : Nat) : Except Fault (List (Fin n)) :=
  match tree.children.get? block with
  | some children => .ok children
  | none => .error (.outOfBounds n block)

end DomTree

end Lowering
