import Lowering.Table

/-!
# Link/eval forests

A forest over `n` numbered vertices, each with a semidominator number.  `link` hangs a root below
a smaller vertex; `eval` finds the vertex of least semidominator on the path from a vertex up to,
but excluding, its root, and compresses that path.  Ancestors are smaller than their descendants,
which bounds the length of every path.
-/

namespace Lowering

/-- Vertices `0 … n - 1` with ancestor pointers, the best vertex seen towards the ancestor, and
semidominators. -/
structure Forest (n : Nat) where
  ancestor : Table n (Option (Fin n))
  best : Table n (Fin n)
  semi : Table n (Fin n)
  ancestor_lt : ∀ v a : Fin n, ancestor.get v = some a → a.val < v.val

namespace Forest

variable {n : Nat}

/-- Every vertex is a root, best for itself and its own semidominator. -/
def singletons (n : Nat) : Forest n where
  ancestor := Table.replicate n none
  best := Table.tabulate id
  semi := Table.tabulate id
  ancestor_lt := by
    intro v a equal
    rw [Table.get_replicate] at equal
    cases equal

/-- Is the vertex not linked to another one? -/
def isRoot (forest : Forest n) (v : Fin n) : Bool := (forest.ancestor.get v).isNone

theorem ancestor_lt_set (forest : Forest n) (v : Fin n) (up : Option (Fin n))
    (below : ∀ a, up = some a → a.val < v.val) (w a : Fin n)
    (equal : (forest.ancestor.set v up).get w = some a) : a.val < w.val := by
  rw [Table.get_set] at equal
  split at equal
  · next same => exact same ▸ below a equal
  · exact forest.ancestor_lt w a equal

/-- Fixes the semidominator of a vertex. -/
def setSemi (forest : Forest n) (v s : Fin n) : Forest n :=
  { forest with semi := forest.semi.set v s }

/-- Hangs `child` below `parent`. -/
def link (forest : Forest n) (parent child : Fin n) (below : parent.val < child.val) : Forest n where
  ancestor := forest.ancestor.set child (some parent)
  best := forest.best.set child child
  semi := forest.semi
  ancestor_lt := forest.ancestor_lt_set child (some parent) fun a equal => by
    cases equal
    exact below

/-- Lets `v` skip its ancestor `a`, taking over the better of the two candidates; at equal
semidominators the one nearer to `v` stays. -/
def skip (forest : Forest n) (v a : Fin n) (below : a.val < v.val) : Forest n where
  ancestor := forest.ancestor.set v (forest.ancestor.get a)
  best :=
    if forest.semi.get (forest.best.get a) < forest.semi.get (forest.best.get v)
    then forest.best.set v (forest.best.get a)
    else forest.best
  semi := forest.semi
  ancestor_lt := forest.ancestor_lt_set v (forest.ancestor.get a) fun b equal =>
    Nat.lt_trans (forest.ancestor_lt a b equal) below

/-- Shortens the path above `v` so that the ancestor of `v` is a root, topmost vertices first. -/
def compress (forest : Forest n) (v : Fin n) : Forest n :=
  match up : forest.ancestor.get v with
  | none => forest
  | some a =>
      if forest.isRoot a then forest
      else (forest.compress a).skip v a (forest.ancestor_lt v a up)
termination_by v.val
decreasing_by exact forest.ancestor_lt v a up

/-- The vertex of least semidominator on the path from `v` up to its root, the root excluded; a
root evaluates to itself. -/
def eval (forest : Forest n) (v : Fin n) : Forest n × Fin n :=
  if forest.isRoot v then (forest, v)
  else
    let compressed := forest.compress v
    (compressed, compressed.best.get v)

end Forest

end Lowering
