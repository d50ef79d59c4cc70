import Lowering.Dominance.Forest

/-!
# Immediate dominators by semidominators

Works on vertices that carry their depth-first numbers.  The sweep visits the vertices from the
last to the first: it finds the semidominator of each through the forest of the vertices already
visited, and settles the immediate dominator of those whose semidominator is the parent just
linked, or defers them to a vertex with the same dominator.
-/

namespace Lowering

/-- What a sweep over `n` vertices has found so far. -/
structure Sweep (n : Nat) where
  forest : Forest n
  /-- Vertices waiting for their semidominator to be linked. -/
  bucket : Table n (List (Fin n))
  idom : Table n (Fin n)
  /-- Vertices whose immediate dominator is that of an earlier vertex. -/
  deferred : Table n (Option (Fin n))

namespace Sweep

variable {n : Nat}

def start (zero : Fin n) : Sweep n where
  forest := .singletons n
  bucket := Table.replicate n []
  idom := Table.replicate n zero
  deferred := Table.replicate n none

/-- The smaller of a semidominator found so far and what a predecessor offers: the predecessor
itself if it comes no later than `w`, else the least semidominator above it. -/
def offer (w : Fin n) (found : Forest n × Fin n) (pred : Fin n) : Forest n × Fin n :=
  let (forest, least) := found
  if pred ≤ w then (forest, if pred < least then pred else least)
  else
    let (forest, u) := forest.eval pred
    (forest, if forest.semi.get u < least then forest.semi.get u else least)

/-- Settles or defers a vertex that waited for `parent` to be linked. -/
def settle (parent : Fin n) (sweep : Sweep n) (v : Fin n) : Sweep n :=
  let (forest, y) := sweep.forest.eval v
  if forest.semi.get y = forest.semi.get v then
    { sweep with forest, idom := sweep.idom.set v parent }
  else
    { sweep with forest, deferred := sweep.deferred.set v (some y) }

/-- Visits vertex `w` with its depth-first parent and its predecessors. -/
def visit (parent : Fin n → Fin n) (preds : Fin n → List (Fin n)) (sweep : Sweep n)
    (w : Fin n) : Sweep n :=
  let p := parent w
  if below : p.val < w.val then
    let (forest, s) := (preds w).foldl (offer w) (sweep.forest, p)
    let bucket := sweep.bucket.set s (sweep.bucket.get s ++ [w])
    let linked : Sweep n :=
      { sweep with
        forest := (forest.setSemi w s).link p w below
        bucket := bucket.set p [] }
    (bucket.get p).foldl (settle p) linked
  else sweep

/-- Vertices deferred to an earlier one take its immediate dominator. -/
def resolve (sweep : Sweep n) : Table n (Fin n) :=
  (List.finRange n).foldl
    (fun idom w =>
      match sweep.deferred.get w with
      | some y => idom.set w (idom.get y)
      | none => idom)
    sweep.idom

end Sweep

/-- Immediate dominators of vertices numbered depth first, from the parent of each vertex in the
search and its predecessors.  The entry for `zero` is `zero` itself. -/
def immediateDominators {n : Nat} (zero : Fin n) (parent : Fin n → Fin n)
    (preds : Fin n → List (Fin n)) : Table n (Fin n) :=
  let vertices := (List.finRange n).filter fun w => zero < w
  (vertices.reverse.foldl (Sweep.visit parent preds) (.start zero)).resolve

end Lowering
