import Std.Data.TreeMap
import Std.Data.TreeSet

/-!
# Undirected graphs

An undirected graph as an ordered adjacency map, so that its nodes and the neighbors of each node
are listed in ascending order.
-/

namespace Lowering

/-- A graph over nodes ordered by `cmp`, without self loops. -/
structure Graph (α : Type) (cmp : α → α → Ordering) where
  adjacency : Std.TreeMap α (Std.TreeSet α cmp) cmp

namespace Graph

variable {α : Type} {cmp : α → α → Ordering}

def empty : Graph α cmp := ⟨∅⟩

def nodes (graph : Graph α cmp) : List α := graph.adjacency.keys

/-- The neighbors of a node, none if it is not in the graph. -/
def neighbors? (graph : Graph α cmp) (a : α) : Option (List α) :=
  (graph.adjacency.get? a).map Std.TreeSet.toList

/-- The neighbors of a node, empty if it is not in the graph. -/
def neighbors (graph : Graph α cmp) (a : α) : List α := (graph.neighbors? a).getD []

def hasEdge (graph : Graph α cmp) (a b : α) : Bool :=
  match graph.adjacency.get? a with
  | some row => row.contains b
  | none => false

def edgeCount (graph : Graph α cmp) : Nat :=
  graph.adjacency.foldl (fun sum _ row => sum + row.size) 0 / 2

/-- Adds a node without neighbors, if it is not there yet. -/
def addNode (graph : Graph α cmp) (a : α) : Graph α cmp :=
  ⟨graph.adjacency.insertIfNew a ∅⟩

/-- Puts `b` into the row of `a`. -/
def addArc (graph : Graph α cmp) (a b : α) : Graph α cmp :=
  ⟨graph.adjacency.insert a ((graph.adjacency.getD a ∅).insert b)⟩

/-- Joins two nodes; a self loop changes nothing. -/
def addEdge (graph : Graph α cmp) (a b : α) : Graph α cmp :=
  if cmp a b = .eq then graph else (graph.addArc a b).addArc b a

/-- Would `addEdge` add an edge that is not there yet? -/
def isNewEdge (graph : Graph α cmp) (a b : α) : Bool :=
  cmp a b != .eq && !graph.hasEdge a b

end Graph

end Lowering
