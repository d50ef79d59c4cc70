import Lowering.Allocation.Liveness
import Lowering.Graph

/-!
# Interference

Two registers interfere if one is defined while the other is live, unless the definition copies the
other.  Interfering registers never share a physical register.
-/

namespace Lowering.Machine

/-- Which registers interfere. -/
abbrev InterferenceGraph := Graph Reg Reg.order

/-- Joins each of some registers with all live ones. -/
def InterferenceGraph.joinAll (graph : InterferenceGraph) (defs : List Reg) (live : RegSet) :
    InterferenceGraph :=
  defs.foldl (fun graph d => live.foldl (fun graph l => graph.addEdge d l) graph) graph

/-- Takes an instruction into account, given what is live after it; also gives what is live before
it.  The source of a copy does not interfere with its destination. -/
def Instr.interfere (instr : Instr) (below : InterferenceGraph × RegSet) :
    InterferenceGraph × RegSet :=
  let (graph, live) := below
  let defs := instr.defs.filter Reg.isTracked
  let uses := instr.uses.filter Reg.isTracked
  let kept := if instr.isMove then RegSet.removeAll live uses else live
  let after := RegSet.addTracked kept defs
  (graph.joinAll defs after, RegSet.addTracked (RegSet.removeAll after defs) uses)

/-- Takes a block into account, given what is live at its end. -/
def Block.interfere (block : Block) (liveOut : RegSet) (graph : InterferenceGraph) :
    InterferenceGraph :=
  (block.instrs.foldr Instr.interfere (graph, RegSet.addTracked liveOut block.term.uses)).1

namespace Func

/-- The tracked registers of a function, not joined. -/
def trackedNodes (f : Func) : InterferenceGraph :=
  (f.regSet.toList.filter Reg.isTracked).foldl (fun graph reg => graph.addNode reg) .empty

/-- The interference graph of a function from its live sets. -/
def interference (f : Func) (liveness : Liveness f.blocks.length) : InterferenceGraph :=
  (List.finRange f.blocks.length).foldl
    (fun graph block => (f.blocks.get block).interfere (liveness.liveOut.get block) graph)
    f.trackedNodes

end Func

end Lowering.Machine
