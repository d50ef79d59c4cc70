import Lowering.Flow.Reachability
import Lowering.Proofs.Dominance.Tree

/-!
# Reachable blocks

The blocks that a breadth-first search of a flow graph marks are those on paths from its start, and so are
the blocks that a dominator tree finds by a depth-first search of the edge tables.
-/

namespace Lowering

open Dominance

namespace FlowGraph

variable {n : Nat} {graph : FlowGraph n}

theorem mem_reached_iff {start block : Fin n} :
    block ∈ graph.reached start ↔ Relation.ReflTransGen graph.Leads start block := by
  have same : (fun a b => b ∈ graph.targets a) = graph.Leads :=
    funext fun a => funext fun b => propext mem_targets
  unfold reached
  rw [Search.mem_breadthFirst_iff]
  simp only [List.mem_singleton, exists_eq_left, Search.Reaches, same]

/-- The blocks reached are marked, unless one of them leads outside. -/
theorem reachable_eq_ok_iff {start : Nat} (inside : start < n) {keep : Table n Bool} :
    graph.reachable start = .ok keep ↔
      (∀ block, Relation.ReflTransGen graph.Leads ⟨start, inside⟩ block →
        ∀ target ∈ graph.succs block, target < n) ∧
      ∀ block, keep.get block = true ↔ Relation.ReflTransGen graph.Leads ⟨start, inside⟩ block := by
  have marks : (∀ block, keep.get block = true ↔
      Relation.ReflTransGen graph.Leads ⟨start, inside⟩ block) ↔
      Table.tabulate (fun block => (graph.reached ⟨start, inside⟩).contains block) = keep := by
    rw [Table.ext_iff]
    refine forall_congr' fun block => ?_
    rw [Table.get_tabulate, ← mem_reached_iff, ← List.contains_iff_mem, ← Bool.eq_iff_iff, eq_comm]
  have strays : (graph.reached ⟨start, inside⟩).findSome? graph.stray? = none ↔
      ∀ block, Relation.ReflTransGen graph.Leads ⟨start, inside⟩ block →
        ∀ target ∈ graph.succs block, target < n := by
    simp only [List.findSome?_eq_none_iff, mem_reached_iff, stray?_eq_none_iff]
  rw [marks, ← strays]
  unfold reachable
  rw [if_neg (by omega), dif_pos inside]
  cases found : (graph.reached ⟨start, inside⟩).findSome? graph.stray? with
  | none => simp [found]
  | some target => simp [found]

/-- Two searches agree with the paths of a flow graph.  Breadth first on the raw successor lists, every
block is visited at most once, and the blocks marked are those that a path leads to from the entry; a
dominator tree, depth first on the edge tables, finds the same blocks reachable, and no number outside of
the graph. -/
theorem searches_agree {entry : Nat}
    (closed : ∀ block, ∀ target ∈ graph.succs block, target < n) (inside : entry < n) :
    ∃ marks edges tree, graph.reachable entry = .ok marks ∧ Edges.build graph = .ok edges ∧
      DomTree.build edges entry = .ok tree ∧ (graph.reached ⟨entry, inside⟩).Nodup ∧
      (∀ block : Fin n, marks.get block = true ↔
        ∃ passed, Trail graph.Leads ⟨entry, inside⟩ block passed) ∧
      (∀ block : Fin n, tree.isReachable block.val = marks.get block) ∧
      ∀ number, n ≤ number → tree.isReachable number = false := by
  let marks : Table n Bool := Table.tabulate fun block => (graph.reached ⟨entry, inside⟩).contains block
  have marked (block : Fin n) :
      marks.get block = true ↔ Relation.ReflTransGen graph.Leads ⟨entry, inside⟩ block := by
    rw [Table.get_tabulate, List.contains_iff_mem, mem_reached_iff]
  obtain ⟨edges, tree, built, rooted, correct⟩ := exists_domTree closed inside
  refine ⟨marks, edges, tree, ?_, built, rooted, Search.nodup_breadthFirst _ _ _, fun block => ?_,
    fun block => ?_, fun number outside => ?_⟩
  · exact (reachable_eq_ok_iff inside).mpr ⟨fun block _ => closed block, marked⟩
  · rw [marked, ← correct.isReachable_iff, correct.isReachable_iff_trail]
  · rw [Bool.eq_iff_iff, correct.isReachable_iff, marked]
  · unfold DomTree.isReachable Table.get?
    rw [dif_neg (Nat.not_lt.mpr outside), Option.getD_none]

theorem searches_agree_irreducible :
    (∀ block, ∀ target ∈ irreducible.succs block, target < 5) ∧
      ∃ marks edges tree, irreducible.reachable 0 = .ok marks ∧
        Edges.build irreducible = .ok edges ∧ DomTree.build edges 0 = .ok tree ∧
        marks.get ⟨3, by decide⟩ = true ∧ tree.isReachable 3 = true ∧ tree.isReachable 5 = false := by
  have closed : ∀ block, ∀ target ∈ irreducible.succs block, target < 5 := by decide
  have path : Trail irreducible.Leads ⟨0, by decide⟩ ⟨3, by decide⟩
      [⟨3, by decide⟩, ⟨2, by decide⟩, ⟨0, by decide⟩] :=
    (Trail.start.step (show 2 ∈ [1, 2] by decide)).step (show 3 ∈ [1, 3, 3] by decide)
  obtain ⟨marks, edges, tree, isMarks, builtEdges, builtTree, _, marked, same, outside⟩ :=
    searches_agree closed (show 0 < 5 by decide)
  have reached := (marked ⟨3, by decide⟩).mpr ⟨_, path⟩
  exact ⟨closed, marks, edges, tree, isMarks, builtEdges, builtTree, reached,
    (same ⟨3, by decide⟩).trans reached, outside 5 (Nat.le_refl 5)⟩

end FlowGraph

end Lowering
