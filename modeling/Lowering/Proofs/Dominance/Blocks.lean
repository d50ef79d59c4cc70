import Lowering.Proofs.Dominance.Spanning
import Lowering.Proofs.Dominance.Sweep

/-!
# Immediate dominators of blocks

Paths between visited blocks and paths between their depth-first numbers correspond, so dominance
among numbers is dominance among blocks.
-/

namespace Lowering.Spanning.Complete

open Search Dominance

variable {n : Nat} {succ : Fin n → List (Fin n)} {root : Fin n} {span : Spanning n}

variable (complete : span.Complete succ root)
include complete

theorem trail_vertex {w : Fin span.count} {passed : List (Fin span.count)}
    (path : Trail (span.Joins succ) ⟨0, complete.count_pos⟩ w passed) :
    Trail (fun a b => b ∈ succ a) root (span.vertex w) (passed.map span.vertex) := by
  induction path with
  | start =>
      rw [List.map_cons, List.map_nil, complete.vertex_zero]
      exact .start
  | step _ joined ih => exact ih.step joined

theorem exists_trail_vertex {block : Fin n} {passed : List (Fin n)}
    (path : Trail (fun a b => b ∈ succ a) root block passed) :
    ∃ w numbers, span.vertex w = block ∧ numbers.map span.vertex = passed ∧
      Trail (span.Joins succ) ⟨0, complete.count_pos⟩ w numbers := by
  induction path with
  | start =>
      refine ⟨⟨0, complete.count_pos⟩, _, complete.vertex_zero, ?_, .start⟩
      rw [List.map_cons, List.map_nil, complete.vertex_zero]
  | step path joined ih =>
      obtain ⟨v, numbers, rfl, rfl, found⟩ := ih
      obtain ⟨w, rfl⟩ := complete.exists_vertex.mpr (path.reaches.tail joined)
      exact ⟨w, w :: numbers, rfl, rfl, found.step joined⟩

theorem dominates_vertex {d w : Fin span.count} :
    Dominates (fun a b => b ∈ succ a) root (span.vertex d) (span.vertex w) ↔
      Dominates (span.Joins succ) ⟨0, complete.count_pos⟩ d w := by
  have member {numbers : List (Fin span.count)} :
      span.vertex d ∈ numbers.map span.vertex ↔ d ∈ numbers :=
    List.mem_map_of_injective fun _ _ => complete.vertex_inj.mp
  constructor
  · intro dominates numbers path
    exact member.mp (dominates _ (complete.trail_vertex path))
  · intro dominates passed path
    obtain ⟨v, numbers, same, rfl, found⟩ := complete.exists_trail_vertex path
    obtain rfl := complete.vertex_inj.mp same
    exact member.mpr (dominates numbers found)

theorem exists_vertex_of_dominates {block : Fin n} {w : Fin span.count}
    (dominates : Dominates (fun a b => b ∈ succ a) root block (span.vertex w)) :
    ∃ d, span.vertex d = block := by
  obtain ⟨passed, path⟩ := exists_trail (complete.exists_vertex.mp ⟨w, rfl⟩)
  obtain ⟨_, numbers, _, rfl, _⟩ := complete.exists_trail_vertex path
  obtain ⟨d, _, same⟩ := List.mem_map.mp (dominates _ path)
  exact ⟨d, same⟩

theorem immediatelyDominates_vertex {i w : Fin span.count}
    (immediate : ImmediatelyDominates (span.Joins succ) ⟨0, complete.count_pos⟩ i w) :
    ImmediatelyDominates (fun a b => b ∈ succ a) root (span.vertex i) (span.vertex w) := by
  refine ⟨fun same => immediate.ne (complete.vertex_inj.mp same), fun block => ⟨?_, ?_⟩⟩
  · intro dominates
    obtain ⟨d, rfl⟩ := complete.exists_vertex_of_dominates dominates
    rw [complete.dominates_vertex] at dominates ⊢
    rw [complete.vertex_inj]
    exact (immediate.iff d).mp dominates
  · rintro (rfl | dominates)
    · exact .refl _
    · obtain ⟨d, rfl⟩ := complete.exists_vertex_of_dominates dominates
      rw [complete.dominates_vertex] at dominates ⊢
      exact (immediate.iff d).mpr (.inr dominates)

end Lowering.Spanning.Complete

namespace Lowering.DomTree

open Search Dominance

variable {n : Nat} {edges : Edges n} {root : Fin n}

/-- The tables of a graph list the same edges. -/
def Transposed (edges : Edges n) : Prop :=
  ∀ a b, a ∈ edges.preds.get b ↔ b ∈ edges.succs.get a

/-- The edges of the tables. -/
abbrev Flows (edges : Edges n) (a b : Fin n) : Prop := b ∈ edges.succs.get a

theorem get_idoms_vertex (edges : Edges n) (root : Fin n) {span : Spanning n}
    (searched : span = .search (fun block => edges.succs.get block) root)
    (complete : span.Complete (fun block => edges.succs.get block) root) (w : Fin span.count) :
    (idoms edges root).get (span.vertex w) =
      if w = ⟨0, complete.count_pos⟩ then none
      else some (span.vertex ((immediateDominators ⟨0, complete.count_pos⟩ span.parent fun w =>
        (edges.preds.get (span.vertex w)).filterMap span.number?).get w)) := by
  subst searched
  unfold idoms
  rw [dif_pos complete.count_pos, Table.get_map, Table.get_tabulate, complete.number?_vertex]
  simp only [Option.bind_some, Table.get_tabulate]

theorem mem_preds_number (transposed : Transposed edges) {span : Spanning n}
    (complete : span.Complete (fun block => edges.succs.get block) root)
    (v w : Fin span.count) :
    v ∈ (edges.preds.get (span.vertex w)).filterMap span.number? ↔
      span.Joins (fun block => edges.succs.get block) v w := by
  rw [List.mem_filterMap]
  constructor
  · rintro ⟨block, member, numbered⟩
    rw [complete.number?_eq_some_iff] at numbered
    subst numbered
    exact (transposed _ _).mp member
  · intro joined
    exact ⟨span.vertex v, (transposed _ _).mpr joined, complete.number?_vertex v⟩

/-- Immediate dominators are recorded for the blocks reached from the root, except for the root, and
lead up a ranking of the blocks. -/
structure Hierarchy (edge : Fin n → Fin n → Prop) (root : Fin n)
    (idom : Table n (Option (Fin n))) (rank : Fin n → Nat) : Prop where
  first : idom.get root = none
  unreached : ∀ {block}, ¬ Relation.ReflTransGen edge root block → idom.get block = none
  immediate : ∀ {block}, Relation.ReflTransGen edge root block → block ≠ root →
    ∃ above, idom.get block = some above ∧ rank above < rank block ∧
      Relation.ReflTransGen edge root above ∧ ImmediatelyDominates edge root above block

theorem Hierarchy.reached_of_recorded {edge : Fin n → Fin n → Prop} {idom : Table n (Option (Fin n))}
    {rank : Fin n → Nat} (hierarchy : Hierarchy edge root idom rank) {block above : Fin n}
    (recorded : idom.get block = some above) : Relation.ReflTransGen edge root block := by
  by_contra unreached
  rw [hierarchy.unreached unreached] at recorded
  cases recorded

theorem hierarchy_idoms (transposed : Transposed edges) (root : Fin n) :
    ∃ rank, Hierarchy (Flows edges) root (idoms edges root) rank := by
  let span := Spanning.search (fun block => edges.succs.get block) root
  have complete : span.Complete (fun block => edges.succs.get block) root :=
    Spanning.complete_search _ root
  refine ⟨place span.walk, ?_, ?_, ?_⟩
  · have value := get_idoms_vertex edges root rfl complete ⟨0, complete.count_pos⟩
    rwa [if_pos rfl, complete.vertex_zero] at value
  · intro block unreached
    have unnumbered : span.number? block = none :=
      Option.not_isSome_iff_eq_none.mp fun numbered =>
        unreached (complete.isSome_number?.mp numbered)
    unfold idoms
    rw [dif_pos complete.count_pos, Table.get_map, Table.get_tabulate, unnumbered]
    rfl
  · intro block reached different
    obtain ⟨w, rfl⟩ := complete.exists_vertex.mpr reached
    have other : w ≠ ⟨0, complete.count_pos⟩ := fun same =>
      different (same ▸ complete.vertex_zero)
    have positive : ⟨0, complete.count_pos⟩ < w :=
      lt_of_le_of_ne (complete.numbering.zero_le w) other.symm
    have immediate := immediateDominators_spec complete.numbering
      (fun w v => mem_preds_number transposed complete v w) positive
    have dominates := (immediate.iff _).mpr (.inr (.refl _))
    have below := lt_of_le_of_ne (complete.numbering.covers_of_dominates dominates).le immediate.ne
    refine ⟨_, ?_, ?_, complete.exists_vertex.mp ⟨_, rfl⟩,
      complete.immediatelyDominates_vertex immediate⟩
    · rw [get_idoms_vertex edges root rfl complete, if_neg other]
    · rw [complete.place_vertex, complete.place_vertex]
      exact below

end Lowering.DomTree
