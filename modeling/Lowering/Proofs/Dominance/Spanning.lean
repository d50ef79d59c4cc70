import Lowering.Dominance.Tree
import Lowering.Proofs.Dominance.Semidominators
import Lowering.Proofs.Flow.DepthFirst

/-!
# Depth-first numbers

The numbers and parents of a spanning search satisfy what semidominators rest on.
-/

namespace Lowering.Spanning

open Search Dominance

variable {n : Nat} {succ : Fin n → List (Fin n)} {root : Fin n}

/-- The edges between visited blocks, by their numbers. -/
def Joins (span : Spanning n) (succ : Fin n → List (Fin n)) (a b : Fin span.count) : Prop :=
  span.vertex b ∈ succ (span.vertex a)

/-- The search has visited all that it reaches. -/
def Complete (span : Spanning n) (succ : Fin n → List (Fin n)) (root : Fin n) : Prop :=
  ∃ marks, Searching succ root span.walk marks []

theorem complete_search (succ : Fin n → List (Fin n)) (root : Fin n) :
    (search succ root).Complete succ root :=
  searching_depthFirst succ root

theorem vertex_mem (span : Spanning n) (w : Fin span.count) :
    span.vertex w ∈ span.walk.map Prod.snd :=
  List.mem_map_of_mem (List.get_mem _ w)

theorem map_vertex_finRange (span : Spanning n) :
    (List.finRange span.count).map span.vertex = span.walk.map Prod.snd := by
  conv_rhs => rw [← List.map_get_finRange span.walk, List.map_map]
  rfl

namespace Complete

variable {span : Spanning n}

variable (complete : span.Complete succ root)
include complete

theorem count_pos : 0 < span.count := by
  obtain ⟨_, searching⟩ := complete
  exact List.length_pos_of_mem (List.mem_of_mem_head? searching.head)

theorem place_vertex (w : Fin span.count) :
    place span.walk (span.vertex w) = w.val := by
  obtain ⟨_, searching⟩ := complete
  have inside : w.val < (span.walk.map Prod.snd).length := by
    rw [List.length_map]
    exact w.isLt
  have same : span.vertex w = (span.walk.map Prod.snd).get ⟨w.val, inside⟩ :=
    (List.getElem_map Prod.snd).symm
  unfold place
  rw [same]
  exact searching.nodup.idxOf_getElem w.val inside

theorem vertex_inj {v w : Fin span.count} :
    span.vertex v = span.vertex w ↔ v = w := by
  refine ⟨fun same => ?_, fun same => same ▸ rfl⟩
  have places := congrArg (place span.walk) same
  rw [complete.place_vertex, complete.place_vertex] at places
  exact Fin.ext places

theorem number?_eq_some_iff {block : Fin n}
    {w : Fin span.count} : span.number? block = some w ↔ span.vertex w = block := by
  have matches_iff (v : Fin span.count) :
      ((span.walk.get v).2 == block) = true ↔ span.vertex v = block := by
    rw [beq_iff_eq]
    rfl
  refine Iff.trans List.findFinIdx?_eq_some_iff ?_
  constructor
  · intro first
    exact (matches_iff w).mp first.1
  · intro same
    refine ⟨(matches_iff w).mpr same, ?_⟩
    intro v earlier found
    have equal := (complete.vertex_inj).mp (((matches_iff v).mp found).trans same.symm)
    exact absurd earlier (equal ▸ lt_irrefl v)

theorem number?_vertex (w : Fin span.count) :
    span.number? (span.vertex w) = some w :=
  complete.number?_eq_some_iff.mpr rfl

theorem exists_vertex {block : Fin n} :
    (∃ w, span.vertex w = block) ↔ Reaches succ root block := by
  obtain ⟨_, searching⟩ := complete
  rw [← searching.mem_iff_reaches, List.mem_map]
  constructor
  · rintro ⟨w, rfl⟩
    exact List.mem_map.mp (span.vertex_mem w)
  · rintro ⟨step, taken, rfl⟩
    obtain ⟨w, rfl⟩ := List.mem_iff_get.mp taken
    exact ⟨w, rfl⟩

theorem isSome_number? {block : Fin n} :
    (span.number? block).isSome = true ↔ Reaches succ root block := by
  rw [Option.isSome_iff_exists, ← complete.exists_vertex]
  simp only [complete.number?_eq_some_iff]

theorem vertex_zero :
    span.vertex ⟨0, complete.count_pos⟩ = root := by
  obtain ⟨_, searching⟩ := id complete
  have first := searching.head
  rw [List.head?_eq_getElem?, List.getElem?_eq_getElem complete.count_pos] at first
  exact congrArg Prod.snd (Option.some.inj first)

theorem vertex_eq_root_iff {w : Fin span.count} :
    span.vertex w = root ↔ w = ⟨0, complete.count_pos⟩ := by
  rw [← complete.vertex_inj, complete.vertex_zero]

theorem vertex_parent (w : Fin span.count) :
    span.vertex (span.parent w) = (span.walk.get w).1 := by
  obtain ⟨_, searching⟩ := id complete
  obtain ⟨earlier, taken, same⟩ := List.mem_map.mp (searching.parent_mem (List.get_mem _ w))
  obtain ⟨v, rfl⟩ := List.mem_iff_get.mp taken
  have numbered : span.number? (span.walk.get w).1 = some v :=
    complete.number?_eq_some_iff.mpr same
  unfold parent
  rw [numbered]
  exact same

/-- Each block but the root was reached along an edge from a block with a smaller number. -/
theorem parent_spec {w : Fin span.count} (positive : ⟨0, complete.count_pos⟩ < w) :
    span.parent w < w ∧ span.Joins succ (span.parent w) w := by
  obtain ⟨_, searching⟩ := id complete
  rcases searching.found (span.walk.get w) (List.get_mem _ w) with start | ⟨_, lower, joined⟩
  · have same : w = ⟨0, complete.count_pos⟩ :=
      complete.vertex_eq_root_iff.mp (congrArg Prod.snd start)
    exact absurd positive (same ▸ lt_irrefl w)
  · rw [← complete.vertex_parent] at lower joined
    have smaller : place span.walk (span.vertex (span.parent w)) <
        place span.walk (span.vertex w) := lower
    rw [complete.place_vertex, complete.place_vertex] at smaller
    exact ⟨smaller, joined⟩

theorem numbering :
    Numbering (span.Joins succ) ⟨0, complete.count_pos⟩ span.parent where
  zero_le w := Nat.zero_le w.val
  parent_lt positive := (complete.parent_spec positive).1
  edge_parent positive := (complete.parent_spec positive).2
  le_parent := by
    intro a b w joined after before
    obtain ⟨_, searching⟩ := id complete
    have spans := searching.spans (span.vertex a) (span.vertex_mem a) (span.vertex b)
      (span.vertex_mem b) joined (span.walk.get w) (List.get_mem _ w)
    have target : (span.walk.get w).2 = span.vertex w := rfl
    rw [target, ← complete.vertex_parent, complete.place_vertex, complete.place_vertex,
      complete.place_vertex, complete.place_vertex] at spans
    exact spans after before

end Complete

end Lowering.Spanning
