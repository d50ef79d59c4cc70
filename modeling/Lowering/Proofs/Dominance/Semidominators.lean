import Lowering.Proofs.Flow.Trails
import Mathlib.Order.Bounds.Basic
import Mathlib.Data.Fintype.Basic
import Mathlib.Order.Fin.Basic
import Mathlib.Tactic.Order

/-!
# Semidominators

Vertices carry the numbers of a depth-first search.  The subtree of a vertex is then a run of
consecutive numbers, and a path to a larger vertex passes the subtree that both ends share.  From
this follow the two rules by which semidominators determine immediate dominators.
-/

namespace Lowering.Dominance

variable {n : Nat} {edge : Fin n → Fin n → Prop} {zero : Fin n} {parent : Fin n → Fin n}

/-- The numbers and parents are those of a depth-first search of the edges. -/
structure Numbering (edge : Fin n → Fin n → Prop) (zero : Fin n) (parent : Fin n → Fin n) :
    Prop where
  zero_le : ∀ w, zero ≤ w
  parent_lt : ∀ {w}, zero < w → parent w < w
  edge_parent : ∀ {w}, zero < w → edge (parent w) w
  /-- Whatever is numbered between the ends of an edge was found from below its source. -/
  le_parent : ∀ {a b w}, edge a b → a < w → w ≤ b → a ≤ parent w

/-- The subtree of `u` holds `x`. -/
def Covers (parent : Fin n → Fin n) (u x : Fin n) : Prop :=
  u ≤ x ∧ ∀ w, u < w → w ≤ x → u ≤ parent w

/-- A path from `v` to `w` whose inner vertices are all greater than `w`. -/
def Detour (edge : Fin n → Fin n → Prop) (w v : Fin n) : Prop :=
  ∃ z, Via edge (w < ·) v z ∧ edge z w

/-- The least vertex with a detour to `w`. -/
def IsSemidominator (edge : Fin n → Fin n → Prop) (w s : Fin n) : Prop :=
  IsLeast {v | Detour edge w v} s

/-! ## Subtrees -/

namespace Covers

variable {u v x y : Fin n}

theorem le (covers : Covers parent u x) : u ≤ x := covers.1

theorem refl (u : Fin n) : Covers parent u u :=
  ⟨le_rfl, fun _ above below => absurd (lt_of_lt_of_le above below) (lt_irrefl u)⟩

theorem trans (upper : Covers parent u v) (lower : Covers parent v x) : Covers parent u x := by
  refine ⟨upper.le.trans lower.le, ?_⟩
  intro w above below
  rcases le_or_gt w v with inside | beyond
  · exact upper.2 w above inside
  · exact upper.le.trans (lower.2 w beyond below)

theorem mono (covers : Covers parent u x) (after : u ≤ y) (before : y ≤ x) :
    Covers parent u y :=
  ⟨after, fun w above below => covers.2 w above (below.trans before)⟩

theorem up (covers : Covers parent u x) (numbering : Numbering edge zero parent)
    (above : u < x) : Covers parent u (parent x) := by
  have positive : zero < x := lt_of_le_of_lt (numbering.zero_le u) above
  exact covers.mono (covers.2 x above le_rfl) (numbering.parent_lt positive).le

end Covers

namespace Numbering

variable {u v w x : Fin n}

variable (numbering : Numbering edge zero parent)
include numbering

theorem covers_of_edge (joined : edge u x) (forward : u < x) : Covers parent u x :=
  ⟨forward.le, fun _ above below => numbering.le_parent joined above below⟩

theorem covers_parent (positive : zero < w) :
    Covers parent (parent w) w :=
  numbering.covers_of_edge (numbering.edge_parent positive) (numbering.parent_lt positive)

/-- A path that stays above its start stays in the subtree of its start. -/
theorem covers_of_via (way : Via edge (u ≤ ·) u x) :
    Covers parent u x := by
  induction way with
  | refl => exact .refl u
  | @tail y z _ step ih =>
      rcases lt_or_ge y z with forward | backward
      · exact ih.trans (numbering.covers_of_edge step.1 forward)
      · exact ih.mono step.2 backward

/-- The search itself leads from a vertex to every vertex of its subtree. -/
theorem via_of_covers (covers : Covers parent u x) :
    Via edge (u < ·) u x := by
  induction x using WellFoundedLT.induction with
  | ind x ih =>
      rcases covers.le.eq_or_lt with rfl | above
      · exact .refl
      · have positive : zero < x := lt_of_le_of_lt (numbering.zero_le u) above
        have way := ih _ (numbering.parent_lt positive)
          (covers.up numbering above)
        exact way.tail ⟨numbering.edge_parent positive, above⟩

/-- The child of a vertex that leads to a given vertex of its subtree. -/
theorem exists_child (covers : Covers parent u x)
    (above : u < x) : ∃ c, u < c ∧ parent c = u ∧ Covers parent c x := by
  induction x using WellFoundedLT.induction with
  | ind x ih =>
      have positive : zero < x := lt_of_le_of_lt (numbering.zero_le u) above
      have upper := covers.up numbering above
      rcases upper.le.eq_or_lt with same | strict
      · exact ⟨x, above, same.symm, .refl x⟩
      · obtain ⟨c, higher, child, held⟩ :=
          ih _ (numbering.parent_lt positive) upper strict
        exact ⟨c, higher, child, held.trans (numbering.covers_parent positive)⟩

end Numbering

/-! ## Detours -/

/-- A path stays above a bound, or some vertex below the bound is the least one from there on. -/
theorem Via.split {inner : Fin n → Prop} {a z : Fin n} (way : Via edge inner a z)
    (bound : Fin n) :
    Via edge (fun v => inner v ∧ bound < v) a z ∨
      ∃ t, inner t ∧ t ≤ bound ∧ Via edge (t ≤ ·) t z := by
  induction way with
  | refl => exact .inl .refl
  | @tail y z _ step ih =>
      rcases ih with above | ⟨t, allowed, low, onward⟩
      · rcases lt_or_ge bound z with higher | lower
        · exact .inl (above.tail ⟨step.1, step.2, higher⟩)
        · exact .inr ⟨z, step.2, lower, .refl⟩
      · rcases le_or_gt t z with higher | lower
        · exact .inr ⟨t, allowed, low, onward.tail ⟨step.1, higher⟩⟩
        · exact .inr ⟨z, step.2, lower.le.trans low, .refl⟩

namespace Numbering

variable {s t u v w x y z : Fin n}

variable (numbering : Numbering edge zero parent)
include numbering

/-- What ends in an edge to `w` is a detour, or passes a vertex whose subtree holds `w`. -/
theorem detour_or_covers {inner : Fin n → Prop} (way : Via edge inner x z) (joined : edge z w) :
    Detour edge w x ∨ ∃ t, inner t ∧ Covers parent t w := by
  rcases way.split w with above | ⟨t, allowed, low, onward⟩
  · exact .inl ⟨z, above.mono fun _ both => both.2, joined⟩
  · exact .inr ⟨t, allowed, numbering.covers_of_via (onward.tail ⟨joined, low⟩)⟩

/-- A detour to `u` goes on through the subtree of `u`. -/
theorem detour_extend (detour : Detour edge u v) (covers : Covers parent u x) (joined : edge x w)
    (above : w < u) : Detour edge w v := by
  obtain ⟨z, way, last⟩ := detour
  have before : Via edge (w < ·) v z := way.mono fun _ higher => above.trans higher
  have after : Via edge (w < ·) u x :=
    (numbering.via_of_covers covers).mono fun _ higher => above.trans higher
  exact ⟨x, (before.tail ⟨last, above⟩).trans after, joined⟩

/-- A detour is an edge, or a detour to a larger vertex above the source of its last edge. -/
theorem edge_or_detour (detour : Detour edge w x) :
    edge x w ∨ ∃ z u, edge z w ∧ w < u ∧ Covers parent u z ∧ Detour edge u x := by
  obtain ⟨z, way, joined⟩ := detour
  rcases way.first (Covers parent · z) with never | ⟨y, u, before, step, above, covers⟩
  · rcases never.eq_or_inner with rfl | fresh
    · exact .inl joined
    · exact absurd (.refl z) fresh.2
  · refine .inr ⟨z, u, joined, above, covers, ?_⟩
    rcases numbering.detour_or_covers before step with found | ⟨t, fresh, higher⟩
    · exact found
    · exact absurd (higher.trans covers) fresh.2

theorem semidominator_lt (positive : zero < w) (semi : IsSemidominator edge w s) : s < w :=
  lt_of_le_of_lt (semi.2 ⟨parent w, .refl, numbering.edge_parent positive⟩)
    (numbering.parent_lt positive)

theorem covers_semidominator (positive : zero < w)
    (semi : IsSemidominator edge w s) : Covers parent s w := by
  have below := numbering.semidominator_lt positive semi
  obtain ⟨z, way, joined⟩ := semi.1
  have onward : Via edge (s ≤ ·) s z := way.mono fun _ higher => (below.trans higher).le
  exact numbering.covers_of_via (onward.tail ⟨joined, below.le⟩)

/-! ## Immediate dominators -/

theorem covers_of_dominates (dominates : Dominates edge zero v w) : Covers parent v w := by
  induction w using WellFoundedLT.induction with
  | ind w ih =>
      by_cases same : w = v
      · exact same ▸ .refl w
      rcases (numbering.zero_le w).eq_or_lt with rfl | positive
      · exact absurd (List.mem_singleton.mp (dominates _ .start)).symm same
      have above : Dominates edge zero v (parent w) := by
        by_contra missed
        have evades := evades_iff_not_dominates.mpr missed
        exact evades_iff_not_dominates.mp
          (evades.step (numbering.edge_parent positive) same) dominates
      exact (ih _ (numbering.parent_lt positive) above).trans
        (numbering.covers_parent positive)

/-- A strict dominator dominates the semidominator: a detour cannot pass it. -/
theorem dominates_semidominator (semi : IsSemidominator edge w s)
    (dominates : Dominates edge zero v w) (strict : v ≠ w) :
    Dominates edge zero v s := by
  by_contra missed
  have below : v < w := lt_of_le_of_ne (numbering.covers_of_dominates dominates).le strict
  obtain ⟨z, way, joined⟩ := semi.1
  have evades : Evades edge zero v z :=
    (evades_iff_not_dominates.mpr missed).trans way fun _ higher => (below.trans higher).ne'
  exact evades_iff_not_dominates.mp (evades.step joined strict.symm) dominates

/-- Paths that avoid `s` cannot enter the search path from `s` to `w` if none of its vertices has a
detour from before `s`. -/
theorem not_evades
    (barred : ∀ y, s < y → Covers parent s y → Covers parent y w → Evades edge zero s y →
      ∀ v, Detour edge y v → s ≤ v)
    (below : s < y) (upper : Covers parent s y) (lower : Covers parent y w) :
    ¬ Evades edge zero s y := by
  let onway (v : Fin n) : Prop := s < v ∧ Covers parent s v ∧ Covers parent v w
  -- from its last vertex before `s` on, an avoiding path stays off the way
  suffices outside : ∀ z passed, Trail edge zero z passed → s ∉ passed →
      ∃ x < s, Via edge (fun v => s < v ∧ ¬ onway v) x z by
    rintro ⟨passed, path, absent⟩
    obtain ⟨x, early, way⟩ := outside y passed path absent
    rcases way.eq_or_inner with rfl | off
    · exact lt_asymm early below
    · exact off.2 ⟨below, upper, lower⟩
  intro z passed path
  induction path with
  | start =>
      intro absent
      have different : zero ≠ s := fun same => absent (same ▸ List.mem_cons_self)
      exact ⟨zero, lt_of_le_of_ne (numbering.zero_le s) different, .refl⟩
  | @step a b passed path joined ih =>
      intro absent
      have different := List.ne_of_not_mem_cons absent
      obtain ⟨x, early, way⟩ :=
        ih (List.not_mem_of_not_mem_cons absent)
      rcases lt_or_gt_of_ne different with later | earlier
      · refine ⟨x, early, way.tail ⟨joined, later, ?_⟩⟩
        rintro ⟨_, upper, lower⟩
        have evades : Evades edge zero s b := ⟨_, path.step joined, absent⟩
        rcases numbering.detour_or_covers way joined with detour | ⟨t, ⟨above, off⟩, covers⟩
        · exact absurd early (not_lt.mpr (barred b later upper lower evades x detour))
        · exact off ⟨above, upper.mono above.le covers.le, covers.trans lower⟩
      · exact ⟨b, earlier, .refl⟩

/-- A semidominator that no vertex below it undercuts is the immediate dominator. -/
theorem immediatelyDominates_semidominator (positive : zero < w) (semi : IsSemidominator edge w s)
    (least : ∀ y, s < y → Covers parent y w → ∀ v, Detour edge y v → s ≤ v) :
    ImmediatelyDominates edge zero s w := by
  have below := numbering.semidominator_lt positive semi
  have covers := numbering.covers_semidominator positive semi
  have dominates : Dominates edge zero s w := by
    by_contra missed
    refine numbering.not_evades ?_ below covers (.refl w) (evades_iff_not_dominates.mpr missed)
    intro y above _ lower _
    exact least y above lower
  refine ⟨below.ne, fun d => ⟨fun above => ?_, ?_⟩⟩
  · by_cases same : d = w
    · exact .inl same
    · exact .inr (numbering.dominates_semidominator semi above same)
  · rintro (rfl | above)
    · exact .refl d
    · exact above.trans dominates

/-- A vertex whose semidominator is undercut has the immediate dominator of the vertex that
undercuts it most. -/
theorem immediatelyDominates_of_least (positive : zero < w) (semi : IsSemidominator edge w s)
    (below : s < u)
    (covers : Covers parent u w) (undercut : IsSemidominator edge u t)
    (least : ∀ y, s < y → Covers parent y w → ∀ v, Detour edge y v → t ≤ v)
    {i : Fin n} (immediate : ImmediatelyDominates edge zero i u) :
    ImmediatelyDominates edge zero i w := by
  have dominated : Dominates edge zero i u := (immediate.iff i).mpr (.inr (.refl i))
  have under : Covers parent i u := numbering.covers_of_dominates dominated
  have early : i < u := lt_of_le_of_ne under.le immediate.ne
  have bound : i ≤ t := (numbering.covers_of_dominates
    (numbering.dominates_semidominator undercut dominated immediate.ne)).le
  have dominates : Dominates edge zero i w := by
    by_contra missed
    refine numbering.not_evades ?_ (lt_of_lt_of_le early covers.le) (under.trans covers)
      (.refl w) (evades_iff_not_dominates.mpr missed)
    intro y above _ lower evades v detour
    rcases lt_or_ge s y with beyond | before
    · exact bound.trans (least y beyond lower v detour)
    · have upper : Covers parent y u := lower.mono (before.trans below.le) covers.le
      have reaching := evades.trans (numbering.via_of_covers upper) fun _ higher =>
        (above.trans higher).ne'
      exact absurd dominated (evades_iff_not_dominates.mp reaching)
  refine ⟨(lt_of_lt_of_le early covers.le).ne, fun d => ⟨fun above => ?_, ?_⟩⟩
  · by_cases same : d = w
    · exact .inl same
    have high := numbering.dominates_semidominator semi above same
    have smaller : d < u := lt_of_le_of_lt (numbering.covers_of_dominates high).le below
    have reaching : Dominates edge zero d u := by
      by_contra missed
      have evades := (evades_iff_not_dominates.mpr missed).trans
        (numbering.via_of_covers covers) fun _ higher => (smaller.trans higher).ne'
      exact evades_iff_not_dominates.mp evades above
    exact .inr (((immediate.iff d).mp reaching).resolve_left smaller.ne)
  · rintro (rfl | above)
    · exact .refl d
    · exact above.trans dominates

end Numbering

end Lowering.Dominance
