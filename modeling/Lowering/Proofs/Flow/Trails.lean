import Mathlib.Logic.Relation

/-!
# Paths and dominance

A vertex dominates another one if it stands on every path from the root to it.  Paths grow at their
end, as runs do.
-/

namespace Lowering.Dominance

variable {V : Type} {edge : V → V → Prop} {root d b a : V} {inner : V → Prop}

/-- A path from the root to a vertex, with the vertices it passes, the last one first. -/
inductive Trail (edge : V → V → Prop) (root : V) : V → List V → Prop where
  | start : Trail edge root root [root]
  | step {a b : V} {passed : List V} :
      Trail edge root a passed → edge a b → Trail edge root b (b :: passed)

/-- Every path from the root to `b` passes `d`. -/
def Dominates (edge : V → V → Prop) (root d b : V) : Prop :=
  ∀ passed, Trail edge root b passed → d ∈ passed

/-- Some path from the root to `b` does not pass `d`. -/
def Evades (edge : V → V → Prop) (root d b : V) : Prop :=
  ∃ passed, Trail edge root b passed ∧ d ∉ passed

/-- A path whose vertices after the first one all have a property. -/
def Via (edge : V → V → Prop) (inner : V → Prop) : V → V → Prop :=
  Relation.ReflTransGen fun a b => edge a b ∧ inner b

/-- The strict dominators of `b` are the dominators of `i`, which is one of them. -/
structure ImmediatelyDominates (edge : V → V → Prop) (root i b : V) : Prop where
  ne : i ≠ b
  iff : ∀ d, Dominates edge root d b ↔ d = b ∨ Dominates edge root d i

theorem evades_iff_not_dominates :
    Evades edge root d b ↔ ¬ Dominates edge root d b := by
  unfold Evades Dominates
  simp

theorem Dominates.refl (b : V) : Dominates edge root b b := by
  intro passed path
  cases path with
  | start => exact List.mem_cons_self
  | step _ _ => exact List.mem_cons_self

theorem dominates_root (b : V) : Dominates edge root root b := by
  intro passed path
  induction path with
  | start => exact List.mem_cons_self
  | step _ _ ih => exact List.mem_cons_of_mem _ ih

/-- A path can stop at a vertex it passes. -/
theorem Trail.exists_of_mem {passed : List V} (path : Trail edge root b passed)
    (member : d ∈ passed) : ∃ before ⊆ passed, Trail edge root d before := by
  induction path with
  | start =>
      obtain rfl := List.mem_singleton.mp member
      exact ⟨_, List.Subset.refl _, .start⟩
  | step path joined ih =>
      rcases List.mem_cons.mp member with rfl | earlier
      · exact ⟨_, List.Subset.refl _, path.step joined⟩
      · obtain ⟨before, inside, stopped⟩ := ih earlier
        exact ⟨before, List.subset_cons_of_subset _ inside, stopped⟩

theorem Dominates.trans {i : V} (upper : Dominates edge root d i)
    (lower : Dominates edge root i b) : Dominates edge root d b := by
  intro passed path
  obtain ⟨before, inside, stopped⟩ := path.exists_of_mem (lower passed path)
  exact inside (upper before stopped)

theorem Trail.reaches {passed : List V} (path : Trail edge root b passed) :
    Relation.ReflTransGen edge root b := by
  induction path with
  | start => exact .refl
  | step _ joined ih => exact ih.tail joined

theorem exists_trail (reaches : Relation.ReflTransGen edge root b) :
    ∃ passed, Trail edge root b passed := by
  induction reaches with
  | refl => exact ⟨[root], .start⟩
  | tail _ joined ih =>
      obtain ⟨passed, path⟩ := ih
      exact ⟨_, path.step joined⟩

theorem Via.mono {weak strong : V → Prop} (way : Via edge strong a b)
    (weaken : ∀ v, strong v → weak v) : Via edge weak a b :=
  way.lift id fun _ v step => ⟨step.1, weaken v step.2⟩

/-- A path either never meets a property or meets it for a first time. -/
theorem Via.first {z : V} (way : Via edge inner a z) (property : V → Prop) :
    Via edge (fun v => inner v ∧ ¬ property v) a z ∨
      ∃ x y, Via edge (fun v => inner v ∧ ¬ property v) a x ∧ edge x y ∧ inner y ∧
        property y := by
  induction way with
  | refl => exact .inl .refl
  | @tail y z _ step ih =>
      rcases ih with never | met
      · by_cases holds : property z
        · exact .inr ⟨y, z, never, step.1, step.2, holds⟩
        · exact .inl (never.tail ⟨step.1, step.2, holds⟩)
      · exact .inr met

theorem Via.eq_or_inner {z : V} (way : Via edge inner a z) :
    a = z ∨ inner z := by
  rcases Relation.ReflTransGen.cases_tail way with same | ⟨_, _, step⟩
  · exact .inl same.symm
  · exact .inr step.2

/-- A path that avoids a vertex goes on along vertices other than it. -/
theorem Evades.trans (evades : Evades edge root d a) (way : Via edge inner a b)
    (clear : ∀ v, inner v → v ≠ d) : Evades edge root d b := by
  induction way with
  | refl => exact evades
  | tail _ step ih =>
      obtain ⟨passed, path, absent⟩ := ih
      refine ⟨_, path.step step.1, ?_⟩
      intro member
      rcases List.mem_cons.mp member with same | earlier
      · exact clear _ step.2 same.symm
      · exact absent earlier

theorem Evades.step (evades : Evades edge root d a) (joined : edge a b)
    (clear : b ≠ d) : Evades edge root d b := by
  have way : Via edge (· = b) a b := .single ⟨joined, rfl⟩
  exact evades.trans way fun _ same => same ▸ clear

end Lowering.Dominance
