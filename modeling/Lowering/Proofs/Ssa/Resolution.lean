import Lowering.Ssa.Promotion.Renaming
import Mathlib.Data.List.Nodup
import Mathlib.Data.List.Perm.Subperm
import Mathlib.Order.RelClasses
import Std.Data.TreeMap.Lemmas

/-!
# Following aliases

If every alias leads to a value of smaller height, then the values on the way from an operand are
distinct.  There are no more of them than aliases, so the fuel of `resolve` suffices.
-/

namespace Lowering.Ssa

variable {aliases : NumberMap Operand} {operand last : Operand} {passed : List Nat} {v : Nat}

/-- Following aliases from an operand passes the given values and ends at the last operand. -/
inductive Settles (aliases : NumberMap Operand) : Operand → List Nat → Operand → Prop where
  | const (c : Int) : Settles aliases (.const c) [] (.const c)
  | undef : Settles aliases .undef [] .undef
  | value {v : Nat} : aliases.get? v = none → Settles aliases (.value v) [] (.value v)
  | step {v : Nat} {operand last : Operand} {passed : List Nat} : aliases.get? v = some operand →
      Settles aliases operand passed last → Settles aliases (.value v) (v :: passed) last

@[simp]
theorem resolve_const (fuel : Nat) (c : Int) : resolve aliases fuel (.const c) = .const c := by
  cases fuel <;> rfl

@[simp]
theorem resolve_undef (fuel : Nat) : resolve aliases fuel .undef = .undef := by
  cases fuel <;> rfl

theorem resolve_value (unaliased : aliases.get? v = none) (fuel : Nat) :
    resolve aliases fuel (.value v) = .value v := by
  cases fuel with
  | zero => rfl
  | succ fuel => rw [resolve, unaliased]

theorem Settles.resolve_eq (settles : Settles aliases operand passed last) {fuel : Nat}
    (enough : passed.length ≤ fuel) : resolve aliases fuel operand = last := by
  induction settles generalizing fuel with
  | const c => exact resolve_const fuel c
  | undef => exact resolve_undef fuel
  | value unaliased => exact resolve_value unaliased fuel
  | step found _ ih =>
      cases fuel with
      | zero => exact absurd enough (Nat.not_succ_le_zero _)
      | succ fuel =>
          rw [resolve, found]
          exact ih (Nat.le_of_succ_le_succ enough)

section Height

variable {α : Type} [Preorder α] [WellFoundedLT α] {height : Nat → α}
  (falls : ∀ {v w}, aliases.get? v = some (.value w) → height w < height v)
include falls

theorem exists_settles (operand : Operand) :
    ∃ passed last, Settles aliases operand passed last := by
  cases operand with
  | const c => exact ⟨_, _, .const c⟩
  | undef => exact ⟨_, _, .undef⟩
  | value v =>
      induction reached : height v using WellFoundedLT.induction generalizing v with
      | ind _ ih =>
          cases found : aliases.get? v with
          | none => exact ⟨_, _, .value found⟩
          | some operand =>
              cases operand with
              | const c => exact ⟨_, _, .step found (.const c)⟩
              | undef => exact ⟨_, _, .step found .undef⟩
              | value w =>
                  obtain ⟨passed, last, settles⟩ :=
                    ih (height w) (reached ▸ falls found) w rfl
                  exact ⟨_, _, .step found settles⟩

omit [WellFoundedLT α] in
theorem Settles.nodup (settles : Settles aliases operand passed last) :
    passed.Nodup ∧ ∀ v, operand = .value v → ∀ w ∈ passed, w = v ∨ height w < height v := by
  induction settles with
  | const c => exact ⟨List.nodup_nil, nofun⟩
  | undef => exact ⟨List.nodup_nil, nofun⟩
  | value unaliased => exact ⟨List.nodup_nil, fun _ _ w member => absurd member List.not_mem_nil⟩
  | @step v operand last passed found settles ih =>
      obtain ⟨nodup, lower⟩ := ih
      have below (w : Nat) (member : w ∈ passed) : height w < height v := by
        cases operand with
        | const c =>
            cases settles
            cases member
        | undef =>
            cases settles
            cases member
        | value u =>
            rcases lower u rfl w member with rfl | less
            · exact falls found
            · exact less.trans (falls found)
      refine ⟨List.nodup_cons.mpr ⟨fun member => lt_irrefl _ (below v member), nodup⟩, ?_⟩
      rintro _ ⟨⟩ w member
      rcases List.mem_cons.mp member with rfl | later
      · exact .inl rfl
      · exact .inr (below w later)

omit [WellFoundedLT α] in
theorem Settles.length_le (settles : Settles aliases operand passed last) :
    passed.length ≤ aliases.size := by
  have known : passed ⊆ aliases.keys := by
    clear falls
    induction settles with
    | const c => exact List.nil_subset _
    | undef => exact List.nil_subset _
    | value unaliased => exact List.nil_subset _
    | step found _ ih =>
        refine List.cons_subset.mpr ⟨?_, ih⟩
        exact Std.TreeMap.mem_keys.mpr (NumberMap.contains_iff.mpr ⟨_, found⟩)
  rw [← Std.TreeMap.length_keys]
  exact (List.subperm_of_subset (settles.nodup falls).1 known).length_le

/-- The result of a removed load resolves to what its alias resolves to. -/
theorem resolve_alias (found : aliases.get? v = some operand) :
    resolve aliases aliases.size (.value v) = resolve aliases aliases.size operand := by
  obtain ⟨passed, last, settles⟩ := exists_settles falls operand
  rw [(Settles.step found settles).resolve_eq (Settles.length_le falls (.step found settles)),
    settles.resolve_eq (settles.length_le falls)]

end Height

end Lowering.Ssa
