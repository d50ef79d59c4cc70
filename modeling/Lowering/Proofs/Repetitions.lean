import Mathlib.Data.List.Basic
import Mathlib.Data.List.Induction

/-!
# Lists without their repetitions

Erasing repetitions keeps the first occurrence of each element, so an element appended to a list is
kept if the list does not have it yet.
-/

namespace Lowering

theorem eraseDups_concat {α : Type} [DecidableEq α] (list : List α) (a : α) :
    (list ++ [a]).eraseDups = if a ∈ list then list.eraseDups else list.eraseDups ++ [a] := by
  rw [List.eraseDups_append]
  split
  · next listed => simp [List.removeAll, listed]
  · next unlisted => simp [List.removeAll, unlisted, List.eraseDups_cons]

theorem eraseDups_eraseDups {α : Type} [DecidableEq α] (list : List α) :
    list.eraseDups.eraseDups = list.eraseDups := by
  induction list using List.reverseRecOn with
  | nil => rfl
  | append_singleton list a ih =>
      rw [eraseDups_concat]
      split
      · exact ih
      · next unlisted =>
          rw [eraseDups_concat, if_neg fun member => unlisted (List.mem_eraseDups.mp member),
            ih]

theorem eraseDups_map {α β : Type} [DecidableEq α] [DecidableEq β] {f : α → β}
    (injective : Function.Injective f) (list : List α) :
    (list.map f).eraseDups = list.eraseDups.map f := by
  induction list using List.reverseRecOn with
  | nil => rfl
  | append_singleton list a ih =>
      rw [List.map_append, List.map_singleton, eraseDups_concat, eraseDups_concat,
        ih, if_congr (List.mem_map_of_injective injective) rfl rfl]
      split
      · rfl
      · rw [List.map_append, List.map_singleton]

/-- What is left of a list stands in the order of first occurrence. -/
theorem pairwise_idxOf_eraseDups {α : Type} [DecidableEq α] (list : List α) :
    list.eraseDups.Pairwise fun a b => list.idxOf a < list.idxOf b := by
  induction list using List.reverseRecOn with
  | nil => exact .nil
  | append_singleton list last ih =>
      have before {a : α} (member : a ∈ list.eraseDups) :
          (list ++ [last]).idxOf a = list.idxOf a :=
        List.idxOf_append_of_mem (List.mem_eraseDups.mp member)
      have kept : list.eraseDups.Pairwise fun a b =>
          (list ++ [last]).idxOf a < (list ++ [last]).idxOf b := by
        refine ih.imp_of_mem fun memberA memberB earlier => ?_
        rw [before memberA, before memberB]
        exact earlier
      rw [eraseDups_concat]
      split
      · exact kept
      · next unlisted =>
          refine List.pairwise_append.mpr ⟨kept, List.pairwise_singleton _ _, ?_⟩
          intro a member b isLast
          rw [List.mem_singleton.mp isLast, before member, List.idxOf_append_of_notMem unlisted]
          exact Nat.lt_add_right _ (List.idxOf_lt_length_of_mem (List.mem_eraseDups.mp member))

theorem nodup_eraseDups {α : Type} [DecidableEq α] (list : List α) : list.eraseDups.Nodup :=
  (pairwise_idxOf_eraseDups list).imp fun earlier same =>
    absurd (same ▸ earlier) (Nat.lt_irrefl _)

end Lowering
