import Lowering.MinQueue

/-!
# The smallest number missing from a queue

Pushing keeps a queue ascending, and looking for the smallest absent number in an ascending queue
finds it.
-/

namespace Lowering.MinQueue

/-- The numbers are in ascending order. -/
def Ascending (queue : MinQueue) : Prop := queue.elems.Pairwise (· ≤ ·)

theorem ascending_empty : empty.Ascending := List.Pairwise.nil

variable {queue : MinQueue}

@[simp]
theorem mem_push {x y : Nat} :
    y ∈ (queue.push x).elems ↔ y = x ∨ y ∈ queue.elems := by
  have whole : y ∈ queue.elems ↔
      y ∈ queue.elems.takeWhile (· < x) ∨ y ∈ queue.elems.dropWhile (· < x) := by
    rw [← List.mem_append, List.takeWhile_append_dropWhile]
  rw [push, whole, List.mem_append, List.mem_cons]
  exact or_left_comm

theorem Ascending.push (ascending : queue.Ascending) (x : Nat) :
    (queue.push x).Ascending := by
  obtain ⟨elems⟩ := queue
  unfold Ascending MinQueue.push at *
  dsimp only at *
  induction elems with
  | nil => simp
  | cons first rest ih =>
      obtain ⟨least, restAscending⟩ := List.pairwise_cons.mp ascending
      by_cases smaller : first < x
      · rw [List.takeWhile_cons_of_pos (by simpa using smaller),
          List.dropWhile_cons_of_pos (by simpa using smaller), List.cons_append]
        refine List.pairwise_cons.mpr ⟨?_, ih restAscending⟩
        intro y member
        rcases (@mem_push ⟨rest⟩ _ _).mp member with same | old
        · omega
        · exact least y old
      · rw [List.takeWhile_cons_of_neg (by simpa using smaller),
          List.dropWhile_cons_of_neg (by simpa using smaller), List.nil_append]
        refine List.pairwise_cons.mpr ⟨?_, ascending⟩
        intro y member
        rcases List.mem_cons.mp member with same | old
        · omega
        · have := least y old
          omega

theorem mem_foldl_push {numbers : List Nat} {y : Nat} :
    y ∈ (numbers.foldl push queue).elems ↔ y ∈ numbers ∨ y ∈ queue.elems := by
  induction numbers generalizing queue with
  | nil => simp
  | cons x rest ih =>
      rw [List.foldl_cons, ih, mem_push, List.mem_cons, or_left_comm, or_assoc]

theorem Ascending.foldl_push (numbers : List Nat)
    (ascending : queue.Ascending) : (numbers.foldl MinQueue.push queue).Ascending := by
  induction numbers generalizing queue with
  | nil => exact ascending
  | cons x rest ih => exact ih (ascending.push x)

/-- The number found is missing, and everything from the candidate up to it is there. -/
theorem absentFrom_spec {elems : List Nat} (ascending : elems.Pairwise (· ≤ ·)) (candidate : Nat) :
    candidate ≤ (absentFrom candidate elems).1 ∧ (absentFrom candidate elems).1 ∉ elems ∧
      ∀ x, candidate ≤ x → x < (absentFrom candidate elems).1 → x ∈ elems := by
  induction elems generalizing candidate with
  | nil =>
      simp only [absentFrom]
      exact ⟨Nat.le_refl _, List.not_mem_nil, fun x above below => by omega⟩
  | cons first rest ih =>
      obtain ⟨least, restAscending⟩ := List.pairwise_cons.mp ascending
      rw [absentFrom]
      split
      · next below =>
          obtain ⟨above, missing, filled⟩ := ih restAscending candidate
          refine ⟨above, ?_, fun x low high => List.mem_cons_of_mem _ (filled x low high)⟩
          rw [List.mem_cons]
          rintro (same | member)
          · omega
          · exact missing member
      · split
        · next equal =>
            obtain ⟨above, missing, filled⟩ := ih restAscending (candidate + 1)
            refine ⟨by omega, ?_, ?_⟩
            · rw [List.mem_cons]
              rintro (same | member)
              · omega
              · exact missing member
            · intro x low high
              by_cases same : x = candidate
              · rw [same, equal]
                exact List.mem_cons_self
              · exact List.mem_cons_of_mem _ (filled x (by omega) high)
        · next unequal =>
            refine ⟨Nat.le_refl _, ?_, fun x low high => by omega⟩
            rw [List.mem_cons]
            rintro (same | member)
            · omega
            · have := least candidate member
              omega

theorem smallestAbsent_not_mem (ascending : queue.Ascending) :
    queue.smallestAbsent.1 ∉ queue.elems :=
  (absentFrom_spec ascending 0).2.1

end Lowering.MinQueue
