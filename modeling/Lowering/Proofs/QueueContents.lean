import Mathlib.Data.List.Induction
import Mathlib.Data.Multiset.Filter
import Mathlib.Order.Bounds.Basic
import Lowering.Proofs.MinQueue

/-!
# What a queue holds

A queue is seen as the multiset that pushes and pops leave, where a pop takes a smallest number.
Looking for the smallest absent number finds it, and takes off everything up to the first number
above it.
-/

namespace Lowering.MinQueue

/-- What is done to a queue. -/
inductive Action where
  | push (x : Nat)
  | pop

variable {queue : MinQueue} {history : List Action}

/-- Popping an empty queue leaves it empty. -/
def act (queue : MinQueue) : Action → MinQueue
  | .push x => queue.push x
  | .pop => (queue.pop?.map Prod.snd).getD queue

/-- The queue after a history of actions. -/
def after (history : List Action) : MinQueue := history.foldl act empty

/-- The numbers in a queue. -/
def held (queue : MinQueue) : Multiset Nat := queue.elems

/-- The multisets that a history leaves of the empty one. -/
inductive Leaves : List Action → Multiset Nat → Prop where
  | start : Leaves [] 0
  | push {history : List Action} {bag : Multiset Nat} (x : Nat) :
      Leaves history bag → Leaves (history ++ [.push x]) (x ::ₘ bag)
  | pop {history : List Action} {bag : Multiset Nat} {x : Nat} :
      Leaves history (x ::ₘ bag) → (∀ y ∈ bag, x ≤ y) → Leaves (history ++ [.pop]) bag
  | idle {history : List Action} : Leaves history 0 → Leaves (history ++ [.pop]) 0

theorem after_concat (history : List Action) (action : Action) :
    after (history ++ [action]) = (after history).act action := by
  unfold after
  rw [List.foldl_append, List.foldl_cons, List.foldl_nil]

@[simp]
theorem held_push (queue : MinQueue) (x : Nat) : (queue.push x).held = x ::ₘ queue.held := by
  unfold held push
  rw [Multiset.cons_coe, Multiset.coe_eq_coe]
  refine List.perm_middle.trans (List.Perm.cons x ?_)
  rw [List.takeWhile_append_dropWhile]

theorem act_pop (queue : MinQueue) : queue.act .pop = ⟨queue.elems.tail⟩ := by
  obtain ⟨elems⟩ := queue
  cases elems <;> rfl

theorem Ascending.act (ascending : queue.Ascending) (action : Action) :
    (queue.act action).Ascending := by
  cases action with
  | push x => exact ascending.push x
  | pop =>
      rw [act_pop]
      exact ascending.tail

theorem ascending_after (history : List Action) : (after history).Ascending := by
  induction history using List.reverseRecOn with
  | nil => exact ascending_empty
  | append_singleton history action ih =>
      rw [after_concat]
      exact ih.act action

/-- A pop takes a smallest number, if there is one. -/
theorem held_pop (ascending : queue.Ascending) :
    (queue.held = 0 ∧ (queue.act .pop).held = 0) ∨
      ∃ x, queue.held = x ::ₘ (queue.act .pop).held ∧ ∀ y ∈ (queue.act .pop).held, x ≤ y := by
  rw [act_pop]
  obtain ⟨elems⟩ := queue
  cases elems with
  | nil => exact .inl ⟨rfl, rfl⟩
  | cons x rest => exact .inr ⟨x, rfl, fun y member => List.rel_of_pairwise_cons ascending member⟩

theorem leaves_after (history : List Action) : Leaves history (after history).held := by
  induction history using List.reverseRecOn with
  | nil => exact .start
  | append_singleton history action ih =>
      rw [after_concat]
      cases action with
      | push x =>
          show Leaves _ ((after history).push x).held
          rw [held_push]
          exact .push x ih
      | pop =>
          rcases held_pop (ascending_after history) with ⟨none, still⟩ | ⟨x, some, least⟩
          · rw [still]
            exact .idle (none ▸ ih)
          · exact .pop (some ▸ ih) least

theorem le_of_mem_cons {bag : Multiset Nat} {x y : Nat} (least : ∀ z ∈ bag, x ≤ z)
    (member : y ∈ x ::ₘ bag) : x ≤ y := by
  rcases Multiset.mem_cons.mp member with rfl | inside
  · exact Nat.le_refl _
  · exact least y inside

/-- A history leaves one multiset only. -/
theorem Leaves.eq_held {bag : Multiset Nat} (leaves : Leaves history bag) :
    bag = (after history).held := by
  induction leaves with
  | start => rfl
  | push x _ ih =>
      rw [after_concat, ih]
      exact (held_push _ x).symm
  | @pop history bag x _ least ih =>
      rw [after_concat]
      rcases held_pop (ascending_after history) with ⟨none, _⟩ | ⟨y, some, otherLeast⟩
      · exact absurd (ih.trans none) Multiset.cons_ne_zero
      · have equal := ih.trans some
        have lower : x ≤ y := le_of_mem_cons least (equal ▸ Multiset.mem_cons_self y _)
        have upper : y ≤ x := le_of_mem_cons otherLeast (equal ▸ Multiset.mem_cons_self x _)
        obtain rfl := Nat.le_antisymm lower upper
        exact (Multiset.cons_inj_right x).mp equal
  | @idle history _ ih =>
      rw [after_concat]
      rcases held_pop (ascending_after history) with ⟨_, still⟩ | ⟨y, some, _⟩
      · exact still.symm
      · exact absurd (some.symm.trans ih.symm) Multiset.cons_ne_zero

theorem leaves_iff {bag : Multiset Nat} : Leaves history bag ↔ bag = (after history).held :=
  ⟨Leaves.eq_held, fun same => same ▸ leaves_after history⟩

theorem foldl_pop (queue : MinQueue) (pops : Nat) :
    (List.replicate pops Action.pop).foldl act queue = ⟨queue.elems.drop pops⟩ := by
  induction pops generalizing queue with
  | zero => rfl
  | succ pops ih =>
      rw [List.replicate_succ, List.foldl_cons, ih, act_pop, List.drop_tail]

/-- Each number taken off moves the candidate by one at most. -/
theorem absentFrom_le (candidate : Nat) (elems : List Nat) :
    (absentFrom candidate elems).1 ≤ candidate + elems.length := by
  fun_induction absentFrom candidate elems with
  | case1 => exact Nat.le_refl _
  | case2 candidate x rest smaller ih => exact Nat.le_succ_of_le ih
  | case3 candidate rest _ ih =>
      rw [List.length_cons]
      omega
  | case4 => exact Nat.le_add_right _ _

theorem absentFrom_eq_drop (candidate : Nat) (elems : List Nat) :
    ∃ pops, (absentFrom candidate elems).2 = elems.drop pops := by
  fun_induction absentFrom candidate elems with
  | case1 => exact ⟨0, rfl⟩
  | case2 candidate x rest smaller ih =>
      obtain ⟨pops, isRest⟩ := ih
      exact ⟨pops + 1, isRest⟩
  | case3 candidate rest _ ih =>
      obtain ⟨pops, isRest⟩ := ih
      exact ⟨pops + 1, isRest⟩
  | case4 => exact ⟨1, rfl⟩

/-- The numbers above the one found stay, except for the first of them. -/
theorem absentFrom_rest {elems : List Nat} (ascending : elems.Pairwise (· ≤ ·)) (candidate : Nat) :
    (elems.filter ((absentFrom candidate elems).1 < ·) = [] ∧
        (absentFrom candidate elems).2 = []) ∨
      ∃ least, elems.filter ((absentFrom candidate elems).1 < ·) =
        least :: (absentFrom candidate elems).2 := by
  induction elems generalizing candidate with
  | nil => exact .inl ⟨rfl, rfl⟩
  | cons first rest ih =>
      obtain ⟨lowest, restAscending⟩ := List.pairwise_cons.mp ascending
      rw [absentFrom]
      split
      · next smaller =>
          have found := (absentFrom_spec restAscending candidate).1
          rw [List.filter_cons_of_neg (by rw [decide_eq_true_eq]; omega)]
          exact ih restAscending candidate
      · split
        · next equal =>
            have found := (absentFrom_spec restAscending (candidate + 1)).1
            rw [List.filter_cons_of_neg (by rw [decide_eq_true_eq]; omega)]
            exact ih restAscending (candidate + 1)
        · next unequal =>
            refine .inr ⟨first, List.filter_eq_self.mpr fun x member => decide_eq_true ?_⟩
            rcases List.mem_cons.mp member with rfl | later
            · show candidate < x
              omega
            · have := lowest x later
              show candidate < x
              omega

theorem isLeast_smallestAbsent (ascending : queue.Ascending) :
    IsLeast {x | x ∉ queue.held} queue.smallestAbsent.1 := by
  obtain ⟨_, missing, filled⟩ := absentFrom_spec ascending 0
  refine ⟨missing, fun x absent => Nat.le_of_not_lt fun smaller => ?_⟩
  exact absent (filled x (Nat.zero_le x) smaller)

/-- What is left is above the number found, less the least of it. -/
theorem held_smallestAbsent (ascending : queue.Ascending) :
    (queue.held.filter (queue.smallestAbsent.1 < ·) = 0 ∧ queue.smallestAbsent.2.held = 0) ∨
      ∃ least, IsLeast {x | x ∈ queue.held.filter (queue.smallestAbsent.1 < ·)} least ∧
        queue.smallestAbsent.2.held =
          (queue.held.filter (queue.smallestAbsent.1 < ·)).erase least := by
  have above : queue.held.filter (queue.smallestAbsent.1 < ·) =
      ↑(queue.elems.filter ((absentFrom 0 queue.elems).1 < ·)) := Multiset.filter_coe _ _
  rw [above]
  rcases absentFrom_rest ascending 0 with ⟨none, rest⟩ | ⟨least, some⟩
  · rw [none]
    exact .inl ⟨rfl, congrArg (fun list : List Nat => (list : Multiset Nat)) rest⟩
  · have ordered : (queue.elems.filter ((absentFrom 0 queue.elems).1 < ·)).Pairwise (· ≤ ·) :=
      ascending.filter _
    rw [some] at ordered ⊢
    refine .inr ⟨least, ⟨List.mem_cons_self, fun x member => ?_⟩, ?_⟩
    · rcases List.mem_cons.mp member with rfl | later
      · exact Nat.le_refl _
      · exact List.rel_of_pairwise_cons ordered later
    · exact (Multiset.erase_cons_head least _).symm

/-- A queue holds what its pushes and pops leave.  The number found is the least one that it does not
hold, after no more steps than it holds numbers; the queue is left, as by pops, with the numbers that
are greater, minus the least of them if there is one. -/
theorem smallestAbsent_after (history : List Action) :
    (∀ bag, Leaves history bag ↔ bag = (after history).held) ∧
    IsLeast {x | x ∉ (after history).held} (after history).smallestAbsent.1 ∧
    (after history).smallestAbsent.1 ≤ (after history).held.card ∧
    (((after history).held.filter ((after history).smallestAbsent.1 < ·) = 0 ∧
        (after history).smallestAbsent.2.held = 0) ∨
      ∃ least,
        IsLeast {x | x ∈ (after history).held.filter ((after history).smallestAbsent.1 < ·)} least ∧
        (after history).smallestAbsent.2.held =
          ((after history).held.filter ((after history).smallestAbsent.1 < ·)).erase least) ∧
    ∃ pops, (after history).smallestAbsent.2 = after (history ++ List.replicate pops .pop) := by
  have ascending := ascending_after history
  refine ⟨fun bag => leaves_iff, isLeast_smallestAbsent ascending, ?_,
    held_smallestAbsent ascending, ?_⟩
  · have bound := absentFrom_le 0 (after history).elems
    rw [Nat.zero_add] at bound
    exact bound
  · obtain ⟨pops, isRest⟩ := absentFrom_eq_drop 0 (after history).elems
    refine ⟨pops, ?_⟩
    have popped : after (history ++ List.replicate pops .pop) = ⟨(after history).elems.drop pops⟩ := by
      rw [after, List.foldl_append]
      exact foldl_pop (after history) pops
    rw [popped, ← isRest]
    rfl

end Lowering.MinQueue
