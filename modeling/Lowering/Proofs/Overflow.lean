import Lowering.Pass
import Lowering.Width

/-!
# Computations that stop on overflow only
-/

namespace Lowering

variable {α β : Type}

/-- The computation gives a result, or stops because a counter leaves its range. -/
def OnlyOverflows (result : Except Fault α) : Prop :=
  ∀ fault, result = .error fault → fault = .addOverflow

namespace OnlyOverflows

theorem ok (a : α) : OnlyOverflows (.ok a : Except Fault α) := nofun

theorem add (width : Width) (a b : Nat) : OnlyOverflows (width.add a b) := by
  intro fault stopped
  unfold Width.add at stopped
  split at stopped
  · cases stopped
  · cases stopped
    rfl

theorem bind {first : Except Fault α} {next : α → Except Fault β} (before : OnlyOverflows first)
    (after : ∀ a, first = .ok a → OnlyOverflows (next a)) : OnlyOverflows (first >>= next) := by
  intro fault stopped
  cases found : first with
  | error other =>
      rw [found] at stopped
      cases stopped
      exact before fault found
  | ok a =>
      rw [found] at stopped
      exact after a found fault stopped

theorem bindPass {first : Pass α} {next : α → Pass β} (before : OnlyOverflows first.result)
    (after : ∀ a, first.result = .ok a → OnlyOverflows (next a).result) :
    OnlyOverflows (first >>= next).result := by
  rw [Pass.result_bind]
  exact before.bind after

theorem exists_ok {result : Except Fault α} (only : OnlyOverflows result)
    (room : result ≠ .error .addOverflow) : ∃ a, result = .ok a := by
  cases found : result with
  | error fault => exact absurd (only fault found ▸ found) room
  | ok a => exact ⟨a, rfl⟩

end OnlyOverflows

/-- Moving a counter past some numbers leaves it where it was or right behind one of them. -/
theorem foldlM_reserve {numbers : List Nat} {next last : Nat}
    (ok : numbers.foldlM (fun next v => do
        let after ← Width.w32.add v 1
        return if next < after then after else next) next = .ok last) :
    next ≤ last ∧ (∀ number ∈ numbers, number < last ∧ number + 1 < Width.w32.bound) ∧
      (last = next ∨ ∃ number ∈ numbers, last = number + 1) := by
  induction numbers generalizing next with
  | nil =>
      cases ok
      simp
  | cons first rest ih =>
      rw [List.foldlM_cons] at ok
      obtain ⟨middle, isMiddle, ok⟩ := bind_eq_ok.mp ok
      obtain ⟨after, isAfter, isMiddle⟩ := bind_eq_ok.mp isMiddle
      obtain ⟨rfl, small⟩ := Width.add_eq_ok_iff.mp isAfter
      obtain ⟨le, inside, attained⟩ := ih ok
      have moved : next ≤ middle ∧ first < middle ∧ (middle = next ∨ middle = first + 1) := by
        cases isMiddle
        split <;> omega
      refine ⟨by omega, fun number member => ?_, ?_⟩
      · rcases List.mem_cons.mp member with rfl | later
        · exact ⟨by omega, small⟩
        · exact inside number later
      · rcases attained with rfl | ⟨number, member, isLast⟩
        · exact moved.2.2.imp_right fun isFirst => ⟨first, List.mem_cons_self, isFirst⟩
        · exact .inr ⟨number, List.mem_cons_of_mem _ member, isLast⟩

theorem onlyOverflows_reserve (numbers : List Nat) (next : Nat) :
    OnlyOverflows (numbers.foldlM (fun next v => do
      let after ← Width.w32.add v 1
      return if next < after then after else next) next) := by
  induction numbers generalizing next with
  | nil => exact .ok next
  | cons first rest ih =>
      rw [List.foldlM_cons]
      exact ((OnlyOverflows.add _ _ _).bind fun _ _ => .ok _).bind fun middle _ => ih middle

/-- A sum or a product has left its range. -/
def Fault.IsOverflow (fault : Fault) : Prop := fault = .addOverflow ∨ fault = .mulOverflow

end Lowering
