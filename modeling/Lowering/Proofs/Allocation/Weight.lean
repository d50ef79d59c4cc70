import Lowering.Proofs.Allocation.Shuffling

/-!
# The weight of a round

Every register on a worklist and every copy waiting to be considered has a weight.  A register that
leaves the spill candidates loses what is gained when all copies are considered again, and a merged
register loses enough for its copies to be considered again and for its partner to become a spill
candidate.  No shuffling between two steps makes a round heavier.
-/

namespace Lowering.Machine.Round

variable {m : Nat} {round : Round m}

/-- The weight of a register on a worklist of a round with `m` copies. -/
def cost (m : Nat) : Worklist → Nat
  | .simplify => 2 * m + 1
  | .freeze => 2 * m + 2
  | .spill => 3 * m + 2

/-- The number of copies to be considered. -/
def waiting (round : Round m) : Nat := (round.movesIn .worklist).length

def weight (round : Round m) : Nat :=
  round.waiting + cost m .simplify * (round.worklist .simplify).size +
    cost m .freeze * (round.worklist .freeze).size +
    cost m .spill * (round.worklist .spill).size

theorem mem_movesIn {state : MoveState} {move : Fin m} :
    move ∈ round.movesIn state ↔ round.moveStates.get move = state := by
  unfold movesIn
  simp only [List.mem_filter, List.mem_finRange, true_and, beq_iff_eq]

theorem waiting_le (round : Round m) : round.waiting ≤ m := by
  unfold waiting movesIn
  exact Nat.le_trans (List.length_filter_le _ _) (Nat.le_of_eq List.length_finRange)

section Lists

variable {map : RegMap Nat} {reg : Reg}

theorem size_pos (member : reg ∈ map) : 0 < map.size := by
  rw [Nat.pos_iff_ne_zero]
  intro none
  have empty : map.isEmpty = true := by
    rw [Std.TreeMap.isEmpty_eq_size_eq_zero, none]
    rfl
  exact Std.TreeMap.not_mem_of_isEmpty empty member

theorem size_erase_of_mem (member : reg ∈ map) :
    (map.erase reg).size + 1 = map.size := by
  have positive := size_pos member
  rw [Std.TreeMap.size_erase, if_pos (Std.TreeMap.contains_iff_mem.mpr member)]
  omega

theorem size_erase_of_not_mem (absent : reg ∉ map) :
    (map.erase reg).size = map.size := by
  rw [Std.TreeMap.size_erase,
    if_neg fun contained => absent (Std.TreeMap.contains_iff_mem.mp contained)]

theorem size_insert_of_not_mem {degree : Nat} (absent : reg ∉ map) :
    (map.insert reg degree).size = map.size + 1 := by
  rw [Std.TreeMap.size_insert,
    if_neg fun contained => absent (Std.TreeMap.contains_iff_mem.mp contained)]

theorem worklist_leave (round : Round m) (reg : Reg) (list : Worklist) :
    (round.leave reg).worklist list = (round.worklist list).erase reg := by
  cases list <;> rfl

theorem worklist_put (round : Round m) (target list : Worklist) (reg : Reg) (degree : Nat) :
    (round.put target reg degree).worklist list =
      if list = target then (round.worklist list).insert reg degree
      else round.worklist list := by
  cases target <;> cases list <;> rfl

variable {round : Round m} {list : Worklist}

theorem weight_leave (distinct : round.Distinct)
    (on : round.On list reg) : (round.leave reg).weight + cost m list = round.weight := by
  have alone (other : Worklist) (different : other ≠ list) :
      ((round.worklist other).erase reg).size = (round.worklist other).size :=
    size_erase_of_not_mem fun member => different (distinct reg other list member on)
  have gone : ((round.worklist list).erase reg).size + 1 = (round.worklist list).size :=
    size_erase_of_mem on
  have sameWaiting : (round.leave reg).waiting = round.waiting := rfl
  simp only [weight, worklist_leave, sameWaiting]
  cases list with
  | simplify =>
      rw [← gone, alone .freeze (by decide), alone .spill (by decide), Nat.mul_succ]
      omega
  | freeze =>
      rw [← gone, alone .simplify (by decide), alone .spill (by decide), Nat.mul_succ]
      omega
  | spill =>
      rw [← gone, alone .simplify (by decide), alone .freeze (by decide), Nat.mul_succ]
      omega

theorem weight_put {degree : Nat} (absent : ¬ round.On list reg) :
    (round.put list reg degree).weight = round.weight + cost m list := by
  have added : ((round.worklist list).insert reg degree).size = (round.worklist list).size + 1 :=
    size_insert_of_not_mem absent
  have sameWaiting : (round.put list reg degree).waiting = round.waiting := by
    cases list <;> rfl
  simp only [weight, worklist_put, sameWaiting]
  cases list with
  | simplify =>
      rw [if_pos rfl, if_neg (by decide), if_neg (by decide), added, Nat.mul_succ]
      omega
  | freeze =>
      rw [if_pos rfl, if_neg (by decide), if_neg (by decide), added, Nat.mul_succ]
      omega
  | spill =>
      rw [if_pos rfl, if_neg (by decide), if_neg (by decide), added, Nat.mul_succ]
      omega

theorem weight_enter (target : Worklist) (distinct : round.Distinct) (on : round.On list reg) :
    (round.enter target reg).weight + cost m list = round.weight + cost m target := by
  unfold enter
  have left : ¬ (round.leave reg).On target reg := fun still => (on_leave.mp still).1 rfl
  rw [weight_put left, ← weight_leave distinct on]
  omega

@[simp]
theorem weight_modifyDegree (round : Round m) (reg : Reg) (change : Nat → Nat) :
    (round.modifyDegree reg change).weight = round.weight := by
  have same (list : Worklist) :
      ((round.modifyDegree reg change).worklist list).size = (round.worklist list).size := by
    cases list <;> exact Std.TreeMap.size_modify
  have sameWaiting : (round.modifyDegree reg change).waiting = round.waiting := rfl
  simp only [weight, same, sameWaiting]

end Lists

section Copies

theorem movesIn_setMoveState {round : Round m} {move : Fin m} {state : MoveState}
    (moved : state ≠ .worklist) :
    (round.setMoveState move state).movesIn .worklist =
      (round.movesIn .worklist).filter (· ≠ move) := by
  unfold movesIn
  rw [List.filter_filter]
  apply List.filter_congr
  intro other _
  change ((round.moveStates.set move state).get other == _) = _
  rw [Table.get_set]
  by_cases same : move = other
  · rw [if_pos same]
    simp [same, moved]
  · rw [if_neg same]
    simp [Ne.symm same]

theorem weight_setMoveState_le (round : Round m) (move : Fin m) (state : MoveState)
    (moved : state ≠ .worklist) : (round.setMoveState move state).weight ≤ round.weight := by
  have fewer : (round.setMoveState move state).waiting ≤ round.waiting := by
    unfold waiting
    rw [movesIn_setMoveState moved]
    exact List.length_filter_le _ _
  have same (list : Worklist) :
      (round.setMoveState move state).worklist list = round.worklist list := by
    cases list <;> rfl
  simp only [weight, same]
  omega

theorem weight_setMoveState_lt {round : Round m} {move : Fin m} (state : MoveState)
    (waited : round.moveStates.get move = .worklist) (moved : state ≠ .worklist) :
    (round.setMoveState move state).weight < round.weight := by
  have fewer : (round.setMoveState move state).waiting < round.waiting := by
    unfold waiting
    rw [movesIn_setMoveState moved]
    exact List.length_filter_lt_length_iff_exists.mpr
      ⟨move, mem_movesIn.mpr waited, by simp⟩
  have same (list : Worklist) :
      (round.setMoveState move state).worklist list = round.worklist list := by
    cases list <;> rfl
  simp only [weight, same]
  omega

theorem weight_enableMoves_le (round : Round m) (regs : List Reg) :
    (round.enableMoves regs).weight ≤ round.weight + m := by
  have few := waiting_le (round.enableMoves regs)
  have same (list : Worklist) :
      (round.enableMoves regs).worklist list = round.worklist list := by
    obtain ⟨states, equal⟩ := round.enableMoves_eq regs
    rw [equal]
    cases list <;> rfl
  simp only [weight, same]
  omega

end Copies

theorem weight_decrementDegree_le (distinct : round.Distinct) (reg : Reg) :
    (round.decrementDegree reg).weight ≤ round.weight := by
  unfold decrementDegree
  split
  · exact Nat.le_refl _
  · dsimp only
    split
    · next low =>
        simp only [Bool.and_eq_true, Std.TreeMap.contains_iff_mem] at low
        have counted := Shuffles.modifyDegree round reg (· - 1)
        have enabled := counted.trans (.enableMoves _ ((round.modifyDegree reg (· - 1)).adjacent reg ++ [reg]))
        have onSpill : ((round.modifyDegree reg (· - 1)).enableMoves
            ((round.modifyDegree reg (· - 1)).adjacent reg ++ [reg])).On .spill reg :=
          on_enableMoves.mpr low.2
        have bound := weight_enableMoves_le (round.modifyDegree reg (· - 1))
          ((round.modifyDegree reg (· - 1)).adjacent reg ++ [reg])
        rw [weight_modifyDegree] at bound
        split
        · have moved := weight_enter .freeze (enabled.distinct distinct) onSpill
          simp only [cost] at moved
          omega
        · have moved := weight_enter .simplify (enabled.distinct distinct) onSpill
          simp only [cost] at moved
          omega
    · exact Nat.le_of_eq (weight_modifyDegree _ _ _)

theorem weight_foldl_decrementDegree_le (regs : List Reg) (distinct : round.Distinct) :
    (regs.foldl decrementDegree round).weight ≤ round.weight := by
  induction regs generalizing round with
  | nil => exact Nat.le_refl _
  | cons reg rest ih =>
      have first := Shuffles.decrementDegree round reg
      exact Nat.le_trans (ih (first.distinct distinct))
        (weight_decrementDegree_le distinct reg)

theorem weight_addWorklist_le (distinct : round.Distinct) {reg : Reg}
    (present : round.isPresent reg = true) : (round.addWorklist reg).weight ≤ round.weight := by
  unfold addWorklist
  split
  · next free =>
      rcases isPresent_iff.mp present with physical | ⟨list, on⟩
      · simp [physical] at free
      · have moved := weight_enter .simplify distinct on
        have cheapest : cost m .simplify ≤ cost m list := by cases list <;> simp only [cost] <;> omega
        omega
  · exact Nat.le_refl _

theorem weight_freezeMove_le (u : Reg) (distinct : round.Distinct)
    (move : Fin m) : (freezeMove u round move).weight ≤ round.weight := by
  have lighter := weight_setMoveState_le round move .frozen (by decide)
  have frozen : (round.setMoveState move .frozen).Distinct := by
    intro reg first second onFirst onSecond
    exact distinct reg first second (on_setMoveState.mp onFirst) (on_setMoveState.mp onSecond)
  rcases freezeMove_cases u round move with outcome | ⟨v, on, _, outcome⟩
  · rw [outcome]
    exact lighter
  · have onFreeze : (round.setMoveState move .frozen).On .freeze v := on
    have moved := weight_enter .simplify frozen onFreeze
    simp only [cost] at moved
    rw [outcome]
    omega

theorem weight_freezeMoves_le (distinct : round.Distinct) (reg : Reg) :
    (round.freezeMoves reg).weight ≤ round.weight := by
  unfold freezeMoves
  have open_ : ∀ move ∈ round.pendingMoves reg,
      round.isPending move = true ∨ round.moveStates.get move = .frozen :=
    fun _ member => .inl (mem_pendingMoves.mp member).2
  generalize round.pendingMoves reg = list at open_
  induction list generalizing round with
  | nil => exact Nat.le_refl _
  | cons move rest ih =>
      have first : Shuffles round (freezeMove reg round move) :=
        .freezeMove (open_ move List.mem_cons_self)
      have stillOpen : ∀ other ∈ rest,
          (freezeMove reg round move).isPending other = true ∨
            (freezeMove reg round move).moveStates.get other = .frozen := by
        intro other member
        rw [isPending_iff, moveStates_freezeMove, Table.get_set]
        split
        · exact .inr rfl
        · rw [← isPending_iff]
          exact open_ other (List.mem_cons_of_mem _ member)
      exact Nat.le_trans (ih (first.distinct distinct) stillOpen)
        (weight_freezeMove_le reg distinct move)

end Lowering.Machine.Round
