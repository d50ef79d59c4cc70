import Lowering.Allocation.Round
import Lowering.Proofs.Graph

/-!
# Worklists of a round

A register waits on at most one of three worklists.  The operations between two steps of a round
only shuffle registers and copies: they move registers among the worklists, count neighbors, let
copies be considered again and give copies up.  `Shuffles` says once what such an operation keeps.
-/

namespace Lowering.Machine.Round

variable {m : Nat}

/-- The register is on the worklist. -/
def On (round : Round m) (list : Worklist) (reg : Reg) : Prop := reg ∈ round.worklist list

/-- The register is on some worklist. -/
def Listed (round : Round m) (reg : Reg) : Prop := ∃ list, round.On list reg

/-- No register is on two worklists. -/
def Distinct (round : Round m) : Prop :=
  ∀ reg first second, round.On first reg → round.On second reg → first = second

instance (round : Round m) (list : Worklist) (reg : Reg) : Decidable (round.On list reg) :=
  inferInstanceAs (Decidable (reg ∈ round.worklist list))

theorem isPresent_iff {round : Round m} {reg : Reg} :
    round.isPresent reg = true ↔ reg.isPhysical = true ∨ round.Listed reg := by
  unfold isPresent Listed
  simp only [Bool.or_eq_true, Std.TreeMap.contains_iff_mem, or_assoc]
  constructor
  · rintro (physical | simplify | freeze | spill)
    · exact .inl physical
    · exact .inr ⟨.simplify, simplify⟩
    · exact .inr ⟨.freeze, freeze⟩
    · exact .inr ⟨.spill, spill⟩
  · rintro (physical | ⟨list, on⟩)
    · exact .inl physical
    · cases list with
      | simplify => exact .inr (.inl on)
      | freeze => exact .inr (.inr (.inl on))
      | spill => exact .inr (.inr (.inr on))

theorem mem_adjacent {round : Round m} {reg other : Reg} :
    other ∈ round.adjacent reg ↔
      round.graph.hasEdge reg other = true ∧ round.isPresent other = true := by
  unfold adjacent
  rw [List.mem_filter, Graph.mem_neighbors]

section Moving

variable {round : Round m} {reg : Reg} {list target : Worklist}

theorem on_leave {gone : Reg} :
    (round.leave gone).On list reg ↔ reg ≠ gone ∧ round.On list reg := by
  rw [ne_comm]
  cases list <;>
    simp only [On, worklist, leave, Std.TreeMap.mem_erase, ne_eq, Reg.order_eq_iff]

theorem on_put {placed : Reg} {degree : Nat} :
    (round.put target placed degree).On list reg ↔
      (list = target ∧ reg = placed) ∨ round.On list reg := by
  rw [eq_comm (a := reg)]
  cases target <;> cases list <;> simp [On, worklist, put, Std.TreeMap.mem_insert]

theorem on_enter {moved : Reg} :
    (round.enter target moved).On list reg ↔
      (list = target ∧ reg = moved) ∨ (reg ≠ moved ∧ round.On list reg) := by
  unfold enter
  rw [on_put, on_leave]

@[simp]
theorem on_modifyDegree {counted : Reg} {change : Nat → Nat}
    :
    (round.modifyDegree counted change).On list reg ↔ round.On list reg := by
  cases list <;> simp only [On, worklist, modifyDegree, Std.TreeMap.mem_modify]

@[simp]
theorem on_setMoveState {move : Fin m} {state : MoveState}
    :
    (round.setMoveState move state).On list reg ↔ round.On list reg := by
  cases list <;> rfl

theorem listed_enter {moved : Reg} (listed : round.Listed moved) (reg : Reg) :
    (round.enter target moved).Listed reg ↔ round.Listed reg := by
  unfold Listed
  simp only [on_enter]
  constructor
  · rintro ⟨list, ⟨_, same⟩ | ⟨_, on⟩⟩
    · exact same ▸ listed
    · exact ⟨list, on⟩
  · rintro ⟨list, on⟩
    by_cases same : reg = moved
    · exact ⟨target, .inl ⟨rfl, same⟩⟩
    · exact ⟨list, .inr ⟨same, on⟩⟩

theorem Distinct.enter (distinct : round.Distinct) (target : Worklist)
    (moved : Reg) : (round.enter target moved).Distinct := by
  intro reg first second onFirst onSecond
  rcases on_enter.mp onFirst with ⟨firstIs, same⟩ | ⟨different, first⟩
  · rcases on_enter.mp onSecond with ⟨secondIs, _⟩ | ⟨different, _⟩
    · rw [firstIs, secondIs]
    · exact absurd same different
  · rcases on_enter.mp onSecond with ⟨_, same⟩ | ⟨_, second⟩
    · exact absurd same different
    · exact distinct reg _ _ first second

end Moving

section Pending

variable {round : Round m}

theorem isPending_iff {move : Fin m} :
    round.isPending move = true ↔
      round.moveStates.get move = .worklist ∨ round.moveStates.get move = .active := by
  unfold isPending
  cases round.moveStates.get move <;> simp

theorem mem_pendingMoves {reg : Reg} {move : Fin m} :
    move ∈ round.pendingMoves reg ↔
      move ∈ round.moveLists.getD reg [] ∧ round.isPending move = true := by
  unfold pendingMoves
  rw [List.mem_filter]

theorem isMoveRelated_iff {reg : Reg} :
    round.isMoveRelated reg = true ↔
      ∃ move, move ∈ round.moveLists.getD reg [] ∧ round.isPending move = true := by
  unfold isMoveRelated
  simp only [Bool.not_eq_true', List.isEmpty_eq_false_iff_exists_mem, mem_pendingMoves]

end Pending

/-- What an operation keeps that moves registers among the worklists, counts neighbors, lets copies
be considered again or gives copies up. -/
structure Shuffles (before after : Round m) : Prop where
  pool : after.pool = before.pool
  merged : after.merged = before.merged
  stack : after.stack = before.stack
  moves : after.moves = before.moves
  moveLists : after.moveLists = before.moveLists
  listed : ∀ reg, after.Listed reg ↔ before.Listed reg
  distinct : before.Distinct → after.Distinct
  /-- Only registers without pending copies become ready to be stacked. -/
  ready : ∀ reg, after.On .simplify reg →
    before.On .simplify reg ∨ after.isMoveRelated reg = false
  /-- Copies that are done with stay so. -/
  settled : ∀ move, before.isPending move = false →
    after.moveStates.get move = before.moveStates.get move
  /-- No copy is merged. -/
  unmerged : ∀ move, after.moveStates.get move = .coalesced →
    before.moveStates.get move = .coalesced

namespace Shuffles

variable {before middle after : Round m}

theorem refl (round : Round m) : Shuffles round round where
  pool := rfl
  merged := rfl
  stack := rfl
  moves := rfl
  moveLists := rfl
  listed _ := Iff.rfl
  distinct := id
  ready _ := .inl
  settled _ _ := rfl
  unmerged _ := id

theorem isPending (shuffles : Shuffles before after) {move : Fin m}
    (pending : after.isPending move = true) : before.isPending move = true := by
  rw [← Bool.not_eq_false]
  intro done
  have same := shuffles.settled move done
  rw [isPending_iff, same, ← isPending_iff, done] at pending
  cases pending

theorem isMoveRelated (shuffles : Shuffles before after) {reg : Reg}
    (idle : before.isMoveRelated reg = false) : after.isMoveRelated reg = false := by
  rw [Bool.eq_false_iff] at idle ⊢
  intro related
  obtain ⟨move, recorded, pending⟩ := isMoveRelated_iff.mp related
  rw [shuffles.moveLists] at recorded
  exact idle (isMoveRelated_iff.mpr ⟨move, recorded, shuffles.isPending pending⟩)

theorem trans (first : Shuffles before middle) (second : Shuffles middle after) :
    Shuffles before after where
  pool := second.pool.trans first.pool
  merged := second.merged.trans first.merged
  stack := second.stack.trans first.stack
  moves := second.moves.trans first.moves
  moveLists := second.moveLists.trans first.moveLists
  listed reg := (second.listed reg).trans (first.listed reg)
  distinct := second.distinct ∘ first.distinct
  ready reg on := by
    rcases second.ready reg on with onMiddle | idle
    · exact (first.ready reg onMiddle).imp_right second.isMoveRelated
    · exact .inr idle
  settled move done := by
    have same := first.settled move done
    rw [second.settled move, same]
    rw [Bool.eq_false_iff]
    intro pending
    rw [isPending_iff, same, ← isPending_iff, done] at pending
    cases pending
  unmerged move coalesced := first.unmerged move (second.unmerged move coalesced)

theorem isPresent (shuffles : Shuffles before after) (reg : Reg) :
    after.isPresent reg = before.isPresent reg := by
  rw [Bool.eq_iff_iff, isPresent_iff, isPresent_iff, shuffles.listed]

end Shuffles

end Lowering.Machine.Round
