import Lowering.Proofs.Allocation.Worklists

/-!
# Operations that shuffle

Counting neighbors, readying registers, letting copies be considered again and giving copies up all
shuffle a round, and leave its graph alone.
-/

namespace Lowering.Machine.Round

variable {m : Nat}

namespace Shuffles

theorem setMoveState {round : Round m} {move : Fin m} {state : MoveState}
    (open_ : round.isPending move = true ∨ round.moveStates.get move = state)
    (notMerged : state ≠ .coalesced) : Shuffles round (round.setMoveState move state) where
  pool := rfl
  merged := rfl
  stack := rfl
  moves := rfl
  moveLists := rfl
  listed reg := exists_congr fun _ => on_setMoveState
  distinct distinct reg first second onFirst onSecond :=
    distinct reg first second (on_setMoveState.mp onFirst) (on_setMoveState.mp onSecond)
  ready reg on := .inl (on_setMoveState.mp on)
  settled other done := by
    show (round.moveStates.set move state).get other = _
    rw [Table.get_set]
    split
    · next same =>
        subst same
        rcases open_ with pending | already
        · rw [done] at pending
          cases pending
        · exact already.symm
    · rfl
  unmerged other coalesced := by
    change (round.moveStates.set move state).get other = _ at coalesced
    rw [Table.get_set] at coalesced
    split at coalesced
    · exact absurd coalesced notMerged
    · exact coalesced

theorem enter {round : Round m} {target : Worklist} {moved : Reg} (listed : round.Listed moved)
    (idle : target = .simplify → round.isMoveRelated moved = false) :
    Shuffles round (round.enter target moved) where
  pool := by cases target <;> rfl
  merged := by cases target <;> rfl
  stack := by cases target <;> rfl
  moves := by cases target <;> rfl
  moveLists := by cases target <;> rfl
  listed := listed_enter listed
  distinct distinct := distinct.enter target moved
  ready reg on := by
    rcases on_enter.mp on with ⟨isSimplify, same⟩ | ⟨_, on⟩
    · right
      subst isSimplify same
      exact idle rfl
    · exact .inl on
  settled _ _ := by cases target <;> rfl
  unmerged _ coalesced := by cases target <;> exact coalesced

theorem modifyDegree (round : Round m) (reg : Reg) (change : Nat → Nat) :
    Shuffles round (round.modifyDegree reg change) where
  pool := rfl
  merged := rfl
  stack := rfl
  moves := rfl
  moveLists := rfl
  listed _ := exists_congr fun _ => on_modifyDegree
  distinct distinct reg first second onFirst onSecond :=
    distinct reg first second (on_modifyDegree.mp onFirst) (on_modifyDegree.mp onSecond)
  ready _ on := .inl (on_modifyDegree.mp on)
  settled _ _ := rfl
  unmerged _ := id

theorem foldl {α : Type} {step : Round m → α → Round m}
    (each : ∀ round a, Shuffles round (step round a)) (list : List α) (round : Round m) :
    Shuffles round (list.foldl step round) := by
  induction list generalizing round with
  | nil => exact refl round
  | cons a rest ih =>
      exact (each round a).trans (ih (step round a))

end Shuffles

section Enabling

/-- Lets one copy be considered again. -/
def enableMove (round : Round m) (move : Fin m) : Round m :=
  if round.moveStates.get move = .active then round.setMoveState move .worklist else round

theorem enableMoves_eq_foldl (round : Round m) (regs : List Reg) :
    round.enableMoves regs =
      regs.foldl (fun round reg => (round.pendingMoves reg).foldl enableMove round) round := rfl

theorem Shuffles.enableMove (round : Round m) (move : Fin m) :
    Shuffles round (round.enableMove move) := by
  unfold Round.enableMove
  split
  · next active =>
      exact .setMoveState (.inl (isPending_iff.mpr (.inr active))) (by decide)
  · exact .refl round

theorem Shuffles.enableMoves (round : Round m) (regs : List Reg) :
    Shuffles round (round.enableMoves regs) := by
  rw [enableMoves_eq_foldl]
  exact .foldl (fun round reg => .foldl Shuffles.enableMove (round.pendingMoves reg) round)
    regs round

theorem enableMoves_eq (round : Round m) (regs : List Reg) :
    ∃ states, round.enableMoves regs = { round with moveStates := states } := by
  have single (round : Round m) (move : Fin m) :
      ∃ states, round.enableMove move = { round with moveStates := states } := by
    unfold enableMove
    split
    · exact ⟨_, rfl⟩
    · exact ⟨round.moveStates, rfl⟩
  have several (list : List (Fin m)) : ∀ round : Round m,
      ∃ states, list.foldl enableMove round = { round with moveStates := states } := by
    induction list with
    | nil => exact fun round => ⟨round.moveStates, rfl⟩
    | cons move rest ih =>
        intro round
        obtain ⟨states, first⟩ := single round move
        obtain ⟨final, later⟩ := ih (round.enableMove move)
        exact ⟨final, by rw [List.foldl_cons, later, first]⟩
  rw [enableMoves_eq_foldl]
  induction regs generalizing round with
  | nil => exact ⟨round.moveStates, rfl⟩
  | cons reg rest ih =>
      obtain ⟨states, first⟩ := several (round.pendingMoves reg) round
      obtain ⟨final, later⟩ :=
        ih ((round.pendingMoves reg).foldl enableMove round)
      exact ⟨final, by rw [List.foldl_cons, later, first]⟩

@[simp]
theorem graph_enableMoves (round : Round m) (regs : List Reg) :
    (round.enableMoves regs).graph = round.graph := by
  obtain ⟨states, equal⟩ := round.enableMoves_eq regs
  rw [equal]

theorem on_enableMoves {round : Round m} {regs : List Reg} {list : Worklist} {reg : Reg} :
    (round.enableMoves regs).On list reg ↔ round.On list reg := by
  obtain ⟨states, equal⟩ := round.enableMoves_eq regs
  rw [equal]
  cases list <;> rfl

end Enabling

@[simp]
theorem graph_enter (round : Round m) (list : Worklist) (reg : Reg) :
    (round.enter list reg).graph = round.graph := by
  cases list <;> rfl

section Counting

theorem Shuffles.decrementDegree (round : Round m) (reg : Reg) :
    Shuffles round (round.decrementDegree reg) := by
  unfold Round.decrementDegree
  split
  · exact .refl round
  · dsimp only
    have counted := Shuffles.modifyDegree round reg (· - 1)
    split
    · next low =>
        have onSpill : (round.modifyDegree reg (· - 1)).On .spill reg := by
          simp only [Bool.and_eq_true, Std.TreeMap.contains_iff_mem] at low
          exact low.2
        refine (counted.trans (.enableMoves _ _)).trans (.enter ⟨.spill, ?_⟩ ?_)
        · exact on_enableMoves.mpr onSpill
        · intro isSimplify
          split at isSimplify
          · cases isSimplify
          · next idle => exact (Bool.not_eq_true _).mp idle
    · exact counted

@[simp]
theorem graph_decrementDegree (round : Round m) (reg : Reg) :
    (round.decrementDegree reg).graph = round.graph := by
  unfold decrementDegree
  split
  · rfl
  · dsimp only
    split
    · rw [graph_enter, graph_enableMoves]
      rfl
    · rfl

theorem graph_foldl_decrementDegree (regs : List Reg) (round : Round m) :
    (regs.foldl Round.decrementDegree round).graph = round.graph := by
  induction regs generalizing round with
  | nil => rfl
  | cons reg rest ih =>
      rw [List.foldl_cons, ih, graph_decrementDegree]

theorem Shuffles.addWorklist {round : Round m} {reg : Reg}
    (present : round.isPresent reg = true) : Shuffles round (round.addWorklist reg) := by
  unfold Round.addWorklist
  split
  · next free =>
      simp only [Bool.and_eq_true, Bool.not_eq_true', decide_eq_true_eq] at free
      rcases isPresent_iff.mp present with physical | listed
      · rw [physical] at free
        exact absurd free.1.1 (by decide)
      · exact .enter listed fun _ => free.1.2
  · exact .refl round

@[simp]
theorem graph_addWorklist (round : Round m) (reg : Reg) :
    (round.addWorklist reg).graph = round.graph := by
  unfold addWorklist
  split
  · exact graph_enter round .simplify reg
  · rfl

end Counting

section Freezing

/-- Giving a copy up may ready a register that waits on the second list. -/
theorem freezeMove_cases (u : Reg) (round : Round m) (move : Fin m) :
    freezeMove u round move = round.setMoveState move .frozen ∨
      ∃ v, round.On .freeze v ∧ (round.setMoveState move .frozen).isMoveRelated v = false ∧
        freezeMove u round move = (round.setMoveState move .frozen).enter .simplify v := by
  unfold freezeMove
  dsimp only
  generalize (if round.representative (round.moves.get move).src = round.representative u then
    round.representative (round.moves.get move).dest
    else round.representative (round.moves.get move).src) = v
  split
  · next free =>
      simp only [Bool.and_eq_true, Bool.not_eq_true', Std.TreeMap.contains_iff_mem] at free
      exact .inr ⟨v, free.1, free.2, rfl⟩
  · exact .inl rfl

theorem moveStates_freezeMove (u : Reg) (round : Round m) (move : Fin m) :
    (freezeMove u round move).moveStates = round.moveStates.set move .frozen := by
  rcases freezeMove_cases u round move with outcome | ⟨v, _, _, outcome⟩
  · rw [outcome]
    rfl
  · rw [outcome]
    rfl

theorem graph_freezeMove (u : Reg) (round : Round m) (move : Fin m) :
    (freezeMove u round move).graph = round.graph := by
  rcases freezeMove_cases u round move with outcome | ⟨v, _, _, outcome⟩
  · rw [outcome]
    rfl
  · rw [outcome]
    exact graph_enter _ .simplify v

theorem Shuffles.freezeMove {u : Reg} {round : Round m} {move : Fin m}
    (open_ : round.isPending move = true ∨ round.moveStates.get move = .frozen) :
    Shuffles round (freezeMove u round move) := by
  have frozen : Shuffles round (round.setMoveState move .frozen) :=
    .setMoveState open_ (by decide)
  rcases freezeMove_cases u round move with outcome | ⟨v, on, unrelated, outcome⟩
  · exact outcome ▸ frozen
  · exact outcome ▸ frozen.trans (.enter ⟨.freeze, on⟩ fun _ => unrelated)

/-- Giving copies up in turn shuffles, and all of them are given up. -/
theorem Shuffles.foldl_freezeMove (u : Reg) (list : List (Fin m)) (round : Round m)
    (open_ : ∀ move ∈ list, round.isPending move = true ∨ round.moveStates.get move = .frozen) :
    Shuffles round (list.foldl (Round.freezeMove u) round) ∧
      ∀ move, move ∈ list ∨ round.moveStates.get move = .frozen →
        (list.foldl (Round.freezeMove u) round).moveStates.get move = .frozen := by
  induction list generalizing round with
  | nil =>
      refine ⟨.refl round, ?_⟩
      rintro move (member | frozen)
      · cases member
      · exact frozen
  | cons move rest ih =>
      have first : Shuffles round (Round.freezeMove u round move) :=
        .freezeMove (open_ move List.mem_cons_self)
      have states := moveStates_freezeMove u round move
      have stillOpen : ∀ other ∈ rest,
          (Round.freezeMove u round move).isPending other = true ∨
            (Round.freezeMove u round move).moveStates.get other = .frozen := by
        intro other member
        rw [isPending_iff, states, Table.get_set]
        split
        · exact .inr rfl
        · rw [← isPending_iff]
          exact open_ other (List.mem_cons_of_mem _ member)
      obtain ⟨later, frozen⟩ := ih _ stillOpen
      refine ⟨first.trans later, ?_⟩
      intro other given
      apply frozen
      rw [states, Table.get_set]
      rcases given with member | already
      · rcases List.mem_cons.mp member with same | member
        · exact .inr (if_pos same.symm)
        · exact .inl member
      · right
        split
        · rfl
        · exact already

theorem Shuffles.freezeMoves (round : Round m) (reg : Reg) :
    Shuffles round (round.freezeMoves reg) :=
  (foldl_freezeMove reg (round.pendingMoves reg) round fun _ member =>
    .inl (mem_pendingMoves.mp member).2).1

theorem isMoveRelated_freezeMoves (round : Round m) (reg : Reg) :
    (round.freezeMoves reg).isMoveRelated reg = false := by
  obtain ⟨shuffles, frozen⟩ := Shuffles.foldl_freezeMove reg (round.pendingMoves reg) round
    fun _ member => .inl (mem_pendingMoves.mp member).2
  rw [Bool.eq_false_iff]
  intro related
  obtain ⟨move, recorded, pending⟩ := isMoveRelated_iff.mp related
  change move ∈ ((round.pendingMoves reg).foldl (Round.freezeMove reg) round).moveLists.getD reg []
    at recorded
  rw [shuffles.moveLists] at recorded
  have given := frozen move (.inl (mem_pendingMoves.mpr ⟨recorded, shuffles.isPending pending⟩))
  rcases isPending_iff.mp pending with state | state <;>
  · have clash := given.symm.trans state
    cases clash

@[simp]
theorem graph_freezeMoves (round : Round m) (reg : Reg) :
    (round.freezeMoves reg).graph = round.graph := by
  unfold freezeMoves
  generalize round.pendingMoves reg = list
  induction list generalizing round with
  | nil => rfl
  | cons move rest ih =>
      rw [List.foldl_cons, ih, graph_freezeMove]

end Freezing

end Lowering.Machine.Round
