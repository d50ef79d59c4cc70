import Lowering.Proofs.Allocation.Conservative

/-!
# Only spill candidates are spilled

A register that was never picked as a spill candidate is stacked with fewer neighbors than there are
colors.  The neighbors it is colored against are those that were left beside it then, or what they have
been merged into since, so they are represented by no more registers, and a color is left.
-/

namespace Lowering.Machine

namespace Round

variable {m : Nat} {origin graph : InterferenceGraph} {pool : List PhysReg} {moves : Table m MoveSite}
  {round start next : Round m} {exempt : Reg → Prop} {reg : Reg} {count : Nat}

/-- The register is picked as a spill candidate after so many steps. -/
def PicksAt (start : Round m) (count : Nat) (reg : Reg) : Prop :=
  (start.steps count).PicksSpill ∧ (start.steps count).spillChoice? = some reg

/-- The register is stacked after so many steps. -/
def StacksAt (start : Round m) (count : Nat) (reg : Reg) : Prop :=
  (start.steps count).simplifyList.minKey? = some reg

/-! ## Counting steps -/

theorem steps_of_ended (ended : round.step? = none) (count : Nat) : round.steps count = round := by
  cases count with
  | zero => rfl
  | succ count => rw [steps, ended]

theorem steps_add (round : Round m) (count more : Nat) :
    round.steps (count + more) = (round.steps count).steps more := by
  induction count generalizing round with
  | zero => rw [Nat.zero_add, steps]
  | succ count ih =>
      rw [Nat.succ_add]
      cases stepped : round.step? with
      | none => simp only [steps_of_ended stepped]
      | some next => simp only [steps, stepped, ih]

theorem steps_succ (stepped : (start.steps count).step? = some next) :
    start.steps (count + 1) = next := by
  rw [steps_add]
  simp only [steps, stepped]

theorem StacksAt.step? (ready : start.StacksAt count reg) :
    (start.steps count).step? = some ((start.steps count).simplify reg) := by
  unfold Round.step?
  rw [show (start.steps count).simplifyList.minKey? = some reg from ready]

/-! ## The stack -/

theorem stack_simplify (round : Round m) (reg : Reg) :
    (round.simplify reg).stack = reg :: round.stack :=
  (Shuffles.foldl Shuffles.decrementDegree _ _).stack

/-- A step stacks the first register that is ready, or leaves the stack alone. -/
theorem Consistent.stack_step (consistent : Consistent origin pool moves round)
    (stepped : round.step? = some next) :
    next.stack = round.stack ∨
      ∃ reg, round.simplifyList.minKey? = some reg ∧ next.stack = reg :: round.stack := by
  cases least : round.simplifyList.minKey? with
  | some reg =>
      unfold Round.step? at stepped
      rw [least] at stepped
      cases stepped
      exact .inr ⟨reg, rfl, stack_simplify round reg⟩
  | none =>
      left
      rcases consistent.step_effect stepped with
        ⟨reg, on, _⟩ | ⟨move, u, v, _, _, _, _, rests⟩ | rests
      · exact absurd on (Std.TreeMap.not_mem_of_isEmpty (Std.TreeMap.minKey?_eq_none_iff.mp least))
      · exact rests.stack.trans (Shuffles.combine _ u v).stack
      · exact rests.stack

theorem Consistent.mem_stack_steps (consistent : Consistent origin pool moves round)
    (stacked : reg ∈ round.stack) (count : Nat) : reg ∈ (round.steps count).stack := by
  refine (steps_induct (motive := fun round => Consistent origin pool moves round ∧ reg ∈ round.stack)
    ?_ ⟨consistent, stacked⟩ count).2
  rintro before next ⟨consistent, stacked⟩ stepped
  refine ⟨(consistent.step stepped).1, ?_⟩
  rcases consistent.stack_step stepped with same | ⟨other, _, longer⟩
  · exact same ▸ stacked
  · exact longer ▸ List.mem_cons_of_mem _ stacked

/-! ## Registers that are never picked -/

/-- A register that is ready to be stacked and was not picked has few neighbors. -/
theorem Tallied.few_of_on_simplify (tallied : Tallied exempt round) (linked : Linked origin round)
    (invariant : Invariant origin round) (on : round.On .simplify reg) (plain : ¬ exempt reg) :
    (round.adjacent reg).length < round.k ∧
      Few round.k fun other => ∃ neighbor, round.graph.hasEdge reg neighbor = true ∧
        round.representative neighbor = other ∧ other ∉ round.stack ∧ round.Paints other := by
  have few : (round.adjacent reg).length < round.k := by
    rw [tallied.length_adjacent ⟨.simplify, on⟩]
    exact tallied.degree_lt on invariant.distinct nofun plain
  refine ⟨few, round.adjacent reg, few, ?_⟩
  rintro _ ⟨neighbor, edge, rfl, notStacked, _⟩
  exact linked.mem_adjacent invariant ⟨.simplify, on⟩ edge notStacked

/-- What holds of a round after so many steps from its start. -/
structure Tracked (origin : InterferenceGraph) (pool : List PhysReg) (moves : Table m MoveSite)
    (start : Round m) (count : Nat) : Prop where
  consistent : Consistent origin pool moves (start.steps count)
  linked : Linked origin (start.steps count)
  /-- Only registers that were picked may wait to be stacked with many neighbors. -/
  tallied : ∃ exempt, Tallied exempt (start.steps count) ∧
    ∀ reg, exempt reg → ∃ earlier < count, start.PicksAt earlier reg
  stacked : ∀ reg ∈ (start.steps count).stack, ∃ earlier < count, start.StacksAt earlier reg
  easy : Easy (fun reg => ∀ count, ¬ start.PicksAt count reg) (start.steps count)

namespace Tracked

theorem step (tracked : Tracked origin pool moves start count) :
    Tracked origin pool moves start (count + 1) := by
  have sooner {property : Nat → Prop} (some : ∃ earlier < count, property earlier) :
      ∃ earlier < count + 1, property earlier := by
    obtain ⟨earlier, less, holds⟩ := some
    exact ⟨earlier, Nat.lt_succ_of_lt less, holds⟩
  obtain ⟨exempt, tallied, picked⟩ := tracked.tallied
  have consistent := tracked.consistent
  cases stepped : (start.steps count).step? with
  | none =>
      have same : start.steps (count + 1) = start.steps count := by
        rw [steps_add, steps_of_ended stepped]
      constructor <;> rw [same]
      · exact consistent
      · exact tracked.linked
      · exact ⟨exempt, tallied, fun reg isExempt => sooner (picked reg isExempt)⟩
      · exact fun reg member => sooner (tracked.stacked reg member)
      · exact tracked.easy
  | some next =>
      constructor <;> rw [steps_succ stepped]
      · exact (consistent.step stepped).1
      · exact tracked.linked.step consistent stepped
      · rcases tallied.step consistent stepped with kept | ⟨reg, picks, chosen, _, grown⟩
        · exact ⟨exempt, kept, fun reg isExempt => sooner (picked reg isExempt)⟩
        · refine ⟨_, grown, fun other isExempt => ?_⟩
          rcases isExempt with isExempt | rfl
          · exact sooner (picked other isExempt)
          · exact ⟨count, Nat.lt_succ_self count, picks, chosen⟩
      · intro reg member
        rcases consistent.stack_step stepped with same | ⟨first, least, longer⟩
        · exact sooner (tracked.stacked reg (same ▸ member))
        · rw [longer] at member
          rcases List.mem_cons.mp member with rfl | before
          · exact ⟨count, Nat.lt_succ_self count, least⟩
          · exact sooner (tracked.stacked reg before)
      · rcases consistent.step_effect stepped with
          ⟨reg, on, rests⟩ | ⟨move, u, v, _, invariant, fit, _, rests⟩ | rests
        · refine (tracked.easy.stacked fun never => ?_).rests rests
          refine (tallied.few_of_on_simplify tracked.linked consistent.invariant on ?_).2
          intro isExempt
          obtain ⟨earlier, _, picks⟩ := picked reg isExempt
          exact never earlier picks
        · have marked := tracked.easy.rests (.setMoveState _ move .coalesced)
          exact (marked.combine invariant fit).rests rests
        · exact tracked.easy.rests rests

theorem mem_stack (tracked : ∀ count, Tracked origin pool moves start count)
    (ready : start.StacksAt count reg) {later : Nat} (behind : count < later) :
    reg ∈ (start.steps later).stack := by
  obtain ⟨more, rfl⟩ := Nat.exists_eq_add_of_le behind
  rw [steps_add]
  refine (tracked (count + 1)).consistent.mem_stack_steps ?_ more
  rw [steps_succ ready.step?, stack_simplify]
  exact List.mem_cons_self

theorem not_picksAt (tracked : ∀ count, Tracked origin pool moves start count)
    (ready : start.StacksAt count reg) (unpicked : ∀ earlier < count, ¬ start.PicksAt earlier reg)
    (other : Nat) : ¬ start.PicksAt other reg := by
  rintro ⟨picks, chosen⟩
  rcases Nat.lt_trichotomy other count with before | rfl | behind
  · exact unpicked other before ⟨picks, chosen⟩
  · exact Std.TreeMap.not_mem_of_isEmpty picks.1 (mem_of_minKey? ready)
  · exact (tracked other).consistent.invariant.listed_not_stacked reg
      ⟨.spill, on_of_spillChoice? chosen⟩ (mem_stack tracked ready behind)

/-- The stack of a finished round holds the registers that were stacked on the way. -/
theorem mem_stack_run_iff (tracked : ∀ count, Tracked origin pool moves start count)
    (ended : start.run.step? = none) :
    reg ∈ start.run.stack ↔ ∃ count, start.StacksAt count reg := by
  constructor
  · intro stacked
    obtain ⟨count, _, ready⟩ := (tracked start.stepBound).stacked reg stacked
    exact ⟨count, ready⟩
  · rintro ⟨count, ready⟩
    refine mem_stack tracked ready (Nat.lt_of_not_le fun behind => ?_)
    obtain ⟨more, rfl⟩ := Nat.exists_eq_add_of_le behind
    have same : start.steps (start.stepBound + more) = start.run := by
      rw [steps_add]
      exact steps_of_ended ended more
    have stepped := ready.step?
    rw [same, ended] at stepped
    cases stepped

/-- A register that is stacked without having been picked gets a color of the pool. -/
theorem exists_color (tracked : ∀ count, Tracked origin pool moves start count)
    (ended : start.run.step? = none) (ready : start.StacksAt count reg)
    (unpicked : ∀ earlier < count, ¬ start.PicksAt earlier reg) :
    reg ∉ start.run.assignColors.spilled ∧
      ∃ color ∈ pool, start.run.assignColors.color? reg = some color := by
  have consistent : Consistent origin pool moves start.run := (tracked start.stepBound).consistent
  have invariant := consistent.invariant
  have stacked := (mem_stack_run_iff tracked ended).mpr ⟨count, ready⟩
  obtain ⟨later, earlier, split⟩ := List.append_of_mem stacked
  have few := (tracked start.stepBound).easy later reg earlier split
    (not_picksAt tracked ready unpicked)
  rw [color?_assignColors_of_not_merged (invariant.stacked_not_merged reg stacked),
    spilled_assignColors, ← consistent.pool]
  exact exists_color_of_few invariant split few

end Tracked

theorem tracked_start (undirected : graph.Undirected) (count : Nat) :
    Tracked (admitted graph moves) pool moves (Round.start pool graph moves) count := by
  have source : (admitted graph moves).Undirected := undirected_admitted undirected
  induction count with
  | zero =>
      refine ⟨.startOn source operands_mem_admitted, .startOn source,
        ⟨_, counted_iff.mp (.startOn source operands_mem_admitted), fun _ => False.elim⟩,
        fun reg member => ?_, fun later reg earlier split => ?_⟩
      · rw [steps, Round.start, stack_startOn] at member
        cases member
      · rw [steps, Round.start, stack_startOn] at split
        exact absurd split.symm (by simp)
  | succ count ih => exact ih.step

end Round

/-- Only spill candidates are spilled.  A round of any function stacks the registers that are on its
stack in the end.  One that is left without a color was picked as a spill candidate before it was stacked.
One that is stacked without having been picked has fewer neighbors left in the graph than there are
colors, and gets a color of the pool. -/
theorem Func.spilled_picked (f : Func) (liveness : Liveness f.blocks.length) (pool : List PhysReg)
    (moves : List MoveSite) :
    let start := Round.start pool (f.interference liveness) (Table.tabulate moves.get)
    let coloring := start.run.assignColors
    (∀ reg, reg ∈ start.run.stack ↔ ∃ count, start.StacksAt count reg) ∧
    (∀ reg ∈ coloring.spilled, ∃ count earlier, earlier < count ∧ start.PicksAt earlier reg ∧
      start.StacksAt count reg) ∧
    ∀ count reg, start.StacksAt count reg → (∀ earlier < count, ¬ start.PicksAt earlier reg) →
      ((start.steps count).adjacent reg).length < pool.length ∧
      ∃ color ∈ pool, coloring.color? reg = some color := by
  intro start coloring
  have undirected := undirected_interference liveness
  have tracked (count : Nat) : Round.Tracked
      (Round.admitted (f.interference liveness) (Table.tabulate moves.get)) pool
      (Table.tabulate moves.get) start count := Round.tracked_start undirected count
  have ended : start.run.step? = none :=
    ((tracked 0).consistent.steps (Round.weight_startOn_le pool _ _)).2
  have colored {count : Nat} {reg : Reg} (ready : start.StacksAt count reg)
      (unpicked : ∀ earlier < count, ¬ start.PicksAt earlier reg) :=
    Round.Tracked.exists_color tracked ended ready unpicked
  refine ⟨fun reg => Round.Tracked.mem_stack_run_iff tracked ended, ?_, ?_⟩
  · intro reg spilled
    have stacked : reg ∈ start.run.stack := by
      have listed := spilled
      rw [Round.spilled_assignColors] at listed
      exact (Round.mem_spilled_foldl_assign listed).resolve_left List.not_mem_nil
    obtain ⟨count, ready⟩ := (Round.Tracked.mem_stack_run_iff tracked ended).mp stacked
    by_contra unpicked
    refine (colored ready fun earlier before picks => ?_).1 spilled
    exact unpicked ⟨count, earlier, before, picks, ready⟩
  · intro count reg ready unpicked
    obtain ⟨exempt, tallied, picked⟩ := (tracked count).tallied
    have consistent := (tracked count).consistent
    have plain : ¬ exempt reg := by
      intro isExempt
      obtain ⟨earlier, before, picks⟩ := picked reg isExempt
      exact unpicked earlier before picks
    have few := (tallied.few_of_on_simplify (tracked count).linked consistent.invariant
      (Round.mem_of_minKey? ready) plain).1
    exact ⟨congrArg List.length consistent.pool ▸ few, (colored ready unpicked).2⟩

end Lowering.Machine
