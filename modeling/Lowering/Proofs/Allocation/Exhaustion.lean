import Lowering.Proofs.Allocation.Run
import Mathlib.Logic.Relation

/-!
# Rounds end

A round may stack, consider, give up and pick whatever its worklists offer, in any order: every such
step keeps it consistent and makes it lighter.  So no sequence of steps goes on for ever, and where no
step is left all worklists are empty and every register is physical, stacked or merged.
-/

namespace Lowering.Machine.Round

variable {m : Nat} {origin : InterferenceGraph} {pool : List PhysReg} {moves : Table m MoveSite}
  {round next : Round m}

theorem Consistent.reach (consistent : Consistent origin pool moves round)
    (reaches : Relation.ReflTransGen Advances round next) : Consistent origin pool moves next := by
  induction reaches with
  | refl => exact consistent
  | tail _ advances ih => exact (ih.advance advances).1

/-- A sequence of steps is no longer than the round is heavy. -/
theorem Consistent.weight_trace {trace : Nat → Round m}
    (consistent : Consistent origin pool moves (trace 0)) (n : Nat)
    (advances : ∀ i < n, (trace i).Advances (trace (i + 1))) :
    Consistent origin pool moves (trace n) ∧ (trace n).weight + n ≤ (trace 0).weight := by
  induction n with
  | zero => exact ⟨consistent, Nat.le_refl _⟩
  | succ n ih =>
      obtain ⟨kept, bounded⟩ := ih fun i before => advances i (by omega)
      obtain ⟨keptNext, lighter⟩ := kept.advance (advances n (Nat.lt_succ_self n))
      exact ⟨keptNext, by omega⟩

/-- Nothing is left on the worklists, and every register of the nodes that is not physical is stacked or
merged. -/
structure Exhausted (nodes : List Reg) (round : Round m) : Prop where
  lists : ∀ list, (round.worklist list).isEmpty = true
  copies : round.movesIn .worklist = []
  settled : ∀ reg ∈ nodes, reg.isPhysical = false → reg ∈ round.stack ∨ reg ∈ round.merged

theorem Consistent.exhausted (consistent : Consistent origin pool moves round)
    (stuck : ∀ next, ¬ round.Advances next) : round.Exhausted origin.nodes := by
  have unlisted (reg : Reg) (list : Worklist) : ¬ round.On list reg := by
    intro on
    cases list with
    | simplify => exact stuck _ (.simplify on)
    | freeze => exact stuck _ (.freeze on)
    | spill => exact stuck _ (.selectSpill on)
  refine ⟨fun list => ?_, ?_, fun reg node virtual => ?_⟩
  · rw [Std.TreeMap.isEmpty_iff_forall_not_mem]
    exact fun reg => unlisted reg list
  · rw [List.eq_nil_iff_forall_not_mem]
    exact fun move waits => stuck _ (.coalesce (mem_movesIn.mp waits))
  · refine ((consistent.invariant.own reg).mpr ⟨virtual, node⟩).resolve_left ?_
    exact fun ⟨list, on⟩ => unlisted reg list on

theorem movesIn_worklist_of_step? (ended : round.step? = none) : round.movesIn .worklist = [] := by
  unfold step? at ended
  split at ended
  · cases ended
  · split at ended
    · cases ended
    · assumption

theorem not_advances_of_step? (ended : round.step? = none) (next : Round m) :
    ¬ round.Advances next := by
  have unlisted := not_listed_of_step? ended
  intro advances
  cases advances with
  | simplify on => exact unlisted _ ⟨_, on⟩
  | freeze on => exact unlisted _ ⟨_, on⟩
  | selectSpill on => exact unlisted _ ⟨_, on⟩
  | coalesce waits =>
      have listed := mem_movesIn.mpr waits
      rw [movesIn_worklist_of_step? ended] at listed
      cases listed

theorem reaches_steps (round : Round m) (fuel : Nat) :
    Relation.ReflTransGen (fun before next => before.step? = some next) round (round.steps fuel) := by
  induction fuel generalizing round with
  | zero => exact .refl
  | succ fuel ih =>
      unfold steps
      split
      · next next stepped => exact .head stepped (ih next)
      · exact .refl

/-- A round ends.  Whatever it stacks, considers, gives up or picks next, a sequence of steps from its
start breaks off within the step bound, and where no step is left all worklists are empty and every node
that is not physical is stacked or merged.  The loop that takes the preferred step over and over comes
to such an end, which is what a run gives. -/
theorem run_exhausted (pool : List PhysReg) (graph : InterferenceGraph)
    (undirected : graph.Undirected) (moves : Table m MoveSite) :
    let nodes := (admitted graph moves).nodes
    let start := Round.start pool graph moves
    (∀ trace : Nat → Round m, trace 0 = start →
      ∃ n ≤ start.stepBound, ¬ (trace n).Advances (trace (n + 1))) ∧
    (∀ last, Relation.ReflTransGen Advances start last → (∀ next, ¬ last.Advances next) →
      last.Exhausted nodes) ∧
    Relation.ReflTransGen (fun round next => round.step? = some next) start start.run ∧
    start.run.step? = none ∧ Relation.ReflTransGen Advances start start.run ∧
    start.run.Exhausted nodes := by
  intro nodes start
  have consistent : Consistent (admitted graph moves) pool moves start :=
    .startOn (undirected_admitted undirected) operands_mem_admitted
  have light : start.weight ≤ start.stepBound := weight_startOn_le pool _ moves
  have looped := reaches_steps start start.stepBound
  have reached : Relation.ReflTransGen Advances start start.run :=
    Relation.ReflTransGen.mono (fun _ _ => advances_of_step?) _ _ looped
  have ended : start.run.step? = none := (consistent.steps light).2
  refine ⟨fun trace isStart => ?_, fun last reaches => (consistent.reach reaches).exhausted,
    looped, ended, reached, (consistent.reach reached).exhausted (not_advances_of_step? ended)⟩
  by_contra endless
  have advances : ∀ i < start.stepBound + 1, (trace i).Advances (trace (i + 1)) := by
    intro i before
    by_contra broken
    exact endless ⟨i, Nat.le_of_lt_succ before, broken⟩
  obtain ⟨_, bounded⟩ := (isStart ▸ consistent).weight_trace _ advances
  rw [isStart] at bounded
  omega

/-- Three registers that all interfere. -/
def triangle : InterferenceGraph :=
  ((Graph.empty.addEdge (.virtual 0) (.virtual 1)).addEdge (.virtual 1) (.virtual 2)).addEdge
    (.virtual 0) (.virtual 2)

/-- A copy between two of the registers, and one to a register that interferes with nothing. -/
def crossing : Table 2 MoveSite :=
  .tabulate [⟨0, 0, .virtual 0, .virtual 1⟩, ⟨0, 1, .virtual 3, .virtual 2⟩].get

theorem run_exhausted_triangle :
    triangle.Undirected ∧
    (∀ trace : Nat → Round 2, trace 0 = start [.ra, .sp] triangle crossing →
      ∃ n ≤ 45, ¬ (trace n).Advances (trace (n + 1))) ∧
    (start [.ra, .sp] triangle crossing).run.step? = none ∧
    (start [.ra, .sp] triangle crossing).run.Exhausted
      [.virtual 0, .virtual 1, .virtual 2, .virtual 3] := by
  have undirected : triangle.Undirected :=
    ((Graph.Undirected.empty.addEdge _ _).addEdge _ _).addEdge _ _
  have nodes : (admitted triangle crossing).nodes =
      [.virtual 0, .virtual 1, .virtual 2, .virtual 3] := by decide
  obtain ⟨breaks, _, _, ended, _, exhausted⟩ :=
    run_exhausted [.ra, .sp] triangle undirected crossing
  exact ⟨undirected, breaks, ended, nodes ▸ exhausted⟩

end Lowering.Machine.Round
