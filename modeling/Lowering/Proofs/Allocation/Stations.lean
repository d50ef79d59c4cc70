import Lowering.Proofs.Allocation.Classes
import Lowering.Proofs.Allocation.Degrees

/-!
# Where registers wait

Between two steps of a round every node of the graph that is not physical is at one station: it waits
on one worklist, or it is stacked or merged.  The number beside a register that waits is the number of
its neighbors that are neither stacked nor merged.  Registers that wait with copies have few neighbors,
spill candidates have many, and only spill candidates that were picked may have many and still be ready
to be stacked.
-/

namespace Lowering.Machine

namespace Round

variable {m : Nat} {origin : InterferenceGraph} {pool : List PhysReg} {moves : Table m MoveSite}
  {round next : Round m} {exempt : Reg → Prop} {reg : Reg}

theorem Tallied.coalesce (tallied : Tallied exempt round)
    (consistent : Consistent origin pool moves round) {move : Fin m}
    (waits : round.moveStates.get move = .worklist) : Tallied exempt (round.coalesce move) := by
  have pending : round.isPending move = true := isPending_iff.mpr (.inl waits)
  have marked (state : MoveState) : Tallied exempt (round.setMoveState move state) :=
    tallied.of_moveStates _
  obtain ⟨u, v, _, presentU, presentV, _, outcome⟩ := consistent.coalesce_cases waits
  rcases outcome with ⟨_, outcome⟩ | outcome | ⟨fit, _, outcome⟩ | outcome
  · rw [outcome]
    exact (marked .coalesced).addWorklist presentU
  · rw [outcome]
    have readied : Rests (round.setMoveState move .constrained)
        ((round.setMoveState move .constrained).addWorklist u) := .addWorklist presentU
    exact ((marked .constrained).addWorklist presentU).addWorklist
      ((readied.isPresent v).trans presentV)
  · rw [outcome]
    have invariant := consistent.invariant.setMoveState pending .coalesced
    refine ((marked .coalesced).combine invariant (fit.setMoveState move .coalesced)).addWorklist ?_
    rw [isPresent_iff] at presentU ⊢
    exact presentU.imp_right fun listed => listed_combine.mpr ⟨fit.different, listed⟩
  · rw [outcome]
    exact marked .active

/-- A step keeps the tally; only a spill candidate that it picks becomes exempt. -/
theorem Tallied.step (tallied : Tallied exempt round)
    (consistent : Consistent origin pool moves round) (stepped : round.step? = some next) :
    Tallied exempt next ∨ ∃ reg, round.PicksSpill ∧ round.spillChoice? = some reg ∧
      next = round.freeze reg ∧ Tallied (fun other => exempt other ∨ other = reg) next := by
  have invariant := consistent.invariant
  rcases step?_cases stepped with
    ⟨reg, on, rfl⟩ | ⟨move, _, waits, rfl⟩ | ⟨reg, on, rfl⟩ | ⟨picks, reg, chosen, rfl⟩
  · exact .inl (tallied.simplify invariant on)
  · exact .inl (tallied.coalesce consistent waits)
  · exact .inl (tallied.freeze invariant.distinct on)
  · exact .inr ⟨reg, picks, chosen, rfl,
      tallied.pick invariant.distinct (on_of_spillChoice? chosen)⟩

section Start

variable {graph : InterferenceGraph}

/-- Registers are put on worklists with the number of their neighbors. -/
theorem getElem?_foldl_file (regs : List Reg) {round : Round m}
    (right : ∀ (list : Worklist) (reg : Reg) (degree : Nat),
      (round.worklist list)[reg]? = some degree → degree = (graph.neighbors reg).length) :
    ∀ (list : Worklist) (reg : Reg) (degree : Nat),
      ((regs.foldl (file pool graph moves) round).worklist list)[reg]? = some degree →
        degree = (graph.neighbors reg).length := by
  induction regs generalizing round with
  | nil => exact right
  | cons first rest ih =>
      refine ih fun list reg degree found => ?_
      unfold file at found
      rw [worklist_put] at found
      split at found
      · rw [Std.TreeMap.getElem?_insert] at found
        split at found
        · next same =>
            rw [← Reg.order_eq_iff.mp same]
            exact (Option.some.inj found).symm
        · exact right list reg degree found
      · exact right list reg degree found

theorem degree_startOn (listed : (startOn pool graph moves).Listed reg) :
    (startOn pool graph moves).degree reg = (graph.neighbors reg).length := by
  obtain ⟨list, found⟩ := exists_getElem?_eq_degree listed
  rw [startOn_eq] at found ⊢
  refine getElem?_foldl_file _ (fun list reg degree found => ?_) list reg _ found
  cases list <;> cases found

theorem Counted.startOn (undirected : graph.Undirected)
    (operands : ∀ move, (moves.get move).dest ∈ graph.nodes ∧ (moves.get move).src ∈ graph.nodes) :
    Counted (startOn pool graph moves) := by
  have consistent : Consistent graph pool moves (Round.startOn pool graph moves) :=
    .startOn undirected operands
  have present {reg other : Reg} (edge : graph.hasEdge reg other = true) :
      (Round.startOn pool graph moves).isPresent other = true := by
    rw [isPresent_iff, listed_startOn]
    cases kind : other.isPhysical with
    | true => exact .inl rfl
    | false => exact .inr ⟨Graph.mem_nodes_of_hasEdge (undirected.symm _ _ edge), rfl⟩
  refine ⟨fun reg listed => ?_, fun reg listed => ?_⟩
  · rw [degree_startOn listed, List.count_nil, Nat.add_zero]
    unfold adjacent
    rw [graph_startOn,
      List.filter_eq_self.mpr fun other member => present (Graph.mem_neighbors.mp member)]
  · have sameColors : (Round.startOn pool graph moves).k = pool.length := by
      unfold k
      rw [consistent.pool]
    unfold Sorted
    rw [on_startOn, and_iff_right (listed_startOn.mp listed), sameColors, degree_startOn listed]
    unfold firstList
    split
    · next many => exact iff_of_true rfl many
    · next few => exact iff_of_false (by split <;> exact nofun) few

end Start

/-- Where a register of the graph that is not physical can be. -/
inductive Station where
  | waits (list : Worklist)
  | stacked
  | merged

/-- The register is at the station. -/
def At (round : Round m) (reg : Reg) : Station → Prop
  | .waits list => round.On list reg
  | .stacked => reg ∈ round.stack
  | .merged => reg ∈ round.merged

theorem Invariant.existsUnique_station (invariant : Invariant origin round)
    (virtual : reg.isPhysical = false) (node : reg ∈ origin.nodes) :
    ∃! station, round.At reg station := by
  have notStacked {list : Worklist} (on : round.On list reg) : reg ∉ round.stack :=
    invariant.listed_not_stacked reg ⟨list, on⟩
  have notMerged {list : Worklist} (on : round.On list reg) : reg ∉ round.merged :=
    invariant.listed_not_merged reg ⟨list, on⟩
  rcases (invariant.own reg).mpr ⟨virtual, node⟩ with ⟨list, on⟩ | stacked | merged
  · refine ⟨.waits list, on, fun station isAt => ?_⟩
    cases station with
    | waits other => exact congrArg Station.waits (invariant.distinct reg other list isAt on)
    | stacked => exact absurd isAt (notStacked on)
    | merged => exact absurd isAt (notMerged on)
  · refine ⟨.stacked, stacked, fun station isAt => ?_⟩
    cases station with
    | waits other => exact absurd stacked (notStacked isAt)
    | stacked => rfl
    | merged => exact absurd isAt (invariant.stacked_not_merged reg stacked)
  · refine ⟨.merged, merged, fun station isAt => ?_⟩
    cases station with
    | waits other => exact absurd merged (notMerged isAt)
    | stacked => exact absurd merged (invariant.stacked_not_merged reg isAt)
    | merged => rfl

theorem Invariant.node_of_at (invariant : Invariant origin round) {station : Station}
    (isAt : round.At reg station) : reg.isPhysical = false ∧ reg ∈ origin.nodes := by
  refine (invariant.own reg).mp ?_
  cases station with
  | waits list => exact .inl ⟨list, isAt⟩
  | stacked => exact .inr (.inl isAt)
  | merged => exact .inr (.inr isAt)

/-- Neighbors are in the graph unless they are stacked or merged. -/
theorem Linked.isPresent_iff (linked : Linked origin round) (invariant : Invariant origin round)
    {other : Reg} (edge : round.graph.hasEdge reg other = true) :
    round.isPresent other = true ↔ other ∉ round.stack ∧ other ∉ round.merged := by
  refine ⟨fun present => ⟨invariant.not_stacked_of_present present,
    invariant.not_merged_of_present present⟩, fun ⟨notStacked, notMerged⟩ => ?_⟩
  rw [Round.isPresent_iff]
  cases kind : other.isPhysical with
  | true => exact .inl rfl
  | false =>
      have node := (linked.known reg other edge).resolve_left (by simp [kind])
      exact .inr (((invariant.own other).mpr ⟨kind, node⟩).resolve_right
        (not_or.mpr ⟨notStacked, notMerged⟩))

/-- The representative of a neighbor of a register that waits is left in the graph beside it, unless it is
stacked. -/
theorem Linked.mem_adjacent (linked : Linked origin round) (invariant : Invariant origin round)
    (listed : round.Listed reg) {neighbor : Reg} (edge : round.graph.hasEdge reg neighbor = true)
    (notStacked : round.representative neighbor ∉ round.stack) :
    round.representative neighbor ∈ round.adjacent reg := by
  have present := (linked.representative_cases invariant edge).resolve_right notStacked
  have waits : round.isPresent reg = true := Round.isPresent_iff.mpr (.inr listed)
  exact Round.mem_adjacent.mpr ⟨linked.forwarded reg neighbor edge waits present, present⟩

theorem exists_tallied_steps {graph : InterferenceGraph} (undirected : graph.Undirected)
    (fuel : Nat) : ∃ exempt, Tallied exempt ((Round.start pool graph moves).steps fuel) := by
  have source : (admitted graph moves).Undirected := undirected_admitted undirected
  refine (steps_induct (motive := fun round => Consistent (admitted graph moves) pool moves round ∧
    ∃ exempt, Tallied exempt round) ?_ ⟨.startOn source operands_mem_admitted, _,
      counted_iff.mp (.startOn source operands_mem_admitted)⟩ fuel).2
  rintro before next ⟨consistent, exempt, tallied⟩ stepped
  refine ⟨(consistent.step stepped).1, ?_⟩
  rcases tallied.step consistent stepped with kept | ⟨_, _, _, _, picked⟩
  · exact ⟨_, kept⟩
  · exact ⟨_, picked⟩

end Round

/-- The worklists of a round after any number of steps.  A node of the graph that is not physical
is at one station, and only such registers are.  A register that waits has the number of its neighbors
that are neither stacked nor merged beside it; it is less than the number of colors on the list to
freeze and not less on the list of spill candidates.  Registers that are stacked or ready to be stacked
have no pending copies.  Copies are listed by their states, and pending ones are recorded with the
representatives of both operands. -/
theorem Func.worklists_exact (f : Func) (liveness : Liveness f.blocks.length) (pool : List PhysReg)
    (moves : List MoveSite) (fuel : Nat) :
    let nodes := (Round.admitted (f.interference liveness) (Table.tabulate moves.get)).nodes
    let round := (Round.start pool (f.interference liveness) (Table.tabulate moves.get)).steps fuel
    (∀ reg ∈ nodes, reg.isPhysical = false → ∃! station, round.At reg station) ∧
    (∀ reg station, round.At reg station → reg.isPhysical = false ∧ reg ∈ nodes) ∧
    (∀ list reg, round.On list reg → round.degree reg = ((round.graph.neighbors reg).filter
      fun other => other ∉ round.stack ∧ other ∉ round.merged).length) ∧
    (∀ reg, round.On .freeze reg → round.degree reg < pool.length) ∧
    (∀ reg, round.On .spill reg → pool.length ≤ round.degree reg) ∧
    (∀ reg, round.On .simplify reg ∨ reg ∈ round.stack →
      ∀ move ∈ round.moveLists.getD reg [], round.isPending move = false) ∧
    (∀ move state, move ∈ round.movesIn state ↔ round.moveStates.get move = state) ∧
    ∀ move, round.isPending move = true →
      move ∈ round.moveLists.getD (round.representative (moves.get move).dest) [] ∧
      move ∈ round.moveLists.getD (round.representative (moves.get move).src) [] := by
  intro nodes round
  obtain ⟨consistent, linked⟩ :
      Round.Consistent (Round.admitted (f.interference liveness) (Table.tabulate moves.get)) pool
        (Table.tabulate moves.get) round ∧
      Round.Linked (Round.admitted (f.interference liveness) (Table.tabulate moves.get)) round :=
    Round.linked_steps (undirected_interference liveness) fuel
  obtain ⟨exempt, tallied⟩ : ∃ exempt, Round.Tallied exempt round :=
    Round.exists_tallied_steps (undirected_interference liveness) fuel
  have invariant := consistent.invariant
  have sameColors : round.k = pool.length := congrArg List.length consistent.pool
  refine ⟨fun reg node virtual => invariant.existsUnique_station virtual node,
    fun reg station => invariant.node_of_at, fun list reg on => ?_, fun reg on => ?_,
    fun reg on => ?_, fun reg calm move recorded => ?_, fun move state => Round.mem_movesIn,
    fun move pending => ?_⟩
  · rw [← tallied.length_adjacent ⟨list, on⟩]
    unfold Round.adjacent
    refine congrArg List.length (List.filter_congr fun other member => ?_)
    rw [Bool.eq_iff_iff, decide_eq_true_iff]
    exact linked.isPresent_iff invariant (Graph.mem_neighbors.mp member)
  · rw [← sameColors]
    exact tallied.degree_lt on invariant.distinct nofun
      (tallied.not_exempt on invariant.distinct nofun)
  · rw [← sameColors]
    exact tallied.le_degree on invariant.distinct
  · rw [Bool.eq_false_iff]
    intro pending
    have related := Round.isMoveRelated_iff.mpr ⟨move, recorded, pending⟩
    rw [invariant.idle reg calm] at related
    cases related
  · have recorded := invariant.recorded move pending
    rwa [consistent.moves, Table.get_tabulate] at recorded

end Lowering.Machine
