import Lowering.Proofs.Allocation.Merging

/-!
# The invariant of a round

Every register of the graph that is not physical is on a worklist, stacked or merged.  Interfering
registers have different representatives, and the graph knows: representatives that are both in
the graph are joined, and a stacked one is joined with something that the other one represents,
unless the other one was stacked before it.  Pending copies are recorded with the representatives
of both operands, and registers that are stacked or ready to be stacked have none.
-/

namespace Lowering.Machine.Round

variable {m : Nat} {origin : InterferenceGraph}

/-- What holds between two steps of a round of the graph `origin`. -/
structure Invariant (origin : InterferenceGraph) (round : Round m) : Prop where
  source : origin.Undirected
  undirected : round.graph.Undirected
  distinct : round.Distinct
  rooted : round.Rooted
  own : ∀ reg, round.Listed reg ∨ reg ∈ round.stack ∨ reg ∈ round.merged ↔
    reg.isPhysical = false ∧ reg ∈ origin.nodes
  listed_not_stacked : ∀ reg, round.Listed reg → reg ∉ round.stack
  listed_not_merged : ∀ reg, round.Listed reg → reg ∉ round.merged
  stacked_not_merged : ∀ reg ∈ round.stack, reg ∉ round.merged
  stack_nodup : round.stack.Nodup
  /-- Registers are merged into registers of the pool or into ones that are not physical. -/
  target : ∀ reg into : Reg, round.merged[reg]? = some into →
    round.isInPool into = true ∨ into.isPhysical = false ∧ into ∈ origin.nodes
  separate : ∀ a b, origin.hasEdge a b = true → round.representative a ≠ round.representative b
  joined : ∀ a b, origin.hasEdge a b = true →
    round.isPresent (round.representative a) = true →
    round.isPresent (round.representative b) = true →
    round.graph.hasEdge (round.representative a) (round.representative b) = true
  /-- A stacked register is joined with what is still to be stacked or was stacked after it. -/
  seen : ∀ a b, origin.hasEdge a b = true → ∀ later earlier,
    round.stack = later ++ round.representative a :: earlier →
    round.representative b ∉ earlier →
    ∃ neighbor, round.graph.hasEdge (round.representative a) neighbor = true ∧
      round.representative neighbor = round.representative b
  operands : ∀ move, (round.moves.get move).dest ∈ origin.nodes ∧
    (round.moves.get move).src ∈ origin.nodes
  recorded : ∀ move, round.isPending move = true →
    move ∈ round.moveLists.getD (round.representative (round.moves.get move).dest) [] ∧
      move ∈ round.moveLists.getD (round.representative (round.moves.get move).src) []
  idle : ∀ reg, round.On .simplify reg ∨ reg ∈ round.stack → round.isMoveRelated reg = false

namespace Invariant

variable {round after : Round m}

variable (invariant : Invariant origin round) {reg : Reg}
include invariant

theorem listed_not_physical (listed : round.Listed reg) : reg.isPhysical = false :=
  ((invariant.own reg).mp (.inl listed)).1

theorem stacked_not_physical (stacked : reg ∈ round.stack) : reg.isPhysical = false :=
  ((invariant.own reg).mp (.inr (.inl stacked))).1

theorem not_merged_of_present (present : round.isPresent reg = true) : reg ∉ round.merged := by
  rcases isPresent_iff.mp present with physical | listed
  · intro merged
    have virtual := ((invariant.own reg).mp (.inr (.inr merged))).1
    rw [physical] at virtual
    cases virtual
  · exact invariant.listed_not_merged reg listed

theorem not_stacked_of_present (present : round.isPresent reg = true) : reg ∉ round.stack := by
  rcases isPresent_iff.mp present with physical | listed
  · intro stacked
    have virtual := invariant.stacked_not_physical stacked
    rw [physical] at virtual
    cases virtual
  · exact invariant.listed_not_stacked reg listed

/-- The representative of a register of the graph is in the graph or stacked. -/
theorem representative_cases (node : reg ∈ origin.nodes) :
    round.isPresent (round.representative reg) = true ∨
      round.representative reg ∈ round.stack := by
  have known : (round.representative reg).isPhysical = true ∨
      round.representative reg ∈ origin.nodes := by
    unfold representative
    refine follow_induct (motive := fun reg => reg.isPhysical = true ∨ reg ∈ origin.nodes)
      ?_ _ (.inr node)
    intro reg into found
    rcases invariant.target reg into found with pooled | ⟨_, node⟩
    · left
      cases into <;> simp_all [isInPool, Reg.isPhysical]
    · exact .inr node
  cases kind : (round.representative reg).isPhysical with
  | true => exact .inl (isPresent_iff.mpr (.inl kind))
  | false =>
      rw [kind] at known
      have inGraph := known.resolve_left (by decide)
      rcases (invariant.own _).mpr ⟨kind, inGraph⟩ with listed | stacked | merged
      · exact .inl (isPresent_iff.mpr (.inr listed))
      · exact .inr stacked
      · exact absurd merged (invariant.rooted reg)

/-- A physical register with another member in its class is one of the pool. -/
theorem mem_pool_of_representative {phys : PhysReg}
    (member : round.representative reg = .physical phys)
    (other : reg ≠ .physical phys) : phys ∈ round.pool := by
  have reached : round.representative reg = reg ∨
      (round.representative reg).isPhysical = false ∨
        round.isInPool (round.representative reg) = true := by
    unfold representative
    refine follow_induct (motive := fun into => into = reg ∨ into.isPhysical = false ∨
      round.isInPool into = true) (fun from' into found => .inr ?_) _ (.inl rfl)
    exact (invariant.target from' into found).symm.imp_left And.left
  rw [member] at reached
  simpa [isInPool, Reg.isPhysical, Ne.symm other] using reached

/-- The operands of a pending copy are in the graph, and not ready to be stacked. -/
theorem present_of_recorded {move : Fin m} (pending : round.isPending move = true)
    (node : reg ∈ origin.nodes)
    (recorded : move ∈ round.moveLists.getD (round.representative reg) []) :
    round.isPresent (round.representative reg) = true ∧
      ¬ round.On .simplify (round.representative reg) := by
  have related : round.isMoveRelated (round.representative reg) = true :=
    isMoveRelated_iff.mpr ⟨move, recorded, pending⟩
  have busy : ¬ (round.On .simplify (round.representative reg) ∨
      round.representative reg ∈ round.stack) := by
    intro calm
    rw [invariant.idle _ calm] at related
    cases related
  refine ⟨?_, fun on => busy (.inl on)⟩
  exact (invariant.representative_cases node).resolve_right fun stacked => busy (.inr stacked)

theorem shuffle (shuffles : Shuffles round after)
    (sameGraph : after.graph = round.graph) : Invariant origin after where
  source := invariant.source
  undirected := sameGraph ▸ invariant.undirected
  distinct := shuffles.distinct invariant.distinct
  rooted reg := by
    rw [representative_congr shuffles.merged, shuffles.merged]
    exact invariant.rooted reg
  own reg := by
    rw [shuffles.listed, shuffles.stack, shuffles.merged]
    exact invariant.own reg
  listed_not_stacked reg listed := by
    rw [shuffles.stack]
    exact invariant.listed_not_stacked reg ((shuffles.listed reg).mp listed)
  listed_not_merged reg listed := by
    rw [shuffles.merged]
    exact invariant.listed_not_merged reg ((shuffles.listed reg).mp listed)
  stacked_not_merged := by
    rw [shuffles.merged, shuffles.stack]
    exact invariant.stacked_not_merged
  stack_nodup := shuffles.stack ▸ invariant.stack_nodup
  target := by
    have samePool : after.isInPool = round.isInPool := by
      funext reg
      cases reg <;> simp only [isInPool, shuffles.pool]
    rw [shuffles.merged, samePool]
    exact invariant.target
  separate := by
    rw [representative_congr shuffles.merged]
    exact invariant.separate
  joined := by
    rw [representative_congr shuffles.merged, sameGraph]
    simp only [shuffles.isPresent]
    exact invariant.joined
  seen := by
    rw [representative_congr shuffles.merged, sameGraph, shuffles.stack]
    exact invariant.seen
  operands := shuffles.moves ▸ invariant.operands
  recorded move pending := by
    rw [representative_congr shuffles.merged, shuffles.moves, shuffles.moveLists]
    exact invariant.recorded move (shuffles.isPending pending)
  idle reg calm := by
    rcases calm with on | stacked
    · rcases shuffles.ready reg on with onBefore | idle
      · exact shuffles.isMoveRelated (invariant.idle reg (.inl onBefore))
      · exact idle
    · rw [shuffles.stack] at stacked
      exact shuffles.isMoveRelated (invariant.idle reg (.inr stacked))

omit invariant in
theorem representative_setMoveState (move : Fin m) (state : MoveState) :
    (round.setMoveState move state).representative = round.representative :=
  representative_congr rfl

theorem setMoveState {move : Fin m} (pending : round.isPending move = true) (state : MoveState) :
    Invariant origin (round.setMoveState move state) := by
  have wasPending (other : Fin m) (still : (round.setMoveState move state).isPending other = true) :
      round.isPending other = true := by
    by_cases same : move = other
    · exact same ▸ pending
    · rw [isPending_iff] at still ⊢
      change (round.moveStates.set move state).get other = _ ∨
        (round.moveStates.set move state).get other = _ at still
      rwa [Table.get_set_ne _ _ same] at still
  have same : (round.setMoveState move state).representative = round.representative :=
    representative_setMoveState move state
  exact
    { source := invariant.source
      undirected := invariant.undirected
      distinct := fun reg first second onFirst onSecond =>
        invariant.distinct reg first second (on_setMoveState.mp onFirst)
          (on_setMoveState.mp onSecond)
      rooted := fun reg => same ▸ invariant.rooted reg
      own := invariant.own
      listed_not_stacked := invariant.listed_not_stacked
      listed_not_merged := invariant.listed_not_merged
      stacked_not_merged := invariant.stacked_not_merged
      stack_nodup := invariant.stack_nodup
      target := invariant.target
      separate := same ▸ invariant.separate
      joined := same ▸ invariant.joined
      seen := same ▸ invariant.seen
      operands := invariant.operands
      recorded := fun other still => same ▸ invariant.recorded other (wasPending other still)
      idle := fun reg calm => by
        have before := invariant.idle reg calm
        rw [Bool.eq_false_iff] at before ⊢
        intro related
        obtain ⟨other, recorded, still⟩ := isMoveRelated_iff.mp related
        exact before (isMoveRelated_iff.mpr ⟨other, recorded, wasPending other still⟩) }

end Invariant

end Lowering.Machine.Round
