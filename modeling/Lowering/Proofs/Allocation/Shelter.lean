import Lowering.Proofs.Allocation.Conservative

/-!
# Registers that are never spilled

The registers of spill code live for one instruction.  Whatever else lives beside such a register lives
together, so another register beside it has at least as many neighbors and is the better spill
candidate.  When a register of spill code is picked in spite of that, only its like and physical
registers are left beside it, and for those the pool has room.
-/

namespace Lowering.Machine

/-- A graph in which some registers are sheltered: they have few neighbors of their own kind and in the
pool, their other neighbors are joined with all of their neighbors, and the other registers come before
them. -/
structure InterferenceGraph.Shelters (graph : InterferenceGraph) (pool : List PhysReg)
    (temp : Reg → Prop) : Prop where
  virtual : ∀ reg, temp reg → reg.isPhysical = false
  room : ∀ reg, temp reg → Few pool.length fun other =>
    graph.hasEdge reg other = true ∧ (temp other ∨ ∃ phys ∈ pool, other = .physical phys)
  shared : ∀ reg, temp reg → ∀ a b, graph.hasEdge reg a = true → graph.hasEdge reg b = true →
    a ≠ b → a.isPhysical = false → ¬ temp a → graph.hasEdge a b = true
  later : ∀ reg, temp reg → ∀ other ∈ graph.nodes, other.isPhysical = false → ¬ temp other →
    Reg.order other reg = .lt

namespace Round

variable {m : Nat} {origin : InterferenceGraph} {pool : List PhysReg} {moves : Table m MoveSite}
  {round after next : Round m} {temp exempt : Reg → Prop} {reg u v : Reg}

/-- What holds of sheltered registers between the steps of a round. -/
structure Spared (origin : InterferenceGraph) (temp : Reg → Prop) (round : Round m) : Prop where
  whole : ∀ reg, temp reg → reg ∉ round.merged
  alone : ∀ reg, temp reg → ∀ other, round.representative other = reg → other = reg
  /-- While it has many neighbors, no further physical register comes beside a sheltered one. -/
  steady : ∀ reg, temp reg → round.Listed reg → round.k ≤ (round.adjacent reg).length →
    ∀ phys, round.graph.hasEdge reg (.physical phys) = true →
      origin.hasEdge reg (.physical phys) = true
  easy : ∀ later reg earlier, round.stack = later ++ reg :: earlier → temp reg →
    Few round.k fun other => ∃ neighbor, round.graph.hasEdge reg neighbor = true ∧
      round.representative neighbor = other ∧ other ∉ earlier ∧ round.Paints other

/-- Only sheltered registers wait beside the sheltered registers among some. -/
def Bare (temp exempt : Reg → Prop) (round : Round m) : Prop :=
  ∀ reg, temp reg → exempt reg → round.Listed reg → ∀ other,
    round.graph.hasEdge reg other = true → round.Listed other → temp other

/-! ## Steps that leave the graph alone -/

theorem Rests.adjacent (rests : Rests round after) (reg : Reg) :
    after.adjacent reg = round.adjacent reg := by
  unfold Round.adjacent
  rw [rests.graph]
  exact List.filter_congr fun other _ => rests.isPresent other

theorem Spared.rests (spared : Spared origin temp round) (rests : Rests round after) :
    Spared origin temp after := by
  have sameColors : after.k = round.k := congrArg List.length rests.pool
  constructor
  · rw [rests.merged]
    exact spared.whole
  · rw [rests.representative]
    exact spared.alone
  · intro reg isTemp listed many
    rw [sameColors, rests.adjacent] at many
    rw [rests.graph]
    exact spared.steady reg isTemp ((rests.listed reg).mp listed) many
  · exact Easy.rests spared.easy rests

theorem Bare.rests (bare : Bare temp exempt round) (rests : Rests round after) :
    Bare temp exempt after := by
  intro reg isTemp isExempt listed other edge listedOther
  rw [rests.graph] at edge
  exact bare reg isTemp isExempt ((rests.listed reg).mp listed) other edge
    ((rests.listed other).mp listedOther)

/-! ## Stacking -/

theorem Bare.stacked (bare : Bare temp exempt round) (reg : Reg) :
    Bare temp exempt (round.stacked reg) :=
  fun first isTemp isExempt listed other edge listedOther =>
    bare first isTemp isExempt (listed_stacked.mp listed).2 other edge (listed_stacked.mp listedOther).2

/-- The neighbors of an own class that are in the graph were neighbors from the start. -/
theorem Spared.hasEdge_origin (spared : Spared origin temp round) (linked : Linked origin round)
    (isTemp : temp reg) {other : Reg} (edge : round.graph.hasEdge reg other = true)
    (root : other ∉ round.merged) :
    ∃ member, origin.hasEdge reg member = true ∧ round.representative member = other := by
  obtain ⟨x, y, joined, sameX, sameY⟩ := linked.traced reg other edge
  rw [representative_of_not_merged (spared.whole reg isTemp)] at sameX
  rw [representative_of_not_merged root] at sameY
  have isReg := spared.alone reg isTemp x sameX
  exact ⟨y, isReg ▸ joined, sameY⟩

/-- A sheltered register is stacked with few neighbors that can take a color away. -/
theorem Spared.few_of_on_simplify (spared : Spared origin temp round) (linked : Linked origin round)
    (shelters : origin.Shelters round.pool temp) (invariant : Invariant origin round)
    (tallied : Tallied exempt round) (bare : Bare temp exempt round) (isTemp : temp reg)
    (on : round.On .simplify reg) :
    Few round.k fun other => ∃ neighbor, round.graph.hasEdge reg neighbor = true ∧
      round.representative neighbor = other ∧ other ∉ round.stack ∧ round.Paints other := by
  have listed : round.Listed reg := ⟨.simplify, on⟩
  have adjacent (other : Reg) (holds : ∃ neighbor, round.graph.hasEdge reg neighbor = true ∧
      round.representative neighbor = other ∧ other ∉ round.stack ∧ round.Paints other) :
      other ∈ round.adjacent reg := by
    obtain ⟨neighbor, edge, rfl, notStacked, _⟩ := holds
    exact linked.mem_adjacent invariant listed edge notStacked
  by_cases few : (round.adjacent reg).length < round.k
  · exact ⟨round.adjacent reg, few, adjacent⟩
  have many : round.k ≤ (round.adjacent reg).length := Nat.not_lt.mp few
  -- with many neighbors it was picked, so only its like and physical registers are left beside it
  have isExempt : exempt reg := by
    by_contra notExempt
    have low := tallied.degree_lt on invariant.distinct nofun notExempt
    rw [← tallied.length_adjacent listed] at low
    omega
  refine (shelters.room reg isTemp).mono fun other holds => ?_
  obtain ⟨edge, presentOther⟩ := mem_adjacent.mp (adjacent other holds)
  obtain ⟨_, _, _, _, paints⟩ := holds
  cases kind : other.isPhysical with
  | true =>
      obtain ⟨phys, rfl, _⟩ := @Coloring.color?_of_physical ⟨∅, []⟩ _ kind
      exact ⟨spared.steady reg isTemp listed many phys edge, .inr ⟨phys, paints phys rfl, rfl⟩⟩
  | false =>
      have listedOther : round.Listed other :=
        (isPresent_iff.mp presentOther).resolve_left (by simp [kind])
      have isTempOther := bare reg isTemp isExempt listed other edge listedOther
      obtain ⟨member, joined, same⟩ :=
        spared.hasEdge_origin linked isTemp edge (spared.whole other isTempOther)
      have isOther := spared.alone other isTempOther member same
      exact ⟨isOther ▸ joined, .inl isTempOther⟩

theorem Spared.stacked (spared : Spared origin temp round) (linked : Linked origin round)
    (shelters : origin.Shelters round.pool temp) (invariant : Invariant origin round)
    (tallied : Tallied exempt round) (bare : Bare temp exempt round) (on : round.On .simplify reg) :
    Spared origin temp (round.stacked reg) where
  whole := spared.whole
  alone := by
    rw [representative_stacked]
    exact spared.alone
  steady other isTemp listed many phys edge := by
    refine spared.steady other isTemp (listed_stacked.mp listed).2 (many.trans ?_) phys edge
    refine (adjacent_nodup _ _).length_le_of_subset fun neighbor member => ?_
    obtain ⟨joined, present⟩ := mem_adjacent.mp member
    exact mem_adjacent.mpr ⟨joined, isPresent_of_stacked present⟩
  easy := Easy.stacked spared.easy fun isTemp =>
    spared.few_of_on_simplify linked shelters invariant tallied bare isTemp on

/-! ## Merging -/

theorem Bare.combine (bare : Bare temp exempt round) (invariant : Invariant origin round)
    (fit : round.Fit u v) (freeU : ¬ temp u) (freeV : ¬ temp v) :
    Bare temp exempt (round.combine u v) := by
  intro reg isTemp isExempt listed other edge listedOther
  have wasListed := (listed_combine.mp listed).2
  rcases (hasEdge_combine invariant.undirected).mp edge with
    ⟨t, toV, _, _, ⟨rfl, rfl⟩ | ⟨rfl, rfl⟩⟩ | old
  · exact absurd (bare reg isTemp isExempt wasListed v (invariant.undirected.symm _ _ toV) fit.listed)
      freeV
  · exact absurd isTemp freeU
  · exact bare reg isTemp isExempt wasListed other old (listed_combine.mp listedOther).2

/-- A register that is not merged into gets no more neighbors by a merge. -/
theorem length_adjacent_combine_le (invariant : Invariant origin round) (fit : round.Fit u v)
    (other : reg ≠ u) :
    ((round.combine u v).adjacent reg).length ≤ (round.adjacent reg).length := by
  have within : (round.combine u v).adjacent reg ⊆
      (round.adjacent reg).map fun neighbor => if neighbor = v then u else neighbor := by
    intro neighbor member
    obtain ⟨edge, present⟩ := mem_adjacent.mp member
    rw [List.mem_map]
    rcases (hasEdge_combine invariant.undirected).mp edge with
      ⟨t, toV, _, _, ⟨rfl, rfl⟩ | ⟨rfl, rfl⟩⟩ | old
    · exact ⟨v, mem_adjacent.mpr ⟨invariant.undirected.symm _ _ toV,
        isPresent_iff.mpr (.inr fit.listed)⟩, if_pos rfl⟩
    · exact absurd rfl other
    · have notV : neighbor ≠ v := by
        rintro rfl
        rcases isPresent_iff.mp present with physical | listed
        · rw [invariant.listed_not_physical fit.listed] at physical
          cases physical
        · exact (listed_combine.mp listed).1 rfl
      exact ⟨neighbor, mem_adjacent.mpr ⟨old, isPresent_of_combine present⟩, if_neg notV⟩
  have short := (adjacent_nodup _ reg).length_le_of_subset within
  rwa [List.length_map] at short

/-- A physical register that a merge brings beside a register with many neighbors was there before. -/
theorem hasEdge_of_isMergeable (tallied : Tallied exempt round) (listed : round.Listed reg)
    (virtual : reg.isPhysical = false) (many : round.k ≤ (round.adjacent reg).length)
    (physical : u.isPhysical = true) (safe : round.isMergeable u v = true)
    (edge : round.graph.hasEdge v reg = true) : round.graph.hasEdge reg u = true := by
  unfold isMergeable at safe
  rw [if_pos physical, List.all_eq_true] at safe
  have harmless := safe reg (mem_adjacent.mpr ⟨edge, isPresent_iff.mpr (.inr listed)⟩)
  rw [tallied.length_adjacent listed] at many
  unfold isHarmless isSignificant at harmless
  simpa [virtual, many] using harmless

theorem Spared.combine (spared : Spared origin temp round) (tallied : Tallied exempt round)
    (shelters : origin.Shelters pool temp) (invariant : Invariant origin round)
    (fit : round.Fit u v) (safe : round.isMergeable u v = true) (freeU : ¬ temp u)
    (freeV : ¬ temp v) : Spared origin temp (round.combine u v) := by
  have sameColors : (round.combine u v).k = round.k := (Shuffles.combine round u v).k
  constructor
  · intro reg isTemp merged
    rcases Invariant.mem_merged_combine.mp merged with rfl | before
    · exact freeV isTemp
    · exact spared.whole reg isTemp before
  · intro reg isTemp other same
    rw [invariant.representative_combine fit] at same
    split at same
    · exact absurd (same ▸ isTemp) freeU
    · exact spared.alone reg isTemp other same
  · intro reg isTemp listed many phys edge
    have notU : reg ≠ u := fun same => freeU (same ▸ isTemp)
    have wasListed := (listed_combine.mp listed).2
    rw [sameColors] at many
    have wereMany := many.trans (length_adjacent_combine_le invariant fit notU)
    refine spared.steady reg isTemp wasListed wereMany phys ?_
    rcases (hasEdge_combine invariant.undirected).mp edge with
      ⟨t, toV, _, _, ⟨rfl, rfl⟩ | ⟨isU, _⟩⟩ | old
    · exact hasEdge_of_isMergeable tallied wasListed (shelters.virtual reg isTemp) wereMany rfl safe
        toV
    · exact absurd isU notU
    · exact old
  · exact Easy.combine spared.easy invariant fit

/-! ## Picking -/

/-- Another register beside a sheltered one has at least as many neighbors. -/
theorem Spared.length_adjacent_le (spared : Spared origin temp round) (linked : Linked origin round)
    (shelters : origin.Shelters pool temp) (invariant : Invariant origin round) (isTemp : temp reg)
    (listed : round.Listed reg) {other : Reg} (listedOther : round.Listed other)
    (free : ¬ temp other) (edge : round.graph.hasEdge reg other = true) :
    (round.adjacent reg).length ≤ (round.adjacent other).length := by
  have presentOther : round.isPresent other = true := isPresent_iff.mpr (.inr listedOther)
  obtain ⟨member, joined, same⟩ := spared.hasEdge_origin linked isTemp edge
    (invariant.listed_not_merged other listedOther)
  have virtual : member.isPhysical = false := by
    rw [Bool.eq_false_iff]
    intro physical
    rw [invariant.representative_physical physical] at same
    rw [same, invariant.listed_not_physical listedOther] at physical
    cases physical
  have notTemp : ¬ temp member := by
    intro isTempMember
    rw [representative_of_not_merged (spared.whole member isTempMember)] at same
    exact free (same ▸ isTempMember)
  -- exchanging the two registers sends the neighbors of the first to neighbors of the second
  have within : round.adjacent reg ⊆
      (round.adjacent other).map fun neighbor => if neighbor = reg then other else neighbor := by
    intro neighbor isNeighbor
    obtain ⟨toNeighbor, present⟩ := mem_adjacent.mp isNeighbor
    rw [List.mem_map]
    by_cases isOther : neighbor = other
    · exact ⟨reg, mem_adjacent.mpr ⟨invariant.undirected.symm _ _ edge,
        isPresent_iff.mpr (.inr listed)⟩, (if_pos rfl).trans isOther.symm⟩
    obtain ⟨third, joinedThird, sameThird⟩ := spared.hasEdge_origin linked isTemp toNeighbor
      (invariant.not_merged_of_present present)
    have different : member ≠ third := fun equal =>
      isOther (sameThird.symm.trans (equal ▸ same))
    have between := shelters.shared reg isTemp member third joined joinedThird different virtual notTemp
    have now := invariant.joined member third between (same ▸ presentOther) (sameThird ▸ present)
    rw [same, sameThird] at now
    have notReg : neighbor ≠ reg := by
      rintro rfl
      rw [invariant.undirected.irrefl] at toNeighbor
      cases toNeighbor
    exact ⟨neighbor, mem_adjacent.mpr ⟨now, present⟩, if_neg notReg⟩
  have short := (adjacent_nodup _ reg).length_le_of_subset within
  rwa [List.length_map] at short

theorem getElem?_spillList (distinct : round.Distinct) (on : round.On .spill reg) :
    round.spillList[reg]? = some (round.degree reg) := by
  obtain ⟨list, found⟩ := exists_getElem?_eq_degree ⟨.spill, on⟩
  have onList : round.On list reg := by
    unfold On
    rw [Std.TreeMap.mem_iff_isSome_getElem?, found]
    rfl
  obtain rfl := distinct reg list .spill onList on
  exact found

/-- A sheltered register is picked only if no other register waits beside it. -/
theorem Bare.pick (bare : Bare temp exempt round) (spared : Spared origin temp round)
    (linked : Linked origin round) (shelters : origin.Shelters pool temp)
    (invariant : Invariant origin round) (tallied : Tallied exempt round)
    (picks : round.PicksSpill) (chosen : round.spillChoice? = some reg) :
    Bare temp (fun other => exempt other ∨ other = reg) round := by
  intro first isTemp isExempt listed other edge listedOther
  rcases isExempt with isExempt | rfl
  · exact bare first isTemp isExempt listed other edge listedOther
  by_contra free
  obtain ⟨noSimplify, _, noFreeze, _⟩ := picks
  have onOther : round.On .spill other := by
    obtain ⟨list, on⟩ := listedOther
    cases list with
    | simplify => exact absurd on (Std.TreeMap.not_mem_of_isEmpty noSimplify)
    | freeze => exact absurd on (Std.TreeMap.not_mem_of_isEmpty noFreeze)
    | spill => exact on
  obtain ⟨virtual, node⟩ := (invariant.own other).mp (.inl listedOther)
  have fewer := lt_of_spillChoice? chosen
    (getElem?_spillList invariant.distinct (on_of_spillChoice? chosen))
    (getElem?_spillList invariant.distinct onOther) (shelters.later first isTemp other node virtual free)
  have more := spared.length_adjacent_le linked shelters invariant isTemp listed listedOther free edge
  rw [tallied.length_adjacent listed, tallied.length_adjacent listedOther] at more
  omega

/-! ## Rounds -/

/-- The state of a round of a graph with sheltered registers. -/
structure Sparing (origin : InterferenceGraph) (pool : List PhysReg) (moves : Table m MoveSite)
    (temp : Reg → Prop) (round : Round m) : Prop where
  consistent : Consistent origin pool moves round
  linked : Linked origin round
  spared : Spared origin temp round
  tallied : ∃ exempt, Tallied exempt round ∧ Bare temp exempt round

/-- The representatives of the operands of a copy are not sheltered. -/
theorem Sparing.not_temp (sparing : Sparing origin pool moves temp round)
    (free : ∀ move, ¬ temp (moves.get move).dest ∧ ¬ temp (moves.get move).src) {move : Fin m}
    (operands : u = round.representative (round.moves.get move).dest ∧
        v = round.representative (round.moves.get move).src ∨
      u = round.representative (round.moves.get move).src ∧
        v = round.representative (round.moves.get move).dest) : ¬ temp u ∧ ¬ temp v := by
  have keeps {operand : Reg} (notTemp : ¬ temp operand) :
      ¬ temp (round.representative operand) := fun isTemp =>
    notTemp ((sparing.spared.alone _ isTemp operand rfl).symm ▸ isTemp)
  have freeDest := keeps (free move).1
  have freeSrc := keeps (free move).2
  rw [← sparing.consistent.moves] at freeDest freeSrc
  rcases operands with ⟨rfl, rfl⟩ | ⟨rfl, rfl⟩
  · exact ⟨freeDest, freeSrc⟩
  · exact ⟨freeSrc, freeDest⟩

theorem Sparing.step (sparing : Sparing origin pool moves temp round)
    (shelters : origin.Shelters pool temp)
    (free : ∀ move, ¬ temp (moves.get move).dest ∧ ¬ temp (moves.get move).src)
    (stepped : round.step? = some next) : Sparing origin pool moves temp next := by
  obtain ⟨exempt, tallied, bare⟩ := sparing.tallied
  have consistent := sparing.consistent
  have linked := sparing.linked
  have spared := sparing.spared
  have pooled : origin.Shelters round.pool temp := consistent.pool ▸ shelters
  have effect : Spared origin temp next ∧ Bare temp exempt next := by
    rcases consistent.step_effect stepped with
      ⟨reg, on, rests⟩ | ⟨move, u, v, operands, invariant, fit, safe, rests⟩ | rests
    · exact ⟨(spared.stacked linked pooled consistent.invariant tallied bare on).rests rests,
        (bare.stacked reg).rests rests⟩
    · obtain ⟨freeU, freeV⟩ := sparing.not_temp free operands
      have marked := Rests.setMoveState round move .coalesced
      exact ⟨((spared.rests marked).combine (tallied.of_moveStates _) shelters invariant fit safe freeU
        freeV).rests rests, ((bare.rests marked).combine invariant fit freeU freeV).rests rests⟩
    · exact ⟨spared.rests rests, bare.rests rests⟩
  refine ⟨(consistent.step stepped).1, linked.step consistent stepped, effect.1, ?_⟩
  rcases tallied.step consistent stepped with kept | ⟨reg, picks, chosen, rfl, picked⟩
  · exact ⟨exempt, kept, effect.2⟩
  · refine ⟨_, picked, ?_⟩
    exact (bare.pick spared linked shelters consistent.invariant tallied picks chosen).rests
      (.freeze ⟨.spill, on_of_spillChoice? chosen⟩)

theorem Sparing.startOn {graph : InterferenceGraph} (undirected : graph.Undirected)
    (operands : ∀ move, (moves.get move).dest ∈ graph.nodes ∧ (moves.get move).src ∈ graph.nodes) :
    Sparing graph pool moves temp (startOn pool graph moves) := by
  have notMerged (reg : Reg) : reg ∉ (Round.startOn pool graph moves).merged := by
    rw [merged_startOn]
    exact Std.TreeMap.not_mem_emptyc
  refine ⟨.startOn undirected operands, .startOn undirected, ?_, _,
    counted_iff.mp (.startOn undirected operands), fun _ _ never => never.elim⟩
  refine ⟨fun reg _ => notMerged reg, fun reg _ other same => ?_, fun reg _ _ _ phys edge => ?_,
    fun later reg earlier split => ?_⟩
  · rwa [representative_of_not_merged (notMerged other)] at same
  · rwa [graph_startOn] at edge
  · rw [stack_startOn] at split
    exact absurd split.symm (by simp)

end Round

end Lowering.Machine
