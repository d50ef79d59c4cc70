import Lowering.Proofs.Allocation.Stations
import Lowering.Proofs.Allocation.Liveness

/-!
# Conservative merging

Registers with fewer neighbors than there are colors can be deleted from some graphs until none is
left.  In such a graph every group of registers has one with few neighbors in the group and among
the physical registers.  No step of a round changes that, whatever it merges, so no round of such a
graph picks a spill candidate, and every register is stacked with few neighbors left.
-/

namespace Lowering.Machine

/-- Registers that can be deleted one after another, the latest first.  Each of them has fewer than
`k` neighbors left when its turn comes; physical registers are never deleted. -/
inductive InterferenceGraph.Deletes (graph : InterferenceGraph) (k : Nat) : List Reg → Prop where
  | nil : Deletes graph k []
  | cons {gone : List Reg} {reg : Reg} :
      Deletes graph k gone → reg ∈ graph.nodes → reg.isPhysical = false → reg ∉ gone →
      ((graph.neighbors reg).filter (· ∉ gone)).length < k → Deletes graph k (reg :: gone)

/-- All registers that are not physical can be deleted. -/
def InterferenceGraph.Simplifiable (graph : InterferenceGraph) (k : Nat) : Prop :=
  ∃ gone, graph.Deletes k gone ∧ ∀ reg ∈ graph.nodes, reg.isPhysical = false → reg ∈ gone

/-- Fewer than `k` registers have a property. -/
def Few (k : Nat) (property : Reg → Prop) : Prop :=
  ∃ regs : List Reg, regs.length < k ∧ ∀ reg, property reg → reg ∈ regs

theorem Few.mono {k : Nat} {property stronger : Reg → Prop} (few : Few k property)
    (implies : ∀ reg, stronger reg → property reg) : Few k stronger := by
  obtain ⟨regs, short, all⟩ := few
  exact ⟨regs, short, fun reg holds => all reg (implies reg holds)⟩

theorem Few.rename {k : Nat} {property renamed : Reg → Prop} (few : Few k property)
    (name : Reg → Reg) (comes : ∀ reg, renamed reg → ∃ old, property old ∧ name old = reg) :
    Few k renamed := by
  obtain ⟨regs, short, all⟩ := few
  refine ⟨regs.map name, by rwa [List.length_map], fun reg holds => ?_⟩
  obtain ⟨old, holdsOld, rfl⟩ := comes reg holds
  exact List.mem_map_of_mem (all old holdsOld)

/-- Every group of registers inside has one with few neighbors in the group and among the physical
registers. -/
def Sparse (graph : InterferenceGraph) (k : Nat) (inside : Reg → Prop) : Prop :=
  ∀ group : Reg → Prop, (∃ reg, group reg) → (∀ reg, group reg → inside reg) →
    ∃ reg, group reg ∧
      Few k fun other => graph.hasEdge reg other = true ∧ (other.isPhysical = true ∨ group other)

theorem Sparse.mono {graph : InterferenceGraph} {k : Nat} {inside fewer : Reg → Prop}
    (sparse : Sparse graph k inside) (implies : ∀ reg, fewer reg → inside reg) :
    Sparse graph k fewer :=
  fun group some within => sparse group some fun reg member => implies reg (within reg member)

namespace InterferenceGraph

variable {graph : InterferenceGraph} {k : Nat} {gone : List Reg}

theorem Deletes.virtual (deletes : graph.Deletes k gone) :
    ∀ reg ∈ gone, reg.isPhysical = false := by
  induction deletes with
  | nil => exact fun _ member => absurd member List.not_mem_nil
  | cons _ _ virtual _ _ ih =>
      intro reg member
      rcases List.mem_cons.mp member with rfl | member
      · exact virtual
      · exact ih reg member

/-- The first register of a group to be deleted has few neighbors in the group. -/
theorem Deletes.first_of_group (deletes : graph.Deletes k gone) {group : Reg → Prop}
    (some : ∃ reg ∈ gone, group reg) :
    ∃ reg, group reg ∧
      Few k fun other => graph.hasEdge reg other = true ∧
        (other.isPhysical = true ∨ group other) := by
  induction deletes with
  | nil =>
      obtain ⟨reg, member, _⟩ := some
      cases member
  | @cons gone reg deletes _ _ _ short ih =>
      by_cases earlier : ∃ other ∈ gone, group other
      · exact ih earlier
      · obtain ⟨first, member, inGroup⟩ := some
        have isFirst : first = reg := by
          rcases List.mem_cons.mp member with same | member
          · exact same
          · exact absurd ⟨first, member, inGroup⟩ earlier
        subst isFirst
        refine ⟨first, inGroup, _, short, fun other holds => ?_⟩
        rw [List.mem_filter, Graph.mem_neighbors, decide_eq_true_eq]
        refine ⟨holds.1, fun deleted => ?_⟩
        rcases holds.2 with physical | grouped
        · rw [deletes.virtual other deleted] at physical
          cases physical
        · exact earlier ⟨other, deleted, grouped⟩

theorem Simplifiable.sparse (simplifiable : graph.Simplifiable k) {inside : Reg → Prop}
    (nodes : ∀ reg, inside reg → reg ∈ graph.nodes ∧ reg.isPhysical = false) :
    Sparse graph k inside := by
  obtain ⟨gone, deletes, all⟩ := simplifiable
  rintro group ⟨reg, member⟩ within
  obtain ⟨node, virtual⟩ := nodes reg (within reg member)
  exact deletes.first_of_group ⟨reg, all reg node virtual, member⟩

end InterferenceGraph

namespace Round

variable {m : Nat} {origin : InterferenceGraph} {round after : Round m} {u v reg : Reg}

theorem Counted.few_adjacent (counted : Counted round) (listed : round.Listed reg)
    (few : round.degree reg < round.k) :
    Few round.k fun other => round.graph.hasEdge reg other = true ∧ round.isPresent other = true :=
  ⟨round.adjacent reg, counted.length_adjacent listed ▸ few, fun _ => mem_adjacent.mpr⟩

section Merging

/-- A register with few neighbors has few of them after a merge, as it loses `v` if it gets `u`. -/
theorem few_combine_of_degree_lt (counted : Counted round) (invariant : Invariant origin round)
    (listedV : round.Listed v) (listed : round.Listed reg) (notU : reg ≠ u)
    (few : round.degree reg < round.k) :
    Few round.k fun other => (round.combine u v).graph.hasEdge reg other = true ∧
      (round.combine u v).isPresent other = true := by
  refine (counted.few_adjacent listed few).rename (fun old => if old = v then u else old) ?_
  rintro other ⟨edge, present⟩
  rcases (hasEdge_combine invariant.undirected).mp edge with
    ⟨t, toV, _, _, ⟨rfl, rfl⟩ | ⟨isU, _⟩⟩ | edge
  · exact ⟨v, ⟨invariant.undirected.symm _ _ toV, isPresent_iff.mpr (.inr listedV)⟩, if_pos rfl⟩
  · exact absurd isU notU
  · refine ⟨other, ⟨edge, isPresent_of_combine present⟩, if_neg ?_⟩
    rintro rfl
    rcases isPresent_iff.mp present with physical | listed
    · rw [invariant.listed_not_physical listedV] at physical
      cases physical
    · exact (listed_combine.mp listed).1 rfl

/-- Merging into a physical register joins it only with registers that have few neighbors. -/
theorem sparse_combine_physical (sparse : Sparse round.graph round.k round.Listed)
    (counted : Counted round) (invariant : Invariant origin round) (fit : round.Fit u v)
    (physical : u.isPhysical = true) (safe : (round.adjacent v).all (round.isHarmless u) = true) :
    Sparse (round.combine u v).graph round.k (round.combine u v).Listed := by
  intro group some within
  have wasListed (other : Reg) (member : group other) : round.Listed other :=
    (listed_combine.mp (within other member)).2
  obtain ⟨reg, member, few⟩ := sparse group some wasListed
  have notU : reg ≠ u := by
    rintro rfl
    rw [invariant.listed_not_physical (wasListed reg member)] at physical
    cases physical
  refine ⟨reg, member, ?_⟩
  by_cases joined : round.graph.hasEdge v reg = true ∧ round.graph.hasEdge reg u = false
  · have harmless := List.all_eq_true.mp safe reg
      (mem_adjacent.mpr ⟨joined.1, isPresent_iff.mpr (.inr (wasListed reg member))⟩)
    have low : round.degree reg < round.k := by
      simpa [isHarmless, isSignificant, joined.2,
        invariant.listed_not_physical (wasListed reg member)] using harmless
    exact (few_combine_of_degree_lt counted invariant fit.listed (wasListed reg member) notU
      low).mono fun other holds => ⟨holds.1, isPresent_iff.mpr (holds.2.imp_right (within other))⟩
  · refine few.mono fun other holds => ⟨?_, holds.2⟩
    rcases (hasEdge_combine invariant.undirected).mp holds.1 with
      ⟨t, edge, _, _, ⟨rfl, rfl⟩ | ⟨isU, _⟩⟩ | edge
    · rw [← Bool.not_eq_false]
      exact fun apart => joined ⟨edge, apart⟩
    · exact absurd isU notU
    · exact edge

theorem few_of_isConservative (safe : round.isConservative
      (Std.TreeSet.ofList (round.adjacent u ++ round.adjacent v) Reg.order) = true) :
    Few round.k fun other => round.isSignificant other = true ∧
      (other ∈ round.adjacent u ∨ other ∈ round.adjacent v) := by
  refine ⟨(Std.TreeSet.ofList (round.adjacent u ++ round.adjacent v) Reg.order).toList.filter
    round.isSignificant, ?_, fun other holds => ?_⟩
  · rw [← List.countP_eq_length_filter]
    exact of_decide_eq_true safe
  · rw [List.mem_filter, RegSet.mem_toList, Std.TreeSet.mem_ofList, List.contains_iff_mem,
      List.mem_append]
    exact ⟨holds.2, holds.1⟩

/-- Merging two registers with few significant neighbors gives one with few of them, or leaves a
register with few neighbors. -/
theorem sparse_combine_virtual (sparse : Sparse round.graph round.k round.Listed)
    (counted : Counted round) (invariant : Invariant origin round) (fit : round.Fit u v)
    (virtual : u.isPhysical = false)
    (safe : round.isConservative
      (Std.TreeSet.ofList (round.adjacent u ++ round.adjacent v) Reg.order) = true) :
    Sparse (round.combine u v).graph round.k (round.combine u v).Listed := by
  intro group some within
  have wasListed (other : Reg) (member : group other) : round.Listed other :=
    (listed_combine.mp (within other member)).2
  by_cases hasU : group u
  · by_cases low : ∃ reg, group reg ∧ reg ≠ u ∧ round.degree reg < round.k
    · obtain ⟨reg, member, notU, low⟩ := low
      refine ⟨reg, member, ?_⟩
      exact (few_combine_of_degree_lt counted invariant fit.listed (wasListed reg member) notU
        low).mono fun other holds =>
          ⟨holds.1, isPresent_iff.mpr (holds.2.imp_right (within other))⟩
    · -- all others have many neighbors, so the neighbors of `u` are among the significant ones
      refine ⟨u, hasU, (few_of_isConservative safe).mono fun other holds => ?_⟩
      have notU : other ≠ u := by
        rintro rfl
        rw [(undirected_combine invariant.undirected other v).irrefl] at holds
        exact Bool.false_ne_true holds.1
      have significant : round.isSignificant other = true := by
        rcases holds.2 with physical | grouped
        · simp [isSignificant, physical]
        · have high := not_lt.mp fun few => low ⟨other, grouped, notU, few⟩
          simp [isSignificant, high]
      have present : round.isPresent other = true :=
        isPresent_iff.mpr (holds.2.imp_right (wasListed other))
      refine ⟨significant, ?_⟩
      rcases (hasEdge_combine invariant.undirected).mp holds.1 with
        ⟨t, toV, _, notT, ⟨isT, _⟩ | ⟨_, rfl⟩⟩ | edge
      · exact absurd isT.symm notT
      · exact .inr (mem_adjacent.mpr ⟨toV, present⟩)
      · exact .inl (mem_adjacent.mpr ⟨edge, present⟩)
  · obtain ⟨reg, member, few⟩ := sparse group some wasListed
    refine ⟨reg, member, few.mono fun other holds => ⟨?_, holds.2⟩⟩
    rcases (hasEdge_combine invariant.undirected).mp holds.1 with
      ⟨t, _, _, _, ⟨_, isU⟩ | ⟨isU, _⟩⟩ | edge
    · rcases holds.2 with physical | grouped
      · rw [isU, virtual] at physical
        cases physical
      · exact absurd (isU ▸ grouped) hasU
    · exact absurd (isU ▸ member) hasU
    · exact edge

end Merging

/-- A stacked register has no part in a merge, which only renames what its neighbors are merged into. -/
theorem Invariant.neighbor_combine (invariant : Invariant origin round) (fit : round.Fit u v)
    {later earlier : List Reg} (split : round.stack = later ++ reg :: earlier) {neighbor : Reg}
    (edge : (round.combine u v).graph.hasEdge reg neighbor = true)
    (notEarlier : (round.combine u v).representative neighbor ∉ earlier) :
    round.graph.hasEdge reg neighbor = true ∧ round.representative neighbor ∉ earlier ∧
      (round.combine u v).representative neighbor =
        if round.representative neighbor = v then u else round.representative neighbor := by
  have stacked : reg ∈ round.stack := split ▸ List.mem_append_right _ List.mem_cons_self
  rw [invariant.representative_combine fit] at notEarlier ⊢
  refine ⟨?_, fun isEarlier => ?_, rfl⟩
  · rcases (hasEdge_combine invariant.undirected).mp edge with
      ⟨t, _, presentT, _, ⟨rfl, _⟩ | ⟨rfl, _⟩⟩ | old
    · exact absurd stacked (invariant.not_stacked_of_present (isPresent_of_absorb presentT))
    · exact absurd stacked (invariant.not_stacked_of_present fit.present)
    · exact old
  · have notV : round.representative neighbor ≠ v := by
      intro isV
      exact invariant.listed_not_stacked v fit.listed
        (isV ▸ split ▸ List.mem_append_right _ (List.mem_cons_of_mem _ isEarlier))
    rw [if_neg notV] at notEarlier
    exact notEarlier isEarlier

/-- What holds between the steps of a round of a graph that can be simplified. -/
structure Tame (origin : InterferenceGraph) (round : Round m) : Prop extends
    Linked origin round where
  sparse : Sparse round.graph round.k round.Listed
  /-- The neighbors of a stacked register that are not stacked before it are represented by few. -/
  easy : ∀ later reg earlier, round.stack = later ++ reg :: earlier →
    Few round.k fun other => ∃ neighbor, round.graph.hasEdge reg neighbor = true ∧
      round.representative neighbor = other ∧ other ∉ earlier

namespace Tame

theorem rests (tame : Tame origin round) (rests : Rests round after) : Tame origin after := by
  have sameColors : after.k = round.k := congrArg List.length rests.pool
  have sameListed : after.Listed = round.Listed := funext fun reg => propext (rests.listed reg)
  refine ⟨tame.toLinked.rests rests, ?_, ?_⟩
  · rw [rests.graph, sameColors, sameListed]
    exact tame.sparse
  · rw [rests.graph, sameColors, rests.stack, rests.representative]
    exact tame.easy

theorem stacked (tame : Tame origin round) (counted : Counted round)
    (invariant : Invariant origin round) (on : round.On .simplify reg) :
    Tame origin (round.stacked reg) where
  toLinked := tame.toLinked.stacked reg
  sparse := tame.sparse.mono fun _ listed => (listed_stacked.mp listed).2
  easy later other earlier split := by
    rw [representative_stacked]
    change reg :: round.stack = _ at split
    cases later with
    | nil =>
        -- few neighbors are left to the register just stacked
        simp only [List.nil_append, List.cons.injEq] at split
        obtain ⟨rfl, rfl⟩ := split
        have low := counted.degree_lt on invariant.distinct nofun
        refine (counted.few_adjacent ⟨.simplify, on⟩ low).mono ?_
        rintro _ ⟨neighbor, edge, rfl, notEarlier⟩
        exact Round.mem_adjacent.mp
          (tame.toLinked.mem_adjacent invariant ⟨.simplify, on⟩ edge notEarlier)
    | cons first later =>
        simp only [List.cons_append, List.cons.injEq] at split
        exact tame.easy later other earlier split.2

theorem combine (tame : Tame origin round) (counted : Counted round)
    (invariant : Invariant origin round) (fit : round.Fit u v)
    (safe : round.isMergeable u v = true) : Tame origin (round.combine u v) := by
  have shuffles := Shuffles.combine round u v
  have sameColors : (round.combine u v).k = round.k := shuffles.k
  have sameStack : (round.combine u v).stack = round.stack := shuffles.stack
  refine ⟨tame.toLinked.combine invariant fit, ?_, ?_⟩
  · rw [sameColors]
    unfold isMergeable at safe
    split at safe
    · next physical => exact sparse_combine_physical tame.sparse counted invariant fit physical safe
    · next virtual =>
        exact sparse_combine_virtual tame.sparse counted invariant fit
          ((Bool.not_eq_true _).mp virtual) safe
  · intro later other earlier split
    rw [sameStack] at split
    rw [sameColors]
    refine (tame.easy later other earlier split).rename (fun old => if old = v then u else old) ?_
    rintro _ ⟨neighbor, edge, rfl, notEarlier⟩
    obtain ⟨old, notBefore, renamed⟩ := invariant.neighbor_combine fit split edge notEarlier
    exact ⟨_, ⟨neighbor, old, rfl, notBefore⟩, renamed.symm⟩

end Tame

variable {pool : List PhysReg} {moves : Table m MoveSite}

/-- What holds of a round of a graph that can be simplified. -/
structure Relaxed (origin : InterferenceGraph) (pool : List PhysReg) (moves : Table m MoveSite)
    (round : Round m) : Prop where
  consistent : Consistent origin pool moves round
  counted : Counted round
  tame : Tame origin round

namespace Relaxed

/-- If all registers were spill candidates, their group would have one with few neighbors. -/
theorem not_picksSpill (relaxed : Relaxed origin pool moves round) : ¬ round.PicksSpill := by
  rintro ⟨noSimplify, _, noFreeze, choice, chosen⟩
  obtain ⟨reg, listed, regs, short, all⟩ := relaxed.tame.sparse round.Listed
    ⟨choice, .spill, on_of_spillChoice? chosen⟩ fun _ => id
  have within : round.adjacent reg ⊆ regs := fun other member =>
    all other ((mem_adjacent.mp member).imp_right isPresent_iff.mp)
  have few := (round.adjacent_nodup reg).length_le_of_subset within
  rw [relaxed.counted.length_adjacent listed] at few
  have onSpill : round.On .spill reg := by
    obtain ⟨list, on⟩ := listed
    cases list with
    | simplify => exact absurd on (Std.TreeMap.not_mem_of_isEmpty noSimplify)
    | freeze => exact absurd on (Std.TreeMap.not_mem_of_isEmpty noFreeze)
    | spill => exact on
  have many := (relaxed.counted.sorted reg listed).mp onSpill
  omega

theorem step (relaxed : Relaxed origin pool moves round) {next : Round m}
    (stepped : round.step? = some next) : Relaxed origin pool moves next := by
  have counted : Counted next := by
    rcases (counted_iff.mp relaxed.counted).step relaxed.consistent stepped with
      kept | ⟨_, picks, _⟩
    · exact counted_iff.mpr kept
    · exact absurd picks relaxed.not_picksSpill
  refine ⟨(relaxed.consistent.step stepped).1, counted, ?_⟩
  rcases relaxed.consistent.step_effect stepped with
    ⟨reg, on, rests⟩ | ⟨move, u, v, _, invariant, fit, safe, rests⟩ | rests
  · exact (relaxed.tame.stacked relaxed.counted relaxed.consistent.invariant on).rests rests
  · have marked := relaxed.tame.rests (.setMoveState round move .coalesced)
    exact (marked.combine (relaxed.counted.of_moveStates _) invariant fit safe).rests rests
  · exact relaxed.tame.rests rests

end Relaxed

section Colors

/-- Only representatives with a color of the pool take one away from their neighbors. -/
def Paints (round : Round m) (other : Reg) : Prop :=
  ∀ phys, other = .physical phys → phys ∈ round.pool

/-- A register whose colored neighbors are represented by few gets a color. -/
theorem exists_assign_eq {coloring : Coloring}
    (few : Few round.k fun other => ∃ neighbor, round.graph.hasEdge reg neighbor = true ∧
      round.representative neighbor = other ∧ (∃ color, coloring.color? other = some color) ∧
      round.Paints other) :
    ∃ color ∈ round.pool,
      round.assign coloring reg = { coloring with colors := coloring.colors.insert reg color } := by
  obtain ⟨regs, short, all⟩ := few
  have ascending := MinQueue.ascending_empty.foldl_push (round.usedColors coloring reg)
  have filled := (MinQueue.absentFrom_spec ascending 0).2.2
  have free : ((round.usedColors coloring reg).foldl MinQueue.push .empty).smallestAbsent.1 <
      round.pool.length := by
    by_contra taken
    -- otherwise all colors are those of the few representatives
    have covered : List.range round.k ⊆ regs.filterMap fun other =>
        (coloring.color? other).bind round.pool.idxOf? := by
      intro color inside
      rw [List.mem_range] at inside
      have used := filled color (Nat.zero_le _) (Nat.lt_of_lt_of_le inside (Nat.not_lt.mp taken))
      rw [MinQueue.mem_foldl_push] at used
      have used := used.resolve_right List.not_mem_nil
      obtain ⟨neighbor, isNeighbor, isColor⟩ := List.mem_filterMap.mp used
      obtain ⟨phys, found, position⟩ := Option.bind_eq_some_iff.mp isColor
      refine List.mem_filterMap.mpr ⟨round.representative neighbor, all _ ⟨neighbor,
        Graph.mem_neighbors.mp isNeighbor, rfl, ⟨phys, found⟩, fun own isOwn => ?_⟩, isColor⟩
      rw [isOwn] at found
      cases found
      obtain ⟨inside, isPhys, _⟩ := List.idxOf?_eq_some_iff.mp position
      exact isPhys ▸ List.getElem_mem inside
    have many := List.nodup_range.length_le_of_subset covered
    rw [List.length_range] at many
    have fewer := List.length_filterMap_le (fun other =>
      (coloring.color? other).bind round.pool.idxOf?) regs
    omega
  refine ⟨_, List.getElem_mem free, ?_⟩
  unfold Round.assign
  dsimp only
  rw [List.getElem?_eq_getElem free]

theorem getElem?_foldl_assign {regs : List Reg} (absent : reg ∉ regs) (coloring : Coloring) :
    (regs.foldl round.assign coloring).colors[reg]? = coloring.colors[reg]? := by
  induction regs generalizing coloring with
  | nil => rfl
  | cons first rest ih =>
      rw [List.foldl_cons, ih (List.not_mem_of_not_mem_cons absent)]
      rcases round.assign_eq coloring first with ⟨color, _, outcome⟩ | outcome
      · rw [outcome]
        dsimp only
        rw [Coloring.getElem?_insert, if_neg (Ne.symm (List.ne_of_not_mem_cons absent))]
      · rw [outcome]

theorem mem_spilled_foldl_assign {regs : List Reg} {coloring : Coloring}
    (spilled : reg ∈ (regs.foldl round.assign coloring).spilled) :
    reg ∈ coloring.spilled ∨ reg ∈ regs := by
  induction regs generalizing coloring with
  | nil => exact .inl spilled
  | cons first rest ih =>
      rcases ih spilled with before | later
      · rcases round.assign_eq coloring first with ⟨color, _, outcome⟩ | outcome
        · rw [outcome] at before
          exact .inl before
        · rw [outcome] at before
          refine (List.mem_append.mp before).imp_right fun here => ?_
          exact List.mem_singleton.mp here ▸ List.mem_cons_self
      · exact .inr (List.mem_cons_of_mem _ later)

/-- A register that was stacked with few neighbors gets a color of the pool. -/
theorem exists_color_of_few (invariant : Invariant origin round) {later earlier : List Reg}
    (split : round.stack = later ++ reg :: earlier)
    (few : Few round.k fun other => ∃ neighbor, round.graph.hasEdge reg neighbor = true ∧
      round.representative neighbor = other ∧ other ∉ earlier ∧ round.Paints other) :
    reg ∉ round.stackColors.spilled ∧
      ∃ color ∈ round.pool, round.stackColors.color? reg = some color := by
  have distinct := split ▸ invariant.stack_nodup
  have notLater : reg ∉ later := fun member =>
    List.disjoint_of_nodup_append distinct member List.mem_cons_self
  have notEarlier : reg ∉ earlier := (List.nodup_cons.mp distinct.of_append_right).1
  have virtual (other : Reg) (member : other ∈ reg :: earlier) : other.isPhysical = false :=
    invariant.stacked_not_physical (split ▸ List.mem_append_right _ member)
  -- the registers that are stacked before it have no color yet
  have blank (other : Reg) (member : other ∈ earlier) :
      (later.foldl round.assign ⟨∅, []⟩).color? other = none := by
    rw [Coloring.color?_of_not_physical (virtual other (List.mem_cons_of_mem _ member)),
      getElem?_foldl_assign fun isLater =>
        List.disjoint_of_nodup_append distinct isLater (List.mem_cons_of_mem _ member)]
    exact Std.TreeMap.getElem?_emptyc
  obtain ⟨color, pooled, assigned⟩ : ∃ color ∈ round.pool,
      round.assign (later.foldl round.assign ⟨∅, []⟩) reg =
        { later.foldl round.assign ⟨∅, []⟩ with
          colors := (later.foldl round.assign ⟨∅, []⟩).colors.insert reg color } := by
    refine exists_assign_eq (few.mono ?_)
    rintro other ⟨neighbor, edge, same, ⟨color, found⟩, paints⟩
    refine ⟨neighbor, edge, same, fun member => ?_, paints⟩
    rw [blank other member] at found
    cases found
  have isColoring : round.stackColors = earlier.foldl round.assign
      { later.foldl round.assign ⟨∅, []⟩ with
        colors := (later.foldl round.assign ⟨∅, []⟩).colors.insert reg color } := by
    rw [stackColors, split, List.foldl_append, List.foldl_cons, assigned]
  rw [isColoring]
  refine ⟨fun spilled => ?_, color, pooled, ?_⟩
  · have before := (mem_spilled_foldl_assign spilled).resolve_right notEarlier
    exact notLater ((mem_spilled_foldl_assign before).resolve_left List.not_mem_nil)
  · rw [Coloring.color?_of_not_physical (virtual reg List.mem_cons_self),
      getElem?_foldl_assign notEarlier, Coloring.getElem?_insert, if_pos rfl]

/-- Some registers are easy to color: of the neighbors that are not stacked before such a register, few
representatives can take a color away from it. -/
def Easy (chosen : Reg → Prop) (round : Round m) : Prop :=
  ∀ later reg earlier, round.stack = later ++ reg :: earlier → chosen reg →
    Few round.k fun other => ∃ neighbor, round.graph.hasEdge reg neighbor = true ∧
      round.representative neighbor = other ∧ other ∉ earlier ∧ round.Paints other

namespace Easy

variable {chosen : Reg → Prop}

theorem rests (easy : Easy chosen round) (rests : Rests round after) : Easy chosen after := by
  have sameColors : after.k = round.k := congrArg List.length rests.pool
  unfold Easy Paints
  rw [rests.graph, sameColors, rests.stack, rests.representative, rests.pool]
  exact easy

theorem stacked (easy : Easy chosen round)
    (here : chosen reg → Few round.k fun other => ∃ neighbor,
      round.graph.hasEdge reg neighbor = true ∧ round.representative neighbor = other ∧
      other ∉ round.stack ∧ round.Paints other) : Easy chosen (round.stacked reg) := by
  intro later other earlier split isChosen
  rw [representative_stacked]
  change reg :: round.stack = _ at split
  cases later with
  | nil =>
      obtain ⟨rfl, rfl⟩ := List.cons.inj split
      exact here isChosen
  | cons first later => exact easy later other earlier (List.cons.inj split).2 isChosen

theorem combine (easy : Easy chosen round) (invariant : Invariant origin round)
    (fit : round.Fit u v) : Easy chosen (round.combine u v) := by
  have shuffles := Shuffles.combine round u v
  have sameColors : (round.combine u v).k = round.k := shuffles.k
  have sameStack : (round.combine u v).stack = round.stack := shuffles.stack
  have samePool : (round.combine u v).pool = round.pool := shuffles.pool
  intro later reg earlier split isChosen
  rw [sameStack] at split
  rw [sameColors]
  refine (easy later reg earlier split isChosen).rename (fun old => if old = v then u else old) ?_
  rintro _ ⟨neighbor, edge, rfl, notEarlier, paints⟩
  obtain ⟨old, notBefore, renamed⟩ := invariant.neighbor_combine fit split edge notEarlier
  refine ⟨_, ⟨neighbor, old, rfl, notBefore, fun phys isPhys => ?_⟩, renamed.symm⟩
  -- a physical register is not merged away, so it still stands for the neighbor
  have notV : round.representative neighbor ≠ v := by
    rintro isV
    have virtual := invariant.listed_not_physical fit.listed
    rw [← isV, isPhys] at virtual
    cases virtual
  rw [if_neg notV, isPhys] at renamed
  exact samePool ▸ paints phys renamed

end Easy

/-- A register that was stacked with few neighbors is not spilled. -/
theorem not_mem_spilled (invariant : Invariant origin round) (nodup : round.pool.Nodup)
    (easy : ∀ later earlier, round.stack = later ++ reg :: earlier →
      Few round.k fun other => ∃ neighbor, round.graph.hasEdge reg neighbor = true ∧
        round.representative neighbor = other ∧ other ∉ earlier ∧ round.Paints other) :
    reg ∉ round.assignColors.spilled := by
  rw [spilled_assignColors]
  intro spilled
  obtain ⟨later, earlier, split⟩ :=
    List.append_of_mem ((invariant.colored nodup).spilled.subset spilled)
  exact (exists_color_of_few invariant split (easy later earlier split)).1 spilled

end Colors

section Start

variable {graph : InterferenceGraph}

theorem Relaxed.startOn (undirected : graph.Undirected)
    (operands : ∀ move, (moves.get move).dest ∈ graph.nodes ∧ (moves.get move).src ∈ graph.nodes)
    (simplifiable : graph.Simplifiable pool.length) :
    Relaxed graph pool moves (startOn pool graph moves) := by
  have consistent : Consistent graph pool moves (Round.startOn pool graph moves) :=
    .startOn undirected operands
  have sameGraph := graph_startOn pool graph moves
  have sameColors : (Round.startOn pool graph moves).k = pool.length := by
    unfold k
    rw [consistent.pool]
  refine ⟨consistent, .startOn undirected operands, .startOn undirected, ?_, ?_⟩
  · rw [sameGraph, sameColors]
    exact simplifiable.sparse fun reg => listed_startOn.mp
  · intro later reg earlier split
    rw [stack_startOn] at split
    exact absurd split.symm (by simp)

end Start

end Round

end Lowering.Machine
