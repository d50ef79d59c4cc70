import Lowering.Proofs.Allocation.Steps
import Mathlib.Data.List.Perm.Subperm

/-!
# Counted neighbors

The number beside a register on a worklist is the number of its neighbors that are still in the
graph, and the spill candidates are the registers with as many neighbors as there are colors.  A
register that leaves the graph leaves its neighbors one too many each, which are taken out of the
count in turn.
-/

namespace Lowering

theorem Graph.neighbors_nodup {α : Type} {cmp : α → α → Ordering} [Std.TransCmp cmp]
    [Std.LawfulEqCmp cmp] (graph : Graph α cmp) (a : α) : (graph.neighbors a).Nodup := by
  unfold neighbors neighbors?
  cases graph.adjacency.get? a with
  | none => exact List.nodup_nil
  | some row =>
      exact row.distinct_toList.imp fun different equal =>
        different (Std.LawfulEqCmp.compare_eq_iff_eq.mpr equal)

namespace Machine.Round

variable {m : Nat} {round before after : Round m} {reg other : Reg}

theorem adjacent_nodup (round : Round m) (reg : Reg) : (round.adjacent reg).Nodup :=
  (round.graph.neighbors_nodup reg).filter _

section Degree

theorem degree_eq (round : Round m) (reg : Reg) :
    round.degree reg = (((round.simplifyList[reg]?).or round.freezeList[reg]?).or
      round.spillList[reg]?).getD 0 := by
  unfold degree
  simp only [Std.TreeMap.get?_eq_getElem?, Std.TreeMap.getD_eq_getD_getElem?]
  cases round.simplifyList[reg]? with
  | some degree => rfl
  | none =>
      cases round.freezeList[reg]? with
      | some degree => rfl
      | none => rfl

theorem exists_getElem?_eq_degree (listed : round.Listed reg) :
    ∃ list, (round.worklist list)[reg]? = some (round.degree reg) := by
  rw [degree_eq]
  cases inSimplify : round.simplifyList[reg]? with
  | some degree => exact ⟨.simplify, inSimplify⟩
  | none =>
      cases inFreeze : round.freezeList[reg]? with
      | some degree => exact ⟨.freeze, inFreeze⟩
      | none =>
          cases inSpill : round.spillList[reg]? with
          | some degree => exact ⟨.spill, inSpill⟩
          | none =>
              obtain ⟨list, on⟩ := listed
              have absent : (round.worklist list)[reg]? = none := by cases list <;> assumption
              have present := Std.TreeMap.mem_iff_isSome_getElem?.mp on
              rw [absent] at present
              cases present

theorem degree_leave_of_ne (different : other ≠ reg) :
    (round.leave reg).degree other = round.degree other := by
  simp only [degree_eq, leave, Std.TreeMap.getElem?_erase, Reg.order_eq_iff,
    if_neg (Ne.symm different)]

@[simp]
theorem degree_enter (round : Round m) (list : Worklist) (reg other : Reg) :
    (round.enter list reg).degree other = round.degree other := by
  have entered (list : Worklist) (degree : Nat) :
      ((round.leave reg).put list reg degree).degree reg = degree := by
    cases list with
    | simplify => simp [degree_eq, put]
    | freeze => simp [degree_eq, put, leave]
    | spill => simp [degree_eq, put, leave]
  by_cases same : other = reg
  · subst same
    exact entered list _
  · have kept (list : Worklist) (degree : Nat) :
        ((round.leave reg).put list reg degree).degree other = (round.leave reg).degree other := by
      cases list <;>
        simp only [degree_eq, put, Std.TreeMap.getElem?_insert, Reg.order_eq_iff,
          if_neg (Ne.symm same)]
    exact (kept list _).trans (degree_leave_of_ne same)

theorem degree_modifyDegree_of_ne {change : Nat → Nat} (different : other ≠ reg) :
    (round.modifyDegree reg change).degree other = round.degree other := by
  simp only [degree_eq, modifyDegree, Std.TreeMap.getElem?_modify, Reg.order_eq_iff,
    if_neg (Ne.symm different)]

theorem degree_modifyDegree_self {change : Nat → Nat} (listed : round.Listed reg ∨ change 0 = 0) :
    (round.modifyDegree reg change).degree reg = change (round.degree reg) := by
  simp only [degree_eq, modifyDegree, Std.TreeMap.getElem?_modify, Reg.order_eq_iff, if_true]
  cases inSimplify : round.simplifyList[reg]? with
  | some degree => rfl
  | none =>
      cases inFreeze : round.freezeList[reg]? with
      | some degree => rfl
      | none =>
          cases inSpill : round.spillList[reg]? with
          | some degree => rfl
          | none =>
              rcases listed with ⟨list, on⟩ | fixed
              · have absent : (round.worklist list)[reg]? = none := by cases list <;> assumption
                have present := Std.TreeMap.mem_iff_isSome_getElem?.mp on
                rw [absent] at present
                cases present
              · exact fixed.symm

theorem degree_enableMoves (round : Round m) (regs : List Reg) (reg : Reg) :
    (round.enableMoves regs).degree reg = round.degree reg := by
  obtain ⟨states, equal⟩ := round.enableMoves_eq regs
  rw [equal]
  rfl

theorem degree_decrementDegree (round : Round m) (reg other : Reg) :
    (round.decrementDegree reg).degree other =
      if other = reg ∧ reg.isPhysical = false then round.degree other - 1
      else round.degree other := by
  have counted : (round.modifyDegree reg (· - 1)).degree other =
      if other = reg then round.degree other - 1 else round.degree other := by
    split
    · next same =>
        subst same
        exact degree_modifyDegree_self (.inr rfl)
    · next different => exact degree_modifyDegree_of_ne different
  unfold decrementDegree
  split
  · next physical => rw [if_neg (by simp [physical])]
  · next notPhysical =>
      have virtual : reg.isPhysical = false := (Bool.not_eq_true _).mp notPhysical
      simp only [virtual, and_true]
      rw [← counted]
      split
      · rw [degree_enter, degree_enableMoves]
      · rfl

end Degree

section Counting

/-- The numbers beside registers are right, but for one too many for each time that a register is on
the list. -/
def Owing (round : Round m) (debtors : List Reg) : Prop :=
  ∀ reg, round.Listed reg →
    round.degree reg = (round.adjacent reg).length + debtors.count reg

/-- The register is a spill candidate if and only if it has as many neighbors as there are
colors. -/
def Sorted (round : Round m) (reg : Reg) : Prop :=
  round.On .spill reg ↔ round.k ≤ round.degree reg

theorem Shuffles.adjacent (shuffles : Shuffles before after)
    (sameGraph : after.graph = before.graph) : after.adjacent = before.adjacent := by
  funext reg
  unfold Round.adjacent
  rw [sameGraph]
  exact List.filter_congr fun other _ => shuffles.isPresent other

theorem Shuffles.k (shuffles : Shuffles before after) : after.k = before.k := by
  unfold Round.k
  rw [shuffles.pool]

variable {debtors : List Reg}

theorem Owing.congr (owing : before.Owing debtors) (shuffles : Shuffles before after)
    (sameGraph : after.graph = before.graph)
    (sameDegree : ∀ reg, after.degree reg = before.degree reg) : after.Owing debtors := by
  intro reg listed
  rw [sameDegree, shuffles.adjacent sameGraph]
  exact owing reg ((shuffles.listed reg).mp listed)

theorem Owing.pos_of_mem (owing : round.Owing debtors) (listed : round.Listed reg)
    (owes : reg ∈ debtors) : 0 < round.degree reg := by
  have counted := owing reg listed
  have positive := List.count_pos_iff.mpr owes
  omega

theorem Owing.decrementDegree (owing : round.Owing (reg :: debtors))
    (virtual : ∀ other, round.Listed other → other.isPhysical = false) :
    (round.decrementDegree reg).Owing debtors := by
  intro other listed
  have shuffles := Shuffles.decrementDegree round reg
  have wasListed := (shuffles.listed other).mp listed
  have owed := owing other wasListed
  rw [shuffles.adjacent (graph_decrementDegree round reg), degree_decrementDegree]
  by_cases same : other = reg
  · subst same
    rw [List.count_cons_self] at owed
    rw [if_pos ⟨rfl, virtual other wasListed⟩]
    omega
  · rw [List.count_cons_of_ne (Ne.symm same)] at owed
    rw [if_neg fun both => same both.1]
    exact owed

/-- A register that leaves the graph is one neighbor too many for its neighbors. -/
theorem Owing.leave {gone : Reg} (owing : before.Owing []) (sameGraph : after.graph = before.graph)
    (undirected : before.graph.Undirected) (virtual : gone.isPhysical = false)
    (listedGone : before.Listed gone)
    (listed : ∀ reg, after.Listed reg ↔ reg ≠ gone ∧ before.Listed reg)
    (sameDegree : ∀ reg, reg ≠ gone → after.degree reg = before.degree reg) :
    after.Owing (after.adjacent gone) := by
  have present (reg : Reg) :
      after.isPresent reg = true ↔ reg ≠ gone ∧ before.isPresent reg = true := by
    rw [isPresent_iff, isPresent_iff, listed]
    constructor
    · rintro (physical | ⟨different, isListed⟩)
      · refine ⟨?_, .inl physical⟩
        rintro rfl
        rw [virtual] at physical
        cases physical
      · exact ⟨different, .inr isListed⟩
    · rintro ⟨different, physical | isListed⟩
      · exact .inl physical
      · exact .inr ⟨different, isListed⟩
  intro reg isListed
  obtain ⟨different, wasListed⟩ := (listed reg).mp isListed
  rw [sameDegree reg different, owing reg wasListed, List.count_nil, Nat.add_zero,
    (after.adjacent_nodup gone).count]
  have isPresent : after.isPresent reg = true := isPresent_iff.mpr (.inr isListed)
  split
  · next neighbor =>
      rw [mem_adjacent, sameGraph] at neighbor
      have fresh : gone ∉ after.adjacent reg := fun member =>
        ((present gone).mp (mem_adjacent.mp member).2).1 rfl
      have perm : (before.adjacent reg).Perm (gone :: after.adjacent reg) := by
        refine (List.perm_ext_iff_of_nodup (before.adjacent_nodup reg)
          (List.nodup_cons.mpr ⟨fresh, after.adjacent_nodup reg⟩)).mpr fun other => ?_
        rw [List.mem_cons, mem_adjacent, mem_adjacent, sameGraph, present]
        constructor
        · rintro ⟨edge, isPresent⟩
          by_cases same : other = gone
          · exact .inl same
          · exact .inr ⟨edge, same, isPresent⟩
        · rintro (rfl | ⟨edge, _, isPresent⟩)
          · exact ⟨undirected.symm _ _ neighbor.1, isPresent_iff.mpr (.inr listedGone)⟩
          · exact ⟨edge, isPresent⟩
      rw [perm.length_eq, List.length_cons]
  · next stranger =>
      have perm : (before.adjacent reg).Perm (after.adjacent reg) := by
        refine (List.perm_ext_iff_of_nodup (before.adjacent_nodup reg)
          (after.adjacent_nodup reg)).mpr fun other => ?_
        rw [mem_adjacent, mem_adjacent, sameGraph, present]
        refine and_congr_right fun edge => ⟨fun still => ⟨?_, still⟩, And.right⟩
        rintro rfl
        apply stranger
        rw [mem_adjacent, sameGraph]
        exact ⟨undirected.symm _ _ edge, isPresent⟩
      rw [perm.length_eq, Nat.add_zero]

theorem length_adjacent_congr (shuffles : Shuffles before after)
    (edges : ∀ other, after.graph.hasEdge reg other = true ↔
      before.graph.hasEdge reg other = true) :
    (after.adjacent reg).length = (before.adjacent reg).length := by
  apply List.Perm.length_eq
  refine (List.perm_ext_iff_of_nodup (after.adjacent_nodup reg)
    (before.adjacent_nodup reg)).mpr fun other => ?_
  rw [mem_adjacent, mem_adjacent, edges, shuffles.isPresent]

/-- A register gets one neighbor more by a new edge to a register in the graph. -/
theorem length_adjacent_of_joined {joined : Reg} (shuffles : Shuffles before after)
    (edges : ∀ other, after.graph.hasEdge reg other = true ↔
      other = joined ∨ before.graph.hasEdge reg other = true)
    (fresh : before.graph.hasEdge reg joined = false) (present : before.isPresent joined = true) :
    (after.adjacent reg).length = (before.adjacent reg).length + 1 := by
  have absent : joined ∉ before.adjacent reg := by
    rw [mem_adjacent, fresh]
    exact fun both => Bool.false_ne_true both.1
  have perm : (after.adjacent reg).Perm (joined :: before.adjacent reg) := by
    refine (List.perm_ext_iff_of_nodup (after.adjacent_nodup reg)
      (List.nodup_cons.mpr ⟨absent, before.adjacent_nodup reg⟩)).mpr fun other => ?_
    rw [List.mem_cons, mem_adjacent, mem_adjacent, edges, shuffles.isPresent]
    constructor
    · rintro ⟨isJoined | edge, still⟩
      · exact .inl isJoined
      · exact .inr ⟨edge, still⟩
    · rintro (rfl | ⟨edge, still⟩)
      · exact ⟨.inl rfl, present⟩
      · exact ⟨.inr edge, still⟩
  rw [perm.length_eq, List.length_cons]

theorem degree_addEdge {a b : Reg} (listed : round.Listed reg) :
    (round.addEdge a b).degree reg =
      if round.graph.isNewEdge a b = true ∧ (reg = a ∨ reg = b) then round.degree reg + 1
      else round.degree reg := by
  unfold addEdge
  by_cases isNew : round.graph.isNewEdge a b = true
  · have different := (Graph.isNewEdge_iff.mp isNew).1
    let joined : Round m := { round with graph := round.graph.addEdge a b }
    have listedJoined : joined.Listed reg := by
      obtain ⟨list, on⟩ := listed
      exact ⟨list, by cases list <;> exact on⟩
    have sameDegree : joined.degree reg = round.degree reg := rfl
    rw [if_pos isNew]
    change ((joined.modifyDegree a (· + 1)).modifyDegree b (· + 1)).degree reg = _
    by_cases isA : reg = a
    · subst isA
      rw [if_pos ⟨isNew, .inl rfl⟩, degree_modifyDegree_of_ne different,
        degree_modifyDegree_self (.inl listedJoined), sameDegree]
    · by_cases isB : reg = b
      · subst isB
        have still := ((Shuffles.modifyDegree joined a (· + 1)).listed reg).mpr listedJoined
        rw [if_pos ⟨isNew, .inr rfl⟩, degree_modifyDegree_self (.inl still),
          degree_modifyDegree_of_ne (Ne.symm different), sameDegree]
      · rw [if_neg (by simp [isA, isB]), degree_modifyDegree_of_ne isB,
          degree_modifyDegree_of_ne isA, sameDegree]
  · rw [if_neg isNew, if_neg fun both => isNew both.1]

theorem Owing.addEdge (owing : round.Owing debtors) {a b : Reg}
    (undirected : round.graph.Undirected) (presentA : round.isPresent a = true)
    (presentB : round.isPresent b = true) : (round.addEdge a b).Owing debtors := by
  intro reg listed
  have shuffles := Shuffles.addEdge round a b
  have wasListed := (shuffles.listed reg).mp listed
  rw [degree_addEdge wasListed, owing reg wasListed]
  split
  · next joins =>
      obtain ⟨different, fresh⟩ := Graph.isNewEdge_iff.mp joins.1
      have longer : ((round.addEdge a b).adjacent reg).length = (round.adjacent reg).length + 1 := by
        rcases joins.2 with rfl | rfl
        · refine length_adjacent_of_joined shuffles (fun other => ?_) fresh presentB
          rw [hasEdge_addEdge undirected]
          simp only [true_and, different, false_and, or_false, ne_eq, not_false_eq_true]
        · refine length_adjacent_of_joined shuffles (fun other => ?_) ?_ presentA
          · rw [hasEdge_addEdge undirected]
            simp only [true_and, Ne.symm different, false_and, false_or, ne_eq, different,
              not_false_eq_true]
          · rw [Bool.eq_false_iff]
            intro edge
            rw [undirected.symm _ _ edge] at fresh
            cases fresh
      omega
  · next aside =>
      refine congrArg (· + _) (length_adjacent_congr shuffles fun other => ?_).symm
      by_cases isNew : round.graph.isNewEdge a b = true
      · have isOther : reg ≠ a ∧ reg ≠ b := not_or.mp fun isEnd => aside ⟨isNew, isEnd⟩
        rw [hasEdge_addEdge undirected]
        simp only [isOther.1, isOther.2, false_and, or_self, and_false, false_or]
      · rw [graph_addEdge, if_neg isNew]

end Counting

section Sorting

variable {list : Worklist}

theorem on_decrementDegree_of_ne (different : other ≠ reg) :
    (round.decrementDegree reg).On list other ↔ round.On list other := by
  unfold decrementDegree
  split
  · exact Iff.rfl
  · dsimp only
    split
    · rw [on_enter, on_enableMoves, on_modifyDegree]
      simp only [different, and_false, false_or, ne_eq, not_false_eq_true, true_and]
    · exact on_modifyDegree

/-- A spill candidate with as many neighbors as there are colors is none with one neighbor less. -/
theorem on_spill_decrementDegree :
    (round.decrementDegree reg).On .spill reg ↔
      round.On .spill reg ∧ (reg.isPhysical = false → round.degree reg ≠ round.k) := by
  unfold decrementDegree
  split
  · next physical => simp [physical]
  · next notPhysical =>
      have virtual : reg.isPhysical = false := (Bool.not_eq_true _).mp notPhysical
      dsimp only
      split
      · next low =>
          simp only [Bool.and_eq_true, decide_eq_true_eq] at low
          have left : (if ((round.modifyDegree reg (· - 1)).enableMoves
              ((round.modifyDegree reg (· - 1)).adjacent reg ++ [reg])).isMoveRelated reg = true
              then Worklist.freeze else .simplify) ≠ .spill := by
            split <;> exact nofun
          rw [on_enter]
          constructor
          · rintro (⟨isSpill, _⟩ | ⟨different, _⟩)
            · exact absurd isSpill.symm left
            · exact absurd rfl different
          · exact fun both => absurd low.1 (both.2 virtual)
      · next high =>
          rw [on_modifyDegree]
          refine ⟨fun on => ⟨on, fun _ low => high ?_⟩, And.left⟩
          simp only [Bool.and_eq_true, decide_eq_true_eq, Std.TreeMap.contains_iff_mem]
          have onSpill : (round.modifyDegree reg (· - 1)).On .spill reg := on_modifyDegree.mpr on
          exact ⟨low, onSpill⟩

theorem Sorted.decrementDegree (sorted : round.Sorted other)
    (counts : other = reg → 0 < round.degree reg) : (round.decrementDegree reg).Sorted other := by
  unfold Sorted at sorted ⊢
  rw [(Shuffles.decrementDegree round reg).k, degree_decrementDegree]
  by_cases same : other = reg
  · subst same
    have counts := counts rfl
    rw [on_spill_decrementDegree, sorted]
    cases kind : other.isPhysical with
    | true => simp
    | false =>
        simp only [true_implies, and_self, if_true]
        omega
  · rw [on_decrementDegree_of_ne same, if_neg fun both => same both.1]
    exact sorted

/-- Registers that are ready to be stacked stay so. -/
theorem on_simplify_decrementDegree (distinct : round.Distinct) (on : round.On .simplify other) :
    (round.decrementDegree reg).On .simplify other := by
  by_cases same : other = reg
  · subst same
    unfold Round.decrementDegree
    split
    · exact on
    · dsimp only
      split
      · next low =>
          simp only [Bool.and_eq_true, Std.TreeMap.contains_iff_mem] at low
          have onSpill : (round.modifyDegree other (· - 1)).On .spill other := low.2
          cases distinct other .simplify .spill on (on_modifyDegree.mp onSpill)
      · exact on_modifyDegree.mpr on
  · exact (on_decrementDegree_of_ne same).mpr on

theorem on_addEdge {a b : Reg} :
    (round.addEdge a b).On list reg ↔ round.On list reg := by
  unfold addEdge
  split
  · rw [on_modifyDegree, on_modifyDegree]
    cases list <;> exact Iff.rfl
  · exact Iff.rfl

/-- Handing a neighbor over keeps every register sorted but the one that gets it. -/
theorem Sorted.handOver {u t : Reg} (sorted : round.Sorted other) (listed : round.Listed other)
    (virtual : other.isPhysical = false) (different : other ≠ u)
    (counts : other = t → 0 < round.degree t) : (handOver u round t).Sorted other := by
  have joined := Shuffles.addEdge round t u
  unfold Sorted at sorted ⊢
  rw [(Shuffles.handOver u round t).k]
  unfold Round.handOver
  rw [degree_decrementDegree, degree_addEdge listed]
  by_cases same : other = t
  · subst same
    have counts := counts rfl
    rw [on_spill_decrementDegree, on_addEdge, degree_addEdge listed, joined.k, sorted]
    simp only [virtual, true_implies, true_or, and_true]
    split <;> simp only [if_true] <;> omega
  · rw [on_decrementDegree_of_ne same, on_addEdge, if_neg fun both => same both.1,
      if_neg (by simp [same, different])]
    exact sorted

theorem Sorted.enter (moved : other = reg → (list = .spill ↔ round.k ≤ round.degree other))
    (sorted : other ≠ reg → round.Sorted other) : (round.enter list reg).Sorted other := by
  have sameColors : (round.enter list reg).k = round.k := by cases list <;> rfl
  unfold Sorted at sorted ⊢
  rw [sameColors, degree_enter, on_enter]
  by_cases same : other = reg
  · simp only [same, and_true, ne_eq, not_true_eq_false, false_and, or_false]
    rw [eq_comm, ← same]
    exact moved same
  · simp only [same, and_false, false_or, ne_eq, not_false_eq_true, true_and]
    exact sorted same

/-- The register is on its list; an exempt one is to be stacked whatever its number. -/
structure Placed (exempt : Reg → Prop) (round : Round m) (reg : Reg) : Prop where
  sorted : ¬ exempt reg → round.Sorted reg
  ready : exempt reg → round.On .simplify reg

variable {exempt : Reg → Prop}

theorem Placed.decrementDegree (placed : Placed exempt round other) (distinct : round.Distinct)
    (counts : other = reg → 0 < round.degree reg) :
    Placed exempt (round.decrementDegree reg) other where
  sorted plain := (placed.sorted plain).decrementDegree counts
  ready isExempt := on_simplify_decrementDegree distinct (placed.ready isExempt)

theorem Placed.handOver {u t : Reg} (placed : Placed exempt round other) (distinct : round.Distinct)
    (listed : round.Listed other) (virtual : other.isPhysical = false) (different : other ≠ u)
    (counts : other = t → 0 < round.degree t) : Placed exempt (handOver u round t) other where
  sorted plain := (placed.sorted plain).handOver listed virtual different counts
  ready isExempt := on_simplify_decrementDegree ((Shuffles.addEdge round t u).distinct distinct)
    (on_addEdge.mpr (placed.ready isExempt))

end Sorting

theorem Distinct.freezeMove (distinct : round.Distinct) (u : Reg) (move : Fin m) :
    (freezeMove u round move).Distinct := by
  have marked : (round.setMoveState move .frozen).Distinct :=
    fun reg first second onFirst onSecond =>
      distinct reg first second (on_setMoveState.mp onFirst) (on_setMoveState.mp onSecond)
  rcases freezeMove_cases u round move with outcome | ⟨v, _, _, outcome⟩
  · exact outcome ▸ marked
  · exact outcome ▸ marked.enter .simplify v

/-- The numbers beside registers are right, and the registers are on their lists, but for exempt
ones. -/
structure Tallied (exempt : Reg → Prop) (round : Round m) : Prop where
  exact : round.Owing []
  placed : ∀ reg, round.Listed reg → Placed exempt round reg

namespace Tallied

variable {origin : InterferenceGraph} {exempt : Reg → Prop}

variable (tallied : Tallied exempt round) {list : Worklist}
include tallied

theorem length_adjacent (listed : round.Listed reg) :
    (round.adjacent reg).length = round.degree reg :=
  (tallied.exact reg listed).symm

theorem not_exempt (on : round.On list reg) (distinct : round.Distinct)
    (waits : list ≠ .simplify) : ¬ exempt reg := fun isExempt =>
  waits (distinct reg list .simplify on ((tallied.placed reg ⟨list, on⟩).ready isExempt))

theorem le_degree (on : round.On .spill reg)
    (distinct : round.Distinct) : round.k ≤ round.degree reg :=
  ((tallied.placed reg ⟨.spill, on⟩).sorted (tallied.not_exempt on distinct nofun)).mp on

theorem degree_lt (on : round.On list reg) (distinct : round.Distinct) (few : list ≠ .spill)
    (plain : ¬ exempt reg) :
    round.degree reg < round.k := by
  rw [← Nat.not_le]
  intro many
  have onSpill := ((tallied.placed reg ⟨list, on⟩).sorted plain).mpr many
  exact few (distinct reg list .spill on onSpill)

theorem of_moveStates (states : Table m MoveState) :
    Tallied exempt { round with moveStates := states } := by
  have listed {reg : Reg} (listed : Round.Listed { round with moveStates := states } reg) :
      round.Listed reg := by
    obtain ⟨list, on⟩ := listed
    exact ⟨list, by cases list <;> exact on⟩
  exact ⟨fun reg isListed => tallied.exact reg (listed isListed), fun reg isListed =>
    ⟨(tallied.placed reg (listed isListed)).sorted, (tallied.placed reg (listed isListed)).ready⟩⟩

/-- A register may move to the list that its neighbors ask for, or become exempt. -/
theorem enter {wider : Reg → Prop} (listed : round.Listed reg)
    (others : ∀ other, other ≠ reg → (wider other ↔ exempt other))
    (asked : ¬ wider reg → (list = .spill ↔ round.k ≤ round.degree reg))
    (free : wider reg → list = .simplify) : Tallied wider (round.enter list reg) where
  exact other listedOther := by
    have still := (listed_enter listed other).mp listedOther
    have sameAdjacent : (round.enter list reg).adjacent other = round.adjacent other := by
      unfold Round.adjacent
      rw [graph_enter]
      refine List.filter_congr fun neighbor _ => ?_
      rw [Bool.eq_iff_iff, isPresent_iff, isPresent_iff, listed_enter listed]
    rw [degree_enter, sameAdjacent]
    exact tallied.exact other still
  placed other listedOther := by
    have placed := tallied.placed other ((listed_enter listed other).mp listedOther)
    constructor
    · intro plain
      exact Sorted.enter (fun same => same ▸ asked (same ▸ plain)) fun different =>
        placed.sorted ((others other different).not.mp plain)
    · intro isExempt
      rw [on_enter]
      by_cases same : other = reg
      · exact .inl ⟨(free (same ▸ isExempt)).symm, same⟩
      · exact .inr ⟨same, placed.ready ((others other same).mp isExempt)⟩

/-- A register with few neighbors may become ready to be stacked. -/
theorem enter_simplify (listed : round.Listed reg)
    (few : round.degree reg < round.k) : Tallied exempt (round.enter .simplify reg) :=
  tallied.enter listed (fun _ _ => Iff.rfl)
    (fun _ => ⟨nofun, fun many => absurd few (Nat.not_lt.mpr many)⟩) fun _ => rfl

theorem addWorklist (present : round.isPresent reg = true) :
    Tallied exempt (round.addWorklist reg) := by
  unfold Round.addWorklist
  split
  · next free =>
      simp only [Bool.and_eq_true, Bool.not_eq_true', decide_eq_true_eq] at free
      have listed := (isPresent_iff.mp present).resolve_left (by simp [free.1.1])
      exact tallied.enter_simplify listed free.2
  · exact tallied

theorem simplify (invariant : Invariant origin round)
    (on : round.On .simplify reg) : Tallied exempt (round.simplify reg) := by
  have virtual (other : Reg) (listed : (round.stacked reg).Listed other) :=
    invariant.listed_not_physical (listed_stacked.mp listed).2
  have owing : (round.stacked reg).Owing ((round.stacked reg).adjacent reg) :=
    tallied.exact.leave rfl invariant.undirected (invariant.listed_not_physical ⟨.simplify, on⟩)
      ⟨.simplify, on⟩ (fun _ => listed_stacked) fun other different => degree_leave_of_ne different
  have placed (other : Reg) (listed : (round.stacked reg).Listed other) :
      Placed exempt (round.stacked reg) other := by
    obtain ⟨different, listed⟩ := listed_stacked.mp listed
    refine ⟨fun plain => ?_, fun isExempt =>
      on_stacked.mpr ⟨different, (tallied.placed other listed).ready isExempt⟩⟩
    unfold Sorted
    rw [on_stacked]
    change _ ↔ round.k ≤ (round.leave reg).degree other
    rw [degree_leave_of_ne different, and_iff_right different]
    exact (tallied.placed other listed).sorted plain
  have distinct : (round.stacked reg).Distinct := fun other first second onFirst onSecond =>
    invariant.distinct other first second (on_stacked.mp onFirst).2 (on_stacked.mp onSecond).2
  rw [simplify_eq]
  generalize (round.stacked reg).adjacent reg = debtors at owing ⊢
  generalize round.stacked reg = start at owing placed virtual distinct
  -- every debtor pays in its turn
  induction debtors generalizing start with
  | nil => exact ⟨owing, placed⟩
  | cons debtor rest ih =>
      have shuffles := Shuffles.decrementDegree start debtor
      refine ih _ (owing.decrementDegree virtual)
        (fun other listed => ?_) (fun other listed => virtual other ((shuffles.listed other).mp listed))
        (shuffles.distinct distinct)
      have wasListed := (shuffles.listed other).mp listed
      exact (placed other wasListed).decrementDegree distinct fun same =>
        owing.pos_of_mem (same ▸ wasListed) List.mem_cons_self

theorem freezeMove (distinct : round.Distinct) (u : Reg)
    (move : Fin m) : Tallied exempt (freezeMove u round move) := by
  have marked : Tallied exempt (round.setMoveState move .frozen) := tallied.of_moveStates _
  rcases freezeMove_cases u round move with outcome | ⟨v, on, _, outcome⟩
  · exact outcome ▸ marked
  · have few : round.degree v < round.k :=
      tallied.degree_lt on distinct nofun (tallied.not_exempt on distinct nofun)
    exact outcome ▸ marked.enter_simplify ⟨.freeze, on⟩ few

theorem freezeMoves (distinct : round.Distinct) (reg : Reg) :
    Tallied exempt (round.freezeMoves reg) := by
  unfold Round.freezeMoves
  generalize round.pendingMoves reg = given
  induction given generalizing round with
  | nil => exact tallied
  | cons move rest ih =>
      exact ih (tallied.freezeMove distinct reg move) (distinct.freezeMove reg move)

theorem freeze (distinct : round.Distinct)
    (on : round.On .freeze reg) : Tallied exempt (round.freeze reg) := by
  have few : round.degree reg < round.k :=
    tallied.degree_lt on distinct nofun (tallied.not_exempt on distinct nofun)
  exact (tallied.enter_simplify ⟨.freeze, on⟩ few).freezeMoves (distinct.enter .simplify reg) reg

theorem pick (distinct : round.Distinct) (on : round.On .spill reg) :
    Tallied (fun other => exempt other ∨ other = reg) (round.freeze reg) := by
  have entered : Tallied (fun other => exempt other ∨ other = reg) (round.enter .simplify reg) :=
    tallied.enter ⟨.spill, on⟩ (fun other different => or_iff_left different)
      (fun plain => absurd (.inr rfl) plain) fun _ => rfl
  exact entered.freezeMoves (distinct.enter .simplify reg) reg

end Tallied

section Merging

variable {origin : InterferenceGraph} {exempt : Reg → Prop} {u v : Reg}

theorem on_handOver_self {t : Reg} {list : Worklist} (different : u ≠ t) :
    (handOver u round t).On list u ↔ round.On list u := by
  unfold handOver
  rw [on_decrementDegree_of_ne different, on_addEdge]

theorem degree_le_handOver {t : Reg} (listed : round.Listed u) (different : u ≠ t) :
    round.degree u ≤ (handOver u round t).degree u := by
  unfold handOver
  rw [degree_decrementDegree, if_neg fun both => different both.1, degree_addEdge listed]
  split <;> omega

/-- Handing all neighbors over settles what they owe.  The register that gets them may have more
neighbors than before, and stays where it was. -/
theorem Owing.foldl_handOver {ts : List Reg} (owing : round.Owing ts)
    (undirected : round.graph.Undirected) (distinct : round.Distinct)
    (virtual : ∀ other, round.Listed other → other.isPhysical = false)
    (placed : ∀ other, round.Listed other → other ≠ u → Placed exempt round other)
    (presentU : round.isPresent u = true) (present : ∀ t ∈ ts, round.isPresent t = true)
    (apart : u ∉ ts) :
    (ts.foldl (handOver u) round).Owing [] ∧
      (∀ other, round.Listed other → other ≠ u →
        Placed exempt (ts.foldl (handOver u) round) other) ∧
      (∀ list, (ts.foldl (handOver u) round).On list u ↔ round.On list u) ∧
      (round.Listed u → round.degree u ≤ (ts.foldl (handOver u) round).degree u) := by
  induction ts generalizing round with
  | nil => exact ⟨owing, placed, fun _ => Iff.rfl, fun _ => Nat.le_refl _⟩
  | cons t rest ih =>
      obtain ⟨different, apart⟩ := not_or.mp (List.mem_cons.not.mp apart)
      have joined := Shuffles.addEdge round t u
      have shuffles := Shuffles.handOver u round t
      have settled : (handOver u round t).Owing rest :=
        (owing.addEdge undirected (present t List.mem_cons_self) presentU).decrementDegree
          fun other listed => virtual other ((joined.listed other).mp listed)
      have undirectedNext : (handOver u round t).graph.Undirected := by
        unfold handOver
        rw [graph_decrementDegree]
        exact undirected_addEdge undirected t u
      obtain ⟨paid, placedNext, stays, grows⟩ := ih settled undirectedNext
        (shuffles.distinct distinct)
        (fun other listed => virtual other ((shuffles.listed other).mp listed))
        (fun other listed notU =>
          have wasListed := (shuffles.listed other).mp listed
          (placed other wasListed notU).handOver distinct wasListed (virtual other wasListed) notU
            fun same => owing.pos_of_mem (same ▸ wasListed) List.mem_cons_self)
        ((shuffles.isPresent u).trans presentU)
        (fun other member =>
          (shuffles.isPresent other).trans (present other (List.mem_cons_of_mem _ member)))
        apart
      refine ⟨paid, fun other listed => placedNext other ((shuffles.listed other).mpr listed),
        fun list => (stays list).trans (on_handOver_self different), fun listed => ?_⟩
      exact Nat.le_trans (degree_le_handOver listed different)
        (grows ((shuffles.listed u).mpr listed))

theorem listed_handAllOver :
    (round.handAllOver u v).Listed reg ↔ reg ≠ v ∧ round.Listed reg := by
  rw [(Shuffles.handAllOver round u v).listed]
  unfold Listed
  simp only [on_absorb]
  exact exists_and_left

/-- When all neighbors of `v` are handed over to `u`, only `u` may be on a wrong list. -/
theorem Tallied.handAllOver (tallied : Tallied exempt round) (invariant : Invariant origin round)
    (fit : round.Fit u v) :
    (round.handAllOver u v).Owing [] ∧
      (∀ other, (round.handAllOver u v).Listed other → other ≠ u →
        Placed exempt (round.handAllOver u v) other) ∧
      (∀ list, (round.handAllOver u v).On list u ↔ round.On list u) ∧
      (round.Listed u → round.degree u ≤ (round.handAllOver u v).degree u) := by
  have virtual (other : Reg) (listed : round.Listed other) := invariant.listed_not_physical listed
  have enabled := Shuffles.enableMoves (round.absorb u v) [v]
  have listed (other : Reg) : ((round.absorb u v).enableMoves [v]).Listed other ↔
      other ≠ v ∧ round.Listed other := by
    rw [enabled.listed]
    unfold Listed
    simp only [on_absorb]
    exact exists_and_left
  have sameDegree (other : Reg) (different : other ≠ v) :
      ((round.absorb u v).enableMoves [v]).degree other = round.degree other := by
    rw [degree_enableMoves]
    exact degree_leave_of_ne different
  have sameColors : ((round.absorb u v).enableMoves [v]).k = round.k := enabled.k
  have sameGraph : ((round.absorb u v).enableMoves [v]).graph = round.graph :=
    graph_enableMoves _ _
  have on (list : Worklist) (other : Reg) : ((round.absorb u v).enableMoves [v]).On list other ↔
      other ≠ v ∧ round.On list other := by
    rw [on_enableMoves, on_absorb]
  have distinct : ((round.absorb u v).enableMoves [v]).Distinct :=
    fun reg first second onFirst onSecond =>
      invariant.distinct reg first second ((on _ _).mp onFirst).2 ((on _ _).mp onSecond).2
  have owing := tallied.exact.leave sameGraph invariant.undirected (virtual v fit.listed) fit.listed
    listed sameDegree
  have apart : u ∉ ((round.absorb u v).enableMoves [v]).adjacent v := by
    rw [mem_adjacent, sameGraph]
    intro neighbor
    have edge := invariant.undirected.symm _ _ neighbor.1
    rw [fit.apart] at edge
    cases edge
  have presentU : ((round.absorb u v).enableMoves [v]).isPresent u = true := by
    rw [enabled.isPresent]
    exact isPresent_absorb_of_ne fit.present fit.different
  obtain ⟨paid, placed, stays, grows⟩ := owing.foldl_handOver (sameGraph ▸ invariant.undirected)
    distinct (fun other isListed => virtual other ((listed other).mp isListed).2)
    (fun other isListed _ => by
      obtain ⟨notV, wasListed⟩ := (listed other).mp isListed
      have placed := tallied.placed other wasListed
      refine ⟨fun plain => ?_, fun isExempt => (on _ _).mpr ⟨notV, placed.ready isExempt⟩⟩
      unfold Sorted
      rw [on, and_iff_right notV, sameColors, sameDegree other notV]
      exact placed.sorted plain)
    presentU (fun t member => (mem_adjacent.mp member).2) apart
  refine ⟨paid, fun other isListed => placed other ((listed other).mpr
    (listed_handAllOver.mp isListed)), fun list => ?_, fun isListed => ?_⟩
  · exact (stays list).trans ((on list u).trans (and_iff_right fit.different))
  · have grown := grows ((listed u).mpr ⟨fit.different, isListed⟩)
    rw [sameDegree u fit.different] at grown
    exact grown

theorem Tallied.combine (tallied : Tallied exempt round) (invariant : Invariant origin round)
    (fit : round.Fit u v) : Tallied exempt (round.combine u v) := by
  obtain ⟨exact, placed, stays, grows⟩ := tallied.handAllOver invariant fit
  have sameColors : (round.handAllOver u v).k = round.k := (Shuffles.handAllOver round u v).k
  -- `u` has pending copies, so it is not exempt
  have plain (listed : round.Listed u) : ¬ exempt u := fun isExempt =>
    fit.busy ((tallied.placed u listed).ready isExempt)
  rw [combine_eq]
  split
  · next high =>
      -- `u` has become a spill candidate
      simp only [Bool.and_eq_true, Std.TreeMap.contains_iff_mem] at high
      have onFreeze : (round.handAllOver u v).On .freeze u := high.2
      have wasListed : round.Listed u := ⟨.freeze, (stays .freeze).mp onFreeze⟩
      have virtual : u.isPhysical = false := invariant.listed_not_physical wasListed
      have many : (round.handAllOver u v).k ≤ (round.handAllOver u v).degree u := by
        simpa [isSignificant, virtual] using high.1
      refine ⟨exact.congr (.enter ⟨.freeze, onFreeze⟩ nofun) (graph_enter _ _ _)
        (degree_enter _ _ _), fun other listed => ?_⟩
      by_cases isU : other = u
      · subst isU
        exact ⟨fun _ => Sorted.enter (fun _ => iff_of_true rfl many) fun different => absurd rfl different,
          fun isExempt => absurd isExempt (plain wasListed)⟩
      · have was := placed other ((listed_enter ⟨.freeze, onFreeze⟩ other).mp listed) isU
        exact ⟨fun plain => Sorted.enter (fun same => absurd same isU) fun _ => was.sorted plain,
          fun isExempt => on_enter.mpr (.inr ⟨isU, was.ready isExempt⟩)⟩
  · next low =>
      refine ⟨exact, fun other listed => ?_⟩
      by_cases isU : other = u
      · subst isU
        obtain ⟨list, on⟩ := listed
        have wasOn := (stays list).mp on
        refine ⟨fun _ => ?_, fun isExempt => absurd isExempt (plain ⟨list, wasOn⟩)⟩
        unfold Sorted
        rw [stays, sameColors]
        cases list with
        | simplify => exact absurd wasOn fit.busy
        | freeze =>
            have few : ¬ round.k ≤ (round.handAllOver other v).degree other := by
              intro many
              apply low
              simp only [Bool.and_eq_true, Std.TreeMap.contains_iff_mem, isSignificant,
                Bool.or_eq_true, decide_eq_true_eq]
              exact ⟨.inr (sameColors.symm ▸ many), on⟩
            refine iff_of_false (fun onSpill => ?_) few
            cases invariant.distinct other .freeze .spill wasOn onSpill
        | spill =>
            refine iff_of_true wasOn (Nat.le_trans ?_ (grows ⟨.spill, wasOn⟩))
            exact tallied.le_degree wasOn invariant.distinct
      · exact placed other listed isU

end Merging

/-- The numbers beside registers are right, and the registers are on their lists. -/
structure Counted (round : Round m) : Prop where
  exact : round.Owing []
  sorted : ∀ reg, round.Listed reg → round.Sorted reg

/-- Counted rounds are those without exempt registers. -/
theorem counted_iff : Counted round ↔ Tallied (fun _ => False) round :=
  ⟨fun counted => ⟨counted.exact, fun reg listed => ⟨fun _ => counted.sorted reg listed, False.elim⟩⟩,
    fun tallied => ⟨tallied.exact, fun reg listed => (tallied.placed reg listed).sorted id⟩⟩

namespace Counted

theorem length_adjacent (counted : Counted round) (listed : round.Listed reg) :
    (round.adjacent reg).length = round.degree reg :=
  (counted_iff.mp counted).length_adjacent listed

theorem degree_lt (counted : Counted round) {list : Worklist} (on : round.On list reg)
    (distinct : round.Distinct) (few : list ≠ .spill) : round.degree reg < round.k :=
  (counted_iff.mp counted).degree_lt on distinct few id

theorem of_moveStates (counted : Counted round) (states : Table m MoveState) :
    Counted { round with moveStates := states } :=
  counted_iff.mpr ((counted_iff.mp counted).of_moveStates states)

end Counted

end Machine.Round

end Lowering
