import Lowering.Proofs.Allocation.Invariant

/-!
# Steps of a round

Stacking a register, considering a copy and giving copies up keep the invariant of a round and make
it lighter.  So a round comes to an end within its bound, and then no register is left on a
worklist.
-/

namespace Lowering.Machine.Round

variable {m : Nat} {origin : InterferenceGraph} {round : Round m}

section Stacking

/-- The first part of stacking a register: it leaves the graph. -/
def stacked (round : Round m) (reg : Reg) : Round m :=
  { round.leave reg with stack := reg :: round.stack }

theorem simplify_eq (round : Round m) (reg : Reg) :
    round.simplify reg =
      ((round.stacked reg).adjacent reg).foldl decrementDegree (round.stacked reg) := rfl

variable {reg other : Reg}

theorem on_stacked {list : Worklist} :
    (round.stacked reg).On list other ↔ other ≠ reg ∧ round.On list other := by
  rw [← on_leave]
  cases list <;> rfl

theorem listed_stacked :
    (round.stacked reg).Listed other ↔ other ≠ reg ∧ round.Listed other := by
  unfold Listed
  simp only [on_stacked]
  exact exists_and_left

theorem isPresent_of_stacked
    (present : (round.stacked reg).isPresent other = true) : round.isPresent other = true := by
  rw [isPresent_iff] at present ⊢
  exact present.imp_right fun listed => (listed_stacked.mp listed).2

theorem representative_stacked (reg : Reg) :
    (round.stacked reg).representative = round.representative :=
  representative_congr rfl

theorem Invariant.stacked (invariant : Invariant origin round)
    (on : round.On .simplify reg) : Invariant origin (round.stacked reg) := by
  have same : (round.stacked reg).representative = round.representative :=
    representative_stacked reg
  have present : round.isPresent reg = true := isPresent_iff.mpr (.inr ⟨.simplify, on⟩)
  exact
    { source := invariant.source
      undirected := invariant.undirected
      distinct := fun other first second onFirst onSecond =>
        invariant.distinct other first second (on_stacked.mp onFirst).2 (on_stacked.mp onSecond).2
      rooted := fun other => same ▸ invariant.rooted other
      own := fun other => by
        rw [← invariant.own, listed_stacked]
        change _ ∨ other ∈ reg :: round.stack ∨ other ∈ round.merged ↔ _
        rw [List.mem_cons]
        by_cases equal : other = reg
        · subst equal
          simp only [ne_eq, not_true_eq_false, false_and, true_or, or_true, true_iff]
          exact .inl ⟨.simplify, on⟩
        · simp only [ne_eq, equal, not_false_eq_true, true_and, false_or]
      listed_not_stacked := fun other listed member => by
        obtain ⟨different, listed⟩ := listed_stacked.mp listed
        rcases List.mem_cons.mp member with equal | member
        · exact different equal
        · exact invariant.listed_not_stacked other listed member
      listed_not_merged := fun other listed =>
        invariant.listed_not_merged other (listed_stacked.mp listed).2
      stacked_not_merged := fun other member => by
        rcases List.mem_cons.mp member with equal | member
        · rw [equal]
          exact invariant.listed_not_merged reg ⟨.simplify, on⟩
        · exact invariant.stacked_not_merged other member
      stack_nodup :=
        List.nodup_cons.mpr
          ⟨invariant.listed_not_stacked reg ⟨.simplify, on⟩, invariant.stack_nodup⟩
      target := invariant.target
      separate := same ▸ invariant.separate
      joined := fun a b edge presentA presentB => by
        rw [same] at presentA presentB ⊢
        exact invariant.joined a b edge (isPresent_of_stacked presentA)
          (isPresent_of_stacked presentB)
      seen := fun a b edge later earlier split notEarlier => by
        rw [same] at split notEarlier ⊢
        change reg :: round.stack = _ at split
        cases later with
        | nil =>
            -- the register just stacked: all that is not stacked yet is in the graph beside it
            simp only [List.nil_append, List.cons.injEq] at split
            obtain ⟨isReg, isStack⟩ := split
            rw [← isStack] at notEarlier
            have nodeB := Graph.mem_nodes_of_hasEdge (invariant.source.symm a b edge)
            have presentB := (invariant.representative_cases nodeB).resolve_right notEarlier
            refine ⟨round.representative b, ?_, ?_⟩
            · exact invariant.joined a b edge (isReg ▸ present) presentB
            · exact representative_of_not_merged (invariant.rooted b)
        | cons first later =>
            simp only [List.cons_append, List.cons.injEq] at split
            exact invariant.seen a b edge later earlier split.2 notEarlier
      operands := invariant.operands
      recorded := fun move pending => same ▸ invariant.recorded move pending
      idle := fun other calm => by
        apply invariant.idle other
        rcases calm with ready | member
        · exact .inl (on_stacked.mp ready).2
        · rcases List.mem_cons.mp member with equal | member
          · exact .inl (equal ▸ on)
          · exact .inr member }

theorem weight_simplify_lt (distinct : round.Distinct) (on : round.On .simplify reg) :
    (round.simplify reg).weight < round.weight := by
  have left := weight_leave distinct on
  have sameWeight : (round.stacked reg).weight = (round.leave reg).weight := rfl
  have stacked : (round.stacked reg).Distinct := fun other first second onFirst onSecond =>
    distinct other first second (on_stacked.mp onFirst).2 (on_stacked.mp onSecond).2
  have lighter := weight_foldl_decrementDegree_le ((round.stacked reg).adjacent reg) stacked
  rw [simplify_eq]
  simp only [cost] at left
  omega

end Stacking

section Freezing

theorem Shuffles.freeze {reg : Reg} (listed : round.Listed reg) :
    Shuffles round (round.freeze reg) := by
  have given := Shuffles.freezeMoves (round.enter .simplify reg) reg
  exact
    { pool := given.pool
      merged := given.merged
      stack := given.stack
      moves := given.moves
      moveLists := given.moveLists
      listed := fun other => (given.listed other).trans (listed_enter listed other)
      distinct := fun distinct => given.distinct (distinct.enter .simplify reg)
      ready := fun other on => by
        rcases given.ready other on with entered | idle
        · rcases on_enter.mp entered with ⟨_, same⟩ | ⟨_, before⟩
          · right
            subst same
            exact isMoveRelated_freezeMoves _ _
          · exact .inl before
        · exact .inr idle
      settled := given.settled
      unmerged := given.unmerged }

theorem weight_freeze_lt (distinct : round.Distinct) {reg : Reg} {list : Worklist}
    (on : round.On list reg) (waits : list ≠ .simplify) :
    (round.freeze reg).weight < round.weight := by
  have moved := weight_enter .simplify distinct on
  have lighter := weight_freezeMoves_le (distinct.enter .simplify reg) reg
  have cheaper : cost m .simplify < cost m list := by
    cases list with
    | simplify => exact absurd rfl waits
    | freeze => exact Nat.lt_succ_self _
    | spill =>
        simp only [cost]
        omega
  change ((round.enter .simplify reg).freezeMoves reg).weight < _
  omega

end Freezing

section Coalescing

/-- When `v` may be merged into `u`. -/
structure Fit (round : Round m) (u v : Reg) : Prop where
  listed : round.Listed v
  present : round.isPresent u = true
  different : u ≠ v
  apart : round.graph.hasEdge u v = false
  pooled : u.isPhysical = true → round.isInPool u = true
  busy : ¬ round.On .simplify u

variable {u v reg : Reg}

theorem Fit.setMoveState (fit : round.Fit u v) (move : Fin m) (state : MoveState) :
    (round.setMoveState move state).Fit u v :=
  ⟨fit.listed, fit.present, fit.different, fit.apart, fit.pooled, fit.busy⟩

theorem listed_combine :
    (round.combine u v).Listed reg ↔ reg ≠ v ∧ round.Listed reg := by
  rw [(Shuffles.combine round u v).listed]
  unfold Listed
  simp only [on_absorb]
  exact exists_and_left

theorem isPresent_absorb_of_ne (present : round.isPresent reg = true)
    (different : reg ≠ v) : (round.absorb u v).isPresent reg = true := by
  rw [isPresent_iff] at present ⊢
  refine present.imp_right fun ⟨list, on⟩ => ⟨list, on_absorb.mpr ⟨different, on⟩⟩

theorem isPresent_of_combine (present : (round.combine u v).isPresent reg = true) :
    round.isPresent reg = true := by
  rw [isPresent_iff] at present ⊢
  exact present.imp_right fun listed => (listed_combine.mp listed).2

theorem getD_insert_moveLists {lists : RegMap (List (Fin m))} {moves : List (Fin m)} :
    (lists.insert u moves).getD reg [] = if u = reg then moves else lists.getD reg [] := by
  rw [Std.TreeMap.getD_insert]
  by_cases same : u = reg
  · rw [if_pos (Reg.order_eq_iff.mpr same), if_pos same]
  · rw [if_neg fun equal => same (Reg.order_eq_iff.mp equal), if_neg same]

/-- Copies stay recorded when the registers they are recorded with are merged. -/
theorem recorded_absorb {move : Fin m} (recorded : move ∈ round.moveLists.getD reg []) :
    move ∈ (round.absorb u v).moveLists.getD (if reg = v then u else reg) [] := by
  change move ∈ (round.moveLists.insert u _).getD _ []
  have both (listed : move ∈ round.moveLists.getD u [] ∨ move ∈ round.moveLists.getD v []) :
      move ∈ (List.finRange m).filter fun move =>
        (round.moveLists.getD u []).contains move || (round.moveLists.getD v []).contains move := by
    simpa only [List.mem_filter, List.mem_finRange, true_and, Bool.or_eq_true,
      List.contains_iff_mem] using listed
  by_cases isV : reg = v
  · rw [if_pos isV, getD_insert_moveLists, if_pos rfl]
    exact both (.inr (isV ▸ recorded))
  · rw [if_neg isV, getD_insert_moveLists]
    split
    · next isU => exact both (.inl (isU ▸ recorded))
    · exact recorded

theorem isMoveRelated_absorb (different : reg ≠ u) :
    (round.absorb u v).isMoveRelated reg = round.isMoveRelated reg := by
  rw [Bool.eq_iff_iff, isMoveRelated_iff, isMoveRelated_iff]
  change (∃ move, move ∈ (round.moveLists.insert u _).getD reg [] ∧ _) ↔ _
  rw [getD_insert_moveLists, if_neg (Ne.symm different)]
  rfl

namespace Invariant

variable (invariant : Invariant origin round)
include invariant

theorem representative_combine (fit : round.Fit u v)
    (reg : Reg) : (round.combine u v).representative reg =
      if round.representative reg = v then u else round.representative reg :=
  representative_insert invariant.rooted (Shuffles.combine round u v).merged
    (invariant.listed_not_merged v fit.listed) (invariant.not_merged_of_present fit.present)
    fit.different reg

variable {reg a b : Reg}

omit invariant in
theorem mem_merged_combine :
    reg ∈ (round.combine u v).merged ↔ reg = v ∨ reg ∈ round.merged := by
  have inserted : (round.combine u v).merged = round.merged.insert v u :=
    (Shuffles.combine round u v).merged
  rw [inserted, Std.TreeMap.mem_insert, Reg.order_eq_iff, eq_comm]

/-- Registers that interfere are not represented by two that can be merged. -/
theorem not_edge_of_fit (fit : round.Fit u v) (edge : origin.hasEdge a b = true)
    (isV : round.representative a = v) :
    round.representative b ≠ u := by
  intro isU
  have presentV : round.isPresent v = true := isPresent_iff.mpr (.inr fit.listed)
  have joined := invariant.joined a b edge (isV ▸ presentV) (isU ▸ fit.present)
  rw [isV, isU] at joined
  have reversed := invariant.undirected.symm v u joined
  rw [fit.apart] at reversed
  cases reversed

theorem separate_combine (fit : round.Fit u v) (edge : origin.hasEdge a b = true) :
    (round.combine u v).representative a ≠ (round.combine u v).representative b := by
  rw [invariant.representative_combine fit, invariant.representative_combine fit]
  have before := invariant.separate a b edge
  split
  · next isV =>
      split
      · next isV' => exact absurd (isV.trans isV'.symm) before
      · exact fun equal => invariant.not_edge_of_fit fit edge isV equal.symm
  · split
    · next isV' => exact invariant.not_edge_of_fit fit (invariant.source.symm a b edge) isV'
    · exact before

/-- Where `v` represented one end of an edge, `u` is joined with the other end from now on. -/
theorem joined_combine_of_merged (fit : round.Fit u v) (edge : origin.hasEdge a b = true)
    (isV : round.representative a = v)
    (present : round.isPresent (round.representative b) = true) :
    (round.combine u v).graph.hasEdge u (round.representative b) = true := by
  have notV : round.representative b ≠ v := fun isV' =>
    invariant.separate a b edge (isV.trans isV'.symm)
  have presentV : round.isPresent v = true := isPresent_iff.mpr (.inr fit.listed)
  have joined := invariant.joined a b edge (isV ▸ presentV) present
  rw [isV] at joined
  exact (hasEdge_combine invariant.undirected).mpr (.inl ⟨_, joined,
    isPresent_absorb_of_ne present notV, invariant.not_edge_of_fit fit edge isV, .inr ⟨rfl, rfl⟩⟩)

theorem joined_combine (fit : round.Fit u v) (edge : origin.hasEdge a b = true)
    (presentA : (round.combine u v).isPresent ((round.combine u v).representative a) = true)
    (presentB : (round.combine u v).isPresent ((round.combine u v).representative b) = true) :
    (round.combine u v).graph.hasEdge ((round.combine u v).representative a)
      ((round.combine u v).representative b) = true := by
  simp only [invariant.representative_combine fit] at presentA presentB ⊢
  by_cases isV : round.representative a = v
  · have notV : round.representative b ≠ v := fun isV' =>
      invariant.separate a b edge (isV.trans isV'.symm)
    rw [if_neg notV] at presentB
    rw [if_pos isV, if_neg notV]
    exact invariant.joined_combine_of_merged fit edge isV (isPresent_of_combine presentB)
  rw [if_neg isV] at presentA
  by_cases isV' : round.representative b = v
  · have reversed := invariant.source.symm a b edge
    rw [if_neg isV, if_pos isV']
    apply (undirected_combine invariant.undirected u v).symm
    exact invariant.joined_combine_of_merged fit reversed isV' (isPresent_of_combine presentA)
  · rw [if_neg isV'] at presentB
    rw [if_neg isV, if_neg isV']
    refine (hasEdge_combine invariant.undirected).mpr (.inr ?_)
    exact invariant.joined a b edge (isPresent_of_combine presentA) (isPresent_of_combine presentB)

theorem seen_combine (fit : round.Fit u v) (edge : origin.hasEdge a b = true)
    {later earlier : List Reg}
    (split : (round.combine u v).stack = later ++ (round.combine u v).representative a :: earlier)
    (notEarlier : (round.combine u v).representative b ∉ earlier) :
    ∃ neighbor,
      (round.combine u v).graph.hasEdge ((round.combine u v).representative a) neighbor = true ∧
      (round.combine u v).representative neighbor = (round.combine u v).representative b := by
  have sameStack : (round.combine u v).stack = round.stack := (Shuffles.combine round u v).stack
  rw [sameStack, invariant.representative_combine fit] at split
  rw [invariant.representative_combine fit] at notEarlier
  -- the stacked register is neither `u` nor `v`
  have notV : round.representative a ≠ v := by
    intro isV
    rw [if_pos isV] at split
    exact invariant.not_stacked_of_present fit.present
      (split ▸ List.mem_append_right _ List.mem_cons_self)
  rw [if_neg notV] at split
  have before : round.representative b ∉ earlier := by
    intro member
    by_cases isV : round.representative b = v
    · exact invariant.listed_not_stacked v fit.listed
        (isV ▸ split ▸ List.mem_append_right _ (List.mem_cons_of_mem _ member))
    · rw [if_neg isV] at notEarlier
      exact notEarlier member
  obtain ⟨neighbor, joined, same⟩ := invariant.seen a b edge later earlier split before
  refine ⟨neighbor, ?_, ?_⟩
  · rw [invariant.representative_combine fit, if_neg notV]
    exact (hasEdge_combine invariant.undirected).mpr (.inr joined)
  · rw [invariant.representative_combine fit, invariant.representative_combine fit, same]

theorem target_combine (fit : round.Fit u v) {into : Reg}
    (found : (round.combine u v).merged[reg]? = some into) :
    (round.combine u v).isInPool into = true ∨ into.isPhysical = false ∧ into ∈ origin.nodes := by
  have inserted : (round.combine u v).merged = round.merged.insert v u :=
    (Shuffles.combine round u v).merged
  have samePool : (round.combine u v).isInPool into = round.isInPool into := by
    have equal : (round.combine u v).pool = round.pool := (Shuffles.combine round u v).pool
    cases into <;> simp only [isInPool, equal]
  rw [inserted, getElem?_insert_merged] at found
  rw [samePool]
  split at found
  · cases found
    rcases isPresent_iff.mp fit.present with physical | listed
    · exact .inl (fit.pooled physical)
    · exact .inr ((invariant.own u).mp (.inl listed))
  · exact invariant.target reg into found

theorem idle_combine (fit : round.Fit u v)
    (calm : (round.combine u v).On .simplify reg ∨ reg ∈ (round.combine u v).stack) :
    (round.combine u v).isMoveRelated reg = false := by
  have shuffles := Shuffles.combine round u v
  have sameStack : (round.combine u v).stack = round.stack := shuffles.stack
  have still (different : reg ≠ u) (calm : round.On .simplify reg ∨ reg ∈ round.stack) :
      (round.combine u v).isMoveRelated reg = false := by
    apply shuffles.isMoveRelated
    rw [isMoveRelated_absorb different]
    exact invariant.idle reg calm
  rcases calm with on | member
  · rcases shuffles.ready reg on with ready | idle
    · obtain ⟨_, ready⟩ := on_absorb.mp ready
      exact still (fun isU => fit.busy (isU ▸ ready)) (.inl ready)
    · exact idle
  · rw [sameStack] at member
    refine still (fun isU => ?_) (.inr member)
    exact invariant.not_stacked_of_present fit.present (isU ▸ member)

theorem combine (fit : round.Fit u v) :
    Invariant origin (round.combine u v) := by
  have shuffles := Shuffles.combine round u v
  have sameStack : (round.combine u v).stack = round.stack := shuffles.stack
  have sameMoves : (round.combine u v).moves = round.moves := shuffles.moves
  exact
    { source := invariant.source
      undirected := undirected_combine invariant.undirected u v
      distinct := shuffles.distinct fun reg first second onFirst onSecond =>
        invariant.distinct reg first second (on_absorb.mp onFirst).2 (on_absorb.mp onSecond).2
      rooted := invariant.rooted.insert shuffles.merged (invariant.listed_not_merged v fit.listed)
        (invariant.not_merged_of_present fit.present) fit.different
      own := fun reg => by
        rw [← invariant.own, listed_combine, sameStack, mem_merged_combine]
        by_cases equal : reg = v
        · subst equal
          simp only [true_or, or_true, true_iff]
          exact .inl fit.listed
        · simp only [ne_eq, equal, not_false_eq_true, true_and, false_or]
      listed_not_stacked := fun reg listed => by
        rw [sameStack]
        exact invariant.listed_not_stacked reg (listed_combine.mp listed).2
      listed_not_merged := fun reg listed => by
        rw [mem_merged_combine]
        obtain ⟨different, listed⟩ := listed_combine.mp listed
        rintro (equal | merged)
        · exact different equal
        · exact invariant.listed_not_merged reg listed merged
      stacked_not_merged := fun reg member => by
        rw [sameStack] at member
        rw [mem_merged_combine]
        rintro (equal | merged)
        · exact invariant.listed_not_stacked v fit.listed (equal ▸ member)
        · exact invariant.stacked_not_merged reg member merged
      stack_nodup := sameStack ▸ invariant.stack_nodup
      target := fun _ _ => invariant.target_combine fit
      separate := fun _ _ => invariant.separate_combine fit
      joined := fun _ _ => invariant.joined_combine fit
      seen := fun _ _ edge _ _ => invariant.seen_combine fit edge
      operands := sameMoves ▸ invariant.operands
      recorded := fun move pending => by
        have before := invariant.recorded move (shuffles.isPending pending)
        have sameLists : (round.combine u v).moveLists = (round.absorb u v).moveLists :=
          shuffles.moveLists
        rw [sameMoves, invariant.representative_combine fit, invariant.representative_combine fit,
          sameLists]
        exact ⟨recorded_absorb before.1, recorded_absorb before.2⟩
      idle := fun _ => invariant.idle_combine fit }

end Invariant

/-- What considering a copy can do, for the representatives `u` and `v` of its operands. -/
theorem coalesce_cases (round : Round m) (move : Fin m) :
    ∃ u v,
      (u = round.representative (round.moves.get move).dest ∧
          v = round.representative (round.moves.get move).src ∨
        u = round.representative (round.moves.get move).src ∧
          v = round.representative (round.moves.get move).dest) ∧
      (u = v ∧
          round.coalesce move = (round.setMoveState move .coalesced).addWorklist u ∨
        round.coalesce move =
          ((round.setMoveState move .constrained).addWorklist u).addWorklist v ∨
        u ≠ v ∧ v.isPhysical = false ∧ round.graph.hasEdge u v = false ∧
          (u.isPhysical = true → round.isInPool u = true) ∧ round.isMergeable u v = true ∧
          round.coalesce move =
            ((round.setMoveState move .coalesced).combine u v).addWorklist u ∨
        round.coalesce move = round.setMoveState move .active) := by
  unfold coalesce
  dsimp only
  generalize isPair : (if (round.representative (round.moves.get move).src).isPhysical = true then
    (round.representative (round.moves.get move).src,
      round.representative (round.moves.get move).dest)
    else (round.representative (round.moves.get move).dest,
      round.representative (round.moves.get move).src)) = pair
  obtain ⟨u, v⟩ := pair
  refine ⟨u, v, ?_, ?_⟩
  · split at isPair
    · cases isPair
      exact .inr ⟨rfl, rfl⟩
    · cases isPair
      exact .inl ⟨rfl, rfl⟩
  · dsimp only
    split
    · next same => exact .inl ⟨same, rfl⟩
    · next different =>
        right
        split
        · exact .inl rfl
        · next free =>
            right
            simp only [Bool.or_eq_true, Bool.and_eq_true, Bool.not_eq_true', not_or, not_and,
              Bool.not_eq_true, Bool.not_eq_false] at free
            split
            · next safe => exact .inl ⟨different, free.1.1, free.1.2, free.2, safe, rfl⟩
            · exact .inr rfl

end Coalescing

end Lowering.Machine.Round
