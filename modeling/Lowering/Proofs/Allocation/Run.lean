import Lowering.Proofs.Allocation.Steps
import Mathlib.Tactic.Ring

/-!
# Runs of a round

The invariant holds when a round starts and is kept by every step, and every step makes the round
lighter.  The step bound exceeds the weight at the start, so a run goes on until nothing is left to
do: then every register is physical, stacked or merged.
-/

namespace Lowering.Machine.Round

variable {m : Nat} {origin : InterferenceGraph} {pool : List PhysReg} {moves : Table m MoveSite}
  {round next : Round m} {reg : Reg}

/-- The operands of merged copies have the same representative. -/
def Alike (round : Round m) : Prop :=
  ∀ move, round.moveStates.get move = .coalesced →
    round.representative (round.moves.get move).dest =
      round.representative (round.moves.get move).src

/-- What holds of a round of the graph `origin` with a pool and some copies. -/
structure Consistent (origin : InterferenceGraph) (pool : List PhysReg) (moves : Table m MoveSite)
    (round : Round m) : Prop where
  invariant : Invariant origin round
  alike : round.Alike
  pool : round.pool = pool
  moves : round.moves = moves

namespace Consistent

variable (consistent : Consistent origin pool moves round)
include consistent

theorem shuffle {after : Round m} (shuffles : Shuffles round after)
    (sameGraph : after.graph = round.graph) :
    Consistent origin pool moves after where
  invariant := consistent.invariant.shuffle shuffles sameGraph
  alike move coalesced := by
    rw [representative_congr shuffles.merged, shuffles.moves]
    exact consistent.alike move (shuffles.unmerged move coalesced)
  pool := shuffles.pool.trans consistent.pool
  moves := shuffles.moves.trans consistent.moves

theorem simplify {reg : Reg}
    (on : round.On .simplify reg) : Consistent origin pool moves (round.simplify reg) := by
  have stacked : Consistent origin pool moves (round.stacked reg) :=
    { invariant := consistent.invariant.stacked on
      alike := fun move coalesced => by
        rw [representative_stacked]
        exact consistent.alike move coalesced
      pool := consistent.pool
      moves := consistent.moves }
  exact stacked.shuffle (.foldl Shuffles.decrementDegree _ _) (graph_foldl_decrementDegree _ _)

theorem freeze {reg : Reg}
    (listed : round.Listed reg) : Consistent origin pool moves (round.freeze reg) :=
  consistent.shuffle (.freeze listed) (by
    unfold Round.freeze
    rw [graph_freezeMoves, graph_enter])

/-- A pending copy may get any state, `coalesced` only if its operands are merged. -/
theorem setMoveState {move : Fin m} (pending : round.isPending move = true) (state : MoveState)
    (same : state = .coalesced → round.representative (round.moves.get move).dest =
      round.representative (round.moves.get move).src) :
    Consistent origin pool moves (round.setMoveState move state) where
  invariant := consistent.invariant.setMoveState pending state
  alike other coalesced := by
    rw [Invariant.representative_setMoveState]
    change (round.moveStates.set move state).get other = _ at coalesced
    rw [Table.get_set] at coalesced
    split at coalesced
    · next equal => exact equal ▸ same coalesced
    · exact consistent.alike other coalesced
  pool := consistent.pool
  moves := consistent.moves

theorem combine {move : Fin m} {u v : Reg} (pending : round.isPending move = true)
    (operands : u = round.representative (round.moves.get move).dest ∧
        v = round.representative (round.moves.get move).src ∨
      u = round.representative (round.moves.get move).src ∧
        v = round.representative (round.moves.get move).dest)
    (fit : round.Fit u v) :
    Consistent origin pool moves ((round.setMoveState move .coalesced).combine u v) := by
  have invariant := consistent.invariant.setMoveState pending .coalesced
  have shuffles := Shuffles.combine (round.setMoveState move .coalesced) u v
  have merges := fit.setMoveState move .coalesced
  have now (reg : Reg) :
      ((round.setMoveState move .coalesced).combine u v).representative reg =
        if round.representative reg = v then u else round.representative reg := by
    rw [invariant.representative_combine merges, Invariant.representative_setMoveState]
  exact
    { invariant := invariant.combine merges
      alike := fun other coalesced => by
        have sameMoves : ((round.setMoveState move .coalesced).combine u v).moves = round.moves :=
          shuffles.moves
        rw [now, now, sameMoves]
        have before : (round.moveStates.set move .coalesced).get other = .coalesced :=
          shuffles.unmerged other coalesced
        rw [Table.get_set] at before
        split at before
        · next equal =>
            subst equal
            rcases operands with ⟨isU, isV⟩ | ⟨isU, isV⟩
            · rw [← isU, ← isV, if_pos rfl, if_neg fit.different]
            · rw [← isU, ← isV, if_pos rfl, if_neg fit.different]
        · rw [consistent.alike other before]
      pool := shuffles.pool.trans consistent.pool
      moves := shuffles.moves.trans consistent.moves }

end Consistent

/-- What considering a copy can do in a consistent round: its operands' representatives are in the
graph, and fit if they are merged. -/
theorem Consistent.coalesce_cases (consistent : Consistent origin pool moves round) {move : Fin m}
    (waits : round.moveStates.get move = .worklist) :
    ∃ u v,
      (u = round.representative (round.moves.get move).dest ∧
          v = round.representative (round.moves.get move).src ∨
        u = round.representative (round.moves.get move).src ∧
          v = round.representative (round.moves.get move).dest) ∧
      round.isPresent u = true ∧ round.isPresent v = true ∧ ¬ round.On .simplify v ∧
      (u = v ∧ round.coalesce move = (round.setMoveState move .coalesced).addWorklist u ∨
        round.coalesce move =
          ((round.setMoveState move .constrained).addWorklist u).addWorklist v ∨
        round.Fit u v ∧ round.isMergeable u v = true ∧ round.coalesce move =
          ((round.setMoveState move .coalesced).combine u v).addWorklist u ∨
        round.coalesce move = round.setMoveState move .active) := by
  have invariant := consistent.invariant
  have pending : round.isPending move = true := isPending_iff.mpr (.inl waits)
  have recorded := invariant.recorded move pending
  have nodes := invariant.operands move
  obtain ⟨u, v, operands, outcome⟩ := round.coalesce_cases move
  have present (reg : Reg) (isOperand : reg = u ∨ reg = v) :
      round.isPresent reg = true ∧ ¬ round.On .simplify reg := by
    have dest := invariant.present_of_recorded pending nodes.1 recorded.1
    have src := invariant.present_of_recorded pending nodes.2 recorded.2
    rcases operands with ⟨rfl, rfl⟩ | ⟨rfl, rfl⟩ <;> rcases isOperand with rfl | rfl
    all_goals assumption
  obtain ⟨presentU, busyU⟩ := present u (.inl rfl)
  obtain ⟨presentV, busyV⟩ := present v (.inr rfl)
  refine ⟨u, v, operands, presentU, presentV, busyV, ?_⟩
  refine outcome.imp_right (.imp_right (.imp_left ?_))
  rintro ⟨different, notPhysical, apart, pooled, safe, outcome⟩
  have listed : round.Listed v := (isPresent_iff.mp presentV).resolve_left (by
    rw [notPhysical]
    decide)
  exact ⟨⟨listed, presentU, different, apart, pooled, busyU⟩, safe, outcome⟩

/-- Considering a copy keeps a round consistent and makes it lighter. -/
theorem Consistent.coalesce (consistent : Consistent origin pool moves round) {move : Fin m}
    (waits : round.moveStates.get move = .worklist) :
    Consistent origin pool moves (round.coalesce move) ∧
      (round.coalesce move).weight < round.weight := by
  have pending : round.isPending move = true := isPending_iff.mpr (.inl waits)
  obtain ⟨u, v, operands, presentU, presentV, busyV, outcome⟩ := consistent.coalesce_cases waits
  rcases outcome with ⟨same, outcome⟩ | outcome | ⟨fit, _, outcome⟩ | outcome
  · -- the operands have been merged before
    have marked := consistent.setMoveState pending .coalesced fun _ => by
      rcases operands with ⟨isU, isV⟩ | ⟨isU, isV⟩
      · rw [← isU, ← isV, same]
      · rw [← isU, ← isV, same]
    have lighter := weight_setMoveState_lt .coalesced waits (by decide)
    have readied := weight_addWorklist_le marked.invariant.distinct presentU
    rw [outcome]
    exact ⟨marked.shuffle (.addWorklist presentU) (graph_addWorklist _ _),
      Nat.lt_of_le_of_lt readied lighter⟩
  · -- the operands interfere
    have marked := consistent.setMoveState pending .constrained nofun
    have lighter := weight_setMoveState_lt .constrained waits (by decide)
    have readiedU := weight_addWorklist_le marked.invariant.distinct presentU
    have first : Shuffles (round.setMoveState move .constrained)
        ((round.setMoveState move .constrained).addWorklist u) := .addWorklist presentU
    have still : ((round.setMoveState move .constrained).addWorklist u).isPresent v = true := by
      rw [first.isPresent]
      exact presentV
    have readiedV := weight_addWorklist_le (first.distinct marked.invariant.distinct) still
    rw [outcome]
    refine ⟨(marked.shuffle first (graph_addWorklist _ _)).shuffle (.addWorklist still)
      (graph_addWorklist _ _), ?_⟩
    omega
  · -- the operands are merged now
    obtain ⟨list, on⟩ := fit.listed
    have combined := consistent.combine pending operands fit
    have marked := consistent.invariant.setMoveState pending .coalesced
    have lighter := weight_setMoveState_lt .coalesced waits (by decide)
    have merged := weight_combine_lt marked.distinct u (on_setMoveState.mpr on) fun isSimplify =>
      busyV (isSimplify ▸ on)
    have still : ((round.setMoveState move .coalesced).combine u v).isPresent u = true := by
      rw [isPresent_iff] at presentU ⊢
      exact presentU.imp_right fun listed => listed_combine.mpr ⟨fit.different, listed⟩
    have readied := weight_addWorklist_le combined.invariant.distinct still
    rw [outcome]
    refine ⟨combined.shuffle (.addWorklist still) (graph_addWorklist _ _), ?_⟩
    omega
  · -- not safe to merge yet
    rw [outcome]
    exact ⟨consistent.setMoveState pending .active nofun,
      weight_setMoveState_lt .active waits (by decide)⟩

theorem mem_of_minKey? {map : RegMap Nat} (least : map.minKey? = some reg) :
    reg ∈ map :=
  (Std.TreeMap.minKey?_eq_some_iff_mem_and_forall.mp least).1

theorem foldl_betterSpill (entries : List (Reg × Nat)) (best : Option (Reg × Nat)) :
    (∃ choice, entries.foldl (fun best entry => betterSpill best entry.1 entry.2) best =
        some choice ∧ (choice ∈ entries ∨ best = some choice)) ∨
      entries = [] ∧ best = none := by
  induction entries generalizing best with
  | nil =>
      cases best with
      | none => exact .inr ⟨rfl, rfl⟩
      | some choice => exact .inl ⟨choice, rfl, .inr rfl⟩
  | cons entry rest ih =>
      left
      rcases ih (betterSpill best entry.1 entry.2) with
        ⟨choice, found, member | kept⟩ | ⟨_, none⟩
      · exact ⟨choice, found, .inl (List.mem_cons_of_mem _ member)⟩
      · refine ⟨choice, found, ?_⟩
        unfold betterSpill at kept
        split at kept
        · cases kept
          exact .inl List.mem_cons_self
        · split at kept
          · cases kept
            exact .inl List.mem_cons_self
          · exact .inr kept
      · unfold betterSpill at none
        split at none
        · cases none
        · split at none
          · cases none
          · cases none

theorem on_of_spillChoice? (chosen : round.spillChoice? = some reg) :
    round.On .spill reg := by
  unfold spillChoice? at chosen
  rw [Std.TreeMap.foldl_eq_foldl_toList] at chosen
  rcases foldl_betterSpill round.spillList.toList none with
    ⟨choice, found, member | never⟩ | ⟨empty, _⟩
  · rw [found] at chosen
    cases chosen
    have found : round.spillList[choice.1]? = some choice.2 :=
      Std.TreeMap.mem_toList_iff_getElem?_eq_some.mp member
    change choice.1 ∈ round.spillList
    rw [Std.TreeMap.mem_iff_isSome_getElem?, found]
    rfl
  · cases never
  · rw [empty] at chosen
    cases chosen

/-- The choice has more neighbors than the candidates before it, and none has more. -/
theorem foldl_betterSpill_max {entries : List (Reg × Nat)} {best : Option (Reg × Nat)}
    {choice : Reg × Nat}
    (found : entries.foldl (fun best entry => betterSpill best entry.1 entry.2) best = some choice) :
    (∀ entry ∈ entries, entry.2 ≤ choice.2) ∧ (∀ first ∈ best, first.2 ≤ choice.2) ∧
      (best = some choice ∨ ∃ before behind, entries = before ++ choice :: behind ∧
        (∀ entry ∈ before, entry.2 < choice.2) ∧ ∀ first ∈ best, first.2 < choice.2) := by
  induction entries generalizing best with
  | nil =>
      cases found
      exact ⟨nofun, fun first isFirst => by cases isFirst; exact Nat.le_refl _, .inl rfl⟩
  | cons entry rest ih =>
      rw [List.foldl_cons] at found
      obtain ⟨most, mostBest, place⟩ := ih found
      cases best with
      | none =>
          have here : entry.2 ≤ choice.2 := mostBest entry rfl
          refine ⟨List.forall_mem_cons.mpr ⟨here, most⟩, nofun, .inr ?_⟩
          rcases place with same | ⟨before, behind, split, smaller, first⟩
          · cases same
            exact ⟨[], rest, rfl, nofun, nofun⟩
          · refine ⟨entry :: before, behind, by rw [split]; rfl, ?_, nofun⟩
            exact List.forall_mem_cons.mpr ⟨first entry rfl, smaller⟩
      | some old =>
          unfold betterSpill at mostBest place
          dsimp only at mostBest place
          by_cases more : old.2 < entry.2
          · rw [if_pos more] at mostBest place
            have here : entry.2 ≤ choice.2 := mostBest entry rfl
            refine ⟨List.forall_mem_cons.mpr ⟨here, most⟩, ?_, .inr ?_⟩
            · rintro _ ⟨⟩
              omega
            · rcases place with same | ⟨before, behind, split, smaller, first⟩
              · cases same
                refine ⟨[], rest, rfl, nofun, ?_⟩
                rintro _ ⟨⟩
                exact more
              · refine ⟨entry :: before, behind, by rw [split]; rfl,
                  List.forall_mem_cons.mpr ⟨first entry rfl, smaller⟩, ?_⟩
                rintro _ ⟨⟩
                omega
          · rw [if_neg more] at mostBest place
            have kept : old.2 ≤ choice.2 := mostBest old rfl
            refine ⟨List.forall_mem_cons.mpr ⟨by omega, most⟩, ?_, ?_⟩
            · rintro _ ⟨⟩
              exact kept
            · refine place.imp_right ?_
              rintro ⟨before, behind, split, smaller, first⟩
              have strict : old.2 < choice.2 := first old rfl
              refine ⟨entry :: before, behind, by rw [split]; rfl,
                List.forall_mem_cons.mpr ⟨by omega, smaller⟩, ?_⟩
              rintro _ ⟨⟩
              exact strict

/-- A spill candidate before the choice has fewer neighbors. -/
theorem lt_of_spillChoice? {other : Reg} {degree degreeOther : Nat}
    (chosen : round.spillChoice? = some reg) (found : round.spillList[reg]? = some degree)
    (foundOther : round.spillList[other]? = some degreeOther)
    (earlier : Reg.order other reg = .lt) : degreeOther < degree := by
  unfold spillChoice? at chosen
  rw [Std.TreeMap.foldl_eq_foldl_toList, Option.map_eq_some_iff] at chosen
  obtain ⟨choice, isChoice, rfl⟩ := chosen
  obtain ⟨_, _, never | ⟨before, behind, split, smaller, _⟩⟩ := foldl_betterSpill_max isChoice
  · cases never
  have isDegree : choice.2 = degree := by
    have member : choice ∈ round.spillList.toList :=
      split ▸ List.mem_append_right _ List.mem_cons_self
    have entry := Std.TreeMap.mem_toList_iff_getElem?_eq_some.mp member
    exact Option.some.inj (entry.symm.trans found)
  have member : (other, degreeOther) ∈ round.spillList.toList :=
    Std.TreeMap.mem_toList_iff_getElem?_eq_some.mpr foundOther
  have ordered := Std.TreeMap.ordered_keys_toList (t := round.spillList)
  rw [split] at member ordered
  rw [← isDegree]
  rcases List.mem_append.mp member with isBefore | here
  · exact smaller _ isBefore
  · -- the other candidate would not come first
    exfalso
    have behindOrdered := (List.pairwise_append.mp ordered).2.1
    rcases List.mem_cons.mp here with same | isBehind
    · subst same
      rw [Reg.order_eq_iff.mpr rfl] at earlier
      cases earlier
    · have late := (List.pairwise_cons.mp behindOrdered).1 _ isBehind
      rw [Std.OrientedCmp.gt_of_lt late] at earlier
      cases earlier

theorem spillList_isEmpty_of_spillChoice? (chosen : round.spillChoice? = none) :
    round.spillList.isEmpty = true := by
  unfold spillChoice? at chosen
  rw [Std.TreeMap.foldl_eq_foldl_toList] at chosen
  rcases foldl_betterSpill round.spillList.toList none with ⟨choice, found, _⟩ | ⟨empty, _⟩
  · rw [found] at chosen
    cases chosen
  · rw [← Std.TreeMap.isEmpty_toList, empty]
    rfl

/-- Nothing is left to do but to pick a spill candidate. -/
def PicksSpill (round : Round m) : Prop :=
  round.simplifyList.isEmpty = true ∧ round.movesIn .worklist = [] ∧
    round.freezeList.isEmpty = true ∧ ∃ reg, round.spillChoice? = some reg

/-- What a step can do. -/
theorem step?_cases (stepped : round.step? = some next) :
    (∃ reg, round.On .simplify reg ∧ next = round.simplify reg) ∨
      (∃ move, round.simplifyList.isEmpty = true ∧ round.moveStates.get move = .worklist ∧
        next = round.coalesce move) ∨
      (∃ reg, round.On .freeze reg ∧ next = round.freeze reg) ∨
      (round.PicksSpill ∧ ∃ reg, round.spillChoice? = some reg ∧ next = round.freeze reg) := by
  unfold step? at stepped
  split at stepped
  · next reg least =>
      cases stepped
      exact .inl ⟨reg, mem_of_minKey? least, rfl⟩
  · next noSimplify =>
      right
      rw [Std.TreeMap.minKey?_eq_none_iff] at noSimplify
      split at stepped
      · next move rest waiting =>
          cases stepped
          exact .inl ⟨move, noSimplify, mem_movesIn.mp (waiting ▸ List.mem_cons_self), rfl⟩
      · next noMoves =>
          right
          split at stepped
          · next reg least =>
              cases stepped
              exact .inl ⟨reg, mem_of_minKey? least, rfl⟩
          · next noFreeze =>
              obtain ⟨reg, chosen, isNext⟩ := Option.map_eq_some_iff.mp stepped
              rw [Std.TreeMap.minKey?_eq_none_iff] at noFreeze
              exact .inr ⟨⟨noSimplify, noMoves, noFreeze, reg, chosen⟩, reg, chosen, isNext.symm⟩

/-- One step of a round, without a preference for one worklist or for one of its entries. -/
inductive Advances (round : Round m) : Round m → Prop where
  | simplify {reg : Reg} : round.On .simplify reg → Advances round (round.simplify reg)
  | coalesce {move : Fin m} : round.moveStates.get move = .worklist →
      Advances round (round.coalesce move)
  | freeze {reg : Reg} : round.On .freeze reg → Advances round (round.freeze reg)
  | selectSpill {reg : Reg} : round.On .spill reg → Advances round (round.freeze reg)

/-- The step that a round prefers is one of those it may take. -/
theorem advances_of_step? (stepped : round.step? = some next) :
    round.Advances next := by
  rcases step?_cases stepped with
    ⟨reg, on, rfl⟩ | ⟨move, _, waits, rfl⟩ | ⟨reg, on, rfl⟩ | ⟨_, reg, chosen, rfl⟩
  · exact .simplify on
  · exact .coalesce waits
  · exact .freeze on
  · exact .selectSpill (on_of_spillChoice? chosen)

/-- Whichever step is taken, a round stays consistent and gets lighter. -/
theorem Consistent.advance (consistent : Consistent origin pool moves round)
    (advances : round.Advances next) :
    Consistent origin pool moves next ∧ next.weight < round.weight := by
  have distinct := consistent.invariant.distinct
  cases advances with
  | simplify on => exact ⟨consistent.simplify on, weight_simplify_lt distinct on⟩
  | coalesce waits => exact consistent.coalesce waits
  | freeze on => exact ⟨consistent.freeze ⟨.freeze, on⟩, weight_freeze_lt distinct on (by decide)⟩
  | selectSpill on =>
      exact ⟨consistent.freeze ⟨.spill, on⟩, weight_freeze_lt distinct on (by decide)⟩

/-- A step keeps a round consistent and makes it lighter. -/
theorem Consistent.step (consistent : Consistent origin pool moves round)
    (stepped : round.step? = some next) :
    Consistent origin pool moves next ∧ next.weight < round.weight :=
  consistent.advance (advances_of_step? stepped)

/-- What every step keeps holds after any number of steps. -/
theorem steps_induct {motive : Round m → Prop}
    (step : ∀ {before next : Round m}, motive before → before.step? = some next → motive next)
    (start : motive round) (fuel : Nat) : motive (round.steps fuel) := by
  induction fuel generalizing round with
  | zero => exact start
  | succ fuel ih =>
      unfold Round.steps
      split
      · next next stepped => exact ih (step start stepped)
      · exact start

/-- With as much fuel as it weighs, a consistent round runs to its end. -/
theorem Consistent.steps (consistent : Consistent origin pool moves round) {fuel : Nat}
    (enough : round.weight ≤ fuel) :
    Consistent origin pool moves (round.steps fuel) ∧ (round.steps fuel).step? = none := by
  induction fuel generalizing round with
  | zero =>
      refine ⟨consistent, ?_⟩
      cases stepped : round.step? with
      | none => exact stepped
      | some next =>
          have lighter := (consistent.step stepped).2
          omega
  | succ fuel ih =>
      unfold Round.steps
      split
      · next next stepped =>
          obtain ⟨kept, lighter⟩ := consistent.step stepped
          exact ih kept (by omega)
      · next stepped => exact ⟨consistent, stepped⟩

theorem not_listed_of_step? (ended : round.step? = none) (reg : Reg) : ¬ round.Listed reg := by
  unfold step? at ended
  split at ended
  · cases ended
  · next noSimplify =>
      split at ended
      · cases ended
      · split at ended
        · cases ended
        · next noFreeze =>
            rw [Option.map_eq_none_iff] at ended
            rw [Std.TreeMap.minKey?_eq_none_iff] at noSimplify noFreeze
            rintro ⟨list, on⟩
            cases list with
            | simplify => exact Std.TreeMap.not_mem_of_isEmpty noSimplify on
            | freeze => exact Std.TreeMap.not_mem_of_isEmpty noFreeze on
            | spill =>
                exact Std.TreeMap.not_mem_of_isEmpty (spillList_isEmpty_of_spillChoice? ended) on

section Start

variable {graph : InterferenceGraph}

/-- The copies that a register is an operand of. -/
def movesOf (moves : Table m MoveSite) (reg : Reg) : List (Fin m) :=
  (List.finRange m).filter fun move =>
    (moves.get move).dest == reg || (moves.get move).src == reg

/-- The worklist that a register starts on. -/
def firstList (pool : List PhysReg) (graph : InterferenceGraph) (moves : Table m MoveSite)
    (reg : Reg) : Worklist :=
  if pool.length ≤ (graph.neighbors reg).length then .spill
  else if (movesOf moves reg).isEmpty then .simplify
  else .freeze

/-- A round before its registers are put on worklists. -/
def blank (pool : List PhysReg) (graph : InterferenceGraph) (moves : Table m MoveSite) : Round m :=
  { pool, graph, moves
    simplifyList := ∅
    freezeList := ∅
    spillList := ∅
    merged := ∅
    stack := []
    moveStates := .replicate m .worklist
    moveLists := graph.nodes.foldl (fun lists reg => lists.insert reg (movesOf moves reg)) ∅ }

/-- Puts a register on the worklist it starts on. -/
def file (pool : List PhysReg) (graph : InterferenceGraph) (moves : Table m MoveSite)
    (round : Round m) (reg : Reg) : Round m :=
  round.put (firstList pool graph moves reg) reg (graph.neighbors reg).length

theorem startOn_eq (pool : List PhysReg) (graph : InterferenceGraph) (moves : Table m MoveSite) :
    startOn pool graph moves =
      (graph.nodes.filter fun reg => !reg.isPhysical).foldl (file pool graph moves)
        (blank pool graph moves) := rfl

theorem foldl_file_eq (pool : List PhysReg) (graph : InterferenceGraph)
    (moves : Table m MoveSite) (regs : List Reg) (round : Round m) :
    ∃ simplifyList freezeList spillList,
      regs.foldl (file pool graph moves) round =
        { round with simplifyList, freezeList, spillList } := by
  induction regs generalizing round with
  | nil => exact ⟨round.simplifyList, round.freezeList, round.spillList, rfl⟩
  | cons reg rest ih =>
      obtain ⟨simplify, freeze, spill, equal⟩ :=
        ih (file pool graph moves round reg)
      refine ⟨simplify, freeze, spill, ?_⟩
      rw [List.foldl_cons, equal]
      unfold file put
      split <;> rfl

variable {reg : Reg}

theorem on_foldl_file (regs : List Reg) (round : Round m) {list : Worklist} :
    (regs.foldl (file pool graph moves) round).On list reg ↔
      (reg ∈ regs ∧ list = firstList pool graph moves reg) ∨ round.On list reg := by
  induction regs generalizing round with
  | nil => simp
  | cons first rest ih =>
      rw [List.foldl_cons, ih, file, on_put, List.mem_cons]
      constructor
      · rintro (⟨member, isList⟩ | ⟨isList, same⟩ | on)
        · exact .inl ⟨.inr member, isList⟩
        · exact .inl ⟨.inl same, same ▸ isList⟩
        · exact .inr on
      · rintro (⟨same | member, isList⟩ | on)
        · exact .inr (.inl ⟨same ▸ isList, same⟩)
        · exact .inl ⟨member, isList⟩
        · exact .inr (.inr on)

theorem on_startOn {list : Worklist} : (startOn pool graph moves).On list reg ↔
    (reg ∈ graph.nodes ∧ reg.isPhysical = false) ∧ list = firstList pool graph moves reg := by
  rw [startOn_eq, on_foldl_file, List.mem_filter, Bool.not_eq_true']
  exact or_iff_left (by cases list <;> exact Std.TreeMap.not_mem_emptyc)

theorem listed_startOn : (startOn pool graph moves).Listed reg ↔
    reg ∈ graph.nodes ∧ reg.isPhysical = false := by
  unfold Listed
  simp only [on_startOn, exists_and_left, exists_eq, and_true]

/-- Only the lists of a round that starts are filled. -/
theorem exists_startOn_eq (pool : List PhysReg) (graph : InterferenceGraph)
    (moves : Table m MoveSite) : ∃ simplifyList freezeList spillList, startOn pool graph moves =
      { blank pool graph moves with simplifyList, freezeList, spillList } := by
  rw [startOn_eq]
  exact foldl_file_eq pool graph moves _ _

theorem graph_startOn (pool : List PhysReg) (graph : InterferenceGraph) (moves : Table m MoveSite) :
    (startOn pool graph moves).graph = graph := by
  obtain ⟨simplify, freeze, spill, equal⟩ := exists_startOn_eq pool graph moves
  rw [equal]
  rfl

theorem merged_startOn (pool : List PhysReg) (graph : InterferenceGraph) (moves : Table m MoveSite) :
    (startOn pool graph moves).merged = ∅ := by
  obtain ⟨simplify, freeze, spill, equal⟩ := exists_startOn_eq pool graph moves
  rw [equal]
  rfl

theorem stack_startOn (pool : List PhysReg) (graph : InterferenceGraph) (moves : Table m MoveSite) :
    (startOn pool graph moves).stack = [] := by
  obtain ⟨simplify, freeze, spill, equal⟩ := exists_startOn_eq pool graph moves
  rw [equal]
  rfl

theorem weight_put_le (round : Round m) (list : Worklist) (reg : Reg) (degree : Nat) :
    (round.put list reg degree).weight ≤ round.weight + cost m list := by
  have sameWaiting : (round.put list reg degree).waiting = round.waiting := by
    cases list <;> rfl
  have size : ((round.worklist list).insert reg degree).size ≤ (round.worklist list).size + 1 :=
    Std.TreeMap.size_insert_le
  have heavier := Nat.mul_le_mul_left (cost m list) size
  rw [Nat.mul_succ] at heavier
  simp only [weight, worklist_put, sameWaiting]
  cases list <;> simp only [reduceCtorEq, if_true, if_false] <;> omega

theorem weight_foldl_file_le (pool : List PhysReg) (graph : InterferenceGraph)
    (moves : Table m MoveSite) (regs : List Reg) (round : Round m) :
    (regs.foldl (file pool graph moves) round).weight ≤
      round.weight + (3 * m + 2) * regs.length := by
  induction regs generalizing round with
  | nil => exact Nat.le_refl _
  | cons reg rest ih =>
      have later := ih (file pool graph moves round reg)
      have first := round.weight_put_le (firstList pool graph moves reg) reg
        (graph.neighbors reg).length
      have costly : cost m (firstList pool graph moves reg) ≤ 3 * m + 2 := by
        cases firstList pool graph moves reg <;> simp only [cost] <;> omega
      rw [List.foldl_cons, List.length_cons, Nat.mul_succ]
      unfold file at later ⊢
      omega

/-- The step bound exceeds the weight at the start. -/
theorem weight_startOn_le (pool : List PhysReg) (graph : InterferenceGraph)
    (moves : Table m MoveSite) :
    (startOn pool graph moves).weight ≤ (startOn pool graph moves).stepBound := by
  have filed := weight_foldl_file_le pool graph moves
    (graph.nodes.filter fun reg => !reg.isPhysical) (blank pool graph moves)
  rw [← startOn_eq] at filed
  have blankWeight : (blank pool graph moves).weight ≤ m := by
    have few := waiting_le (blank pool graph moves)
    have none (list : Worklist) : ((blank pool graph moves).worklist list).size = 0 := by
      cases list <;> rfl
    simp only [weight, none, Nat.mul_zero, Nat.add_zero]
    exact few
  have fewer : (graph.nodes.filter fun reg => !reg.isPhysical).length ≤ graph.nodes.length :=
    List.length_filter_le _ _
  have scaled := Nat.mul_le_mul_left (3 * m + 2) fewer
  have sameNodes := graph_startOn pool graph moves
  have expanded : 3 * (graph.nodes.length + 1) * (m + 1) =
      (3 * m + 2) * graph.nodes.length + graph.nodes.length + 3 * m + 3 := by ring
  unfold stepBound
  rw [sameNodes, expanded]
  omega

theorem getD_foldl_insert {value : Reg → List (Fin m)} (regs : List Reg)
    (lists : RegMap (List (Fin m))) (member : reg ∈ regs) :
    (regs.foldl (fun lists reg => lists.insert reg (value reg)) lists).getD reg [] = value reg := by
  have kept (regs : List Reg) : ∀ lists : RegMap (List (Fin m)),
      lists.getD reg [] = value reg →
        (regs.foldl (fun lists reg => lists.insert reg (value reg)) lists).getD reg [] =
          value reg := by
    induction regs with
    | nil => exact fun _ same => same
    | cons first rest ih =>
        intro lists same
        apply ih
        rw [getD_insert_moveLists]
        split
        · next equal => rw [equal]
        · exact same
  induction regs generalizing lists with
  | nil => cases member
  | cons first rest ih =>
      rcases List.mem_cons.mp member with equal | later
      · rw [List.foldl_cons]
        apply kept
        rw [getD_insert_moveLists, if_pos equal.symm, equal]
      · exact ih _ later

theorem mem_movesOf {move : Fin m} :
    move ∈ movesOf moves reg ↔ (moves.get move).dest = reg ∨ (moves.get move).src = reg := by
  simp [movesOf]

theorem Consistent.startOn (undirected : graph.Undirected)
    (operands : ∀ move, (moves.get move).dest ∈ graph.nodes ∧ (moves.get move).src ∈ graph.nodes) :
    Consistent graph pool moves (startOn pool graph moves) := by
  obtain ⟨simplify, freeze, spill, equal⟩ := foldl_file_eq pool graph moves
    (graph.nodes.filter fun reg => !reg.isPhysical) (blank pool graph moves)
  rw [← startOn_eq] at equal
  have sameGraph := graph_startOn pool graph moves
  have noneMerged := merged_startOn pool graph moves
  have noneStacked := stack_startOn pool graph moves
  have samePool : (Round.startOn pool graph moves).pool = pool := by rw [equal]; rfl
  have sameMoves : (Round.startOn pool graph moves).moves = moves := by rw [equal]; rfl
  have lists {reg : Reg} (node : reg ∈ graph.nodes) :
      (Round.startOn pool graph moves).moveLists.getD reg [] = movesOf moves reg := by
    rw [equal]
    exact getD_foldl_insert _ _ node
  have states (move : Fin m) : (Round.startOn pool graph moves).moveStates.get move = .worklist := by
    rw [equal]
    exact Table.get_replicate _ _
  have self (reg : Reg) : (Round.startOn pool graph moves).representative reg = reg :=
    representative_of_not_merged (by
      rw [noneMerged]
      exact Std.TreeMap.not_mem_emptyc)
  refine ⟨?_, ?_, samePool, sameMoves⟩
  · exact
      { source := undirected
        undirected := by rwa [sameGraph]
        distinct := fun reg first second onFirst onSecond =>
          (on_startOn.mp onFirst).2.trans (on_startOn.mp onSecond).2.symm
        rooted := fun reg => by
          rw [noneMerged]
          exact Std.TreeMap.not_mem_emptyc
        own := fun reg => by
          rw [listed_startOn, noneStacked, noneMerged, and_comm]
          simp
        listed_not_stacked := fun reg _ => by
          rw [noneStacked]
          exact List.not_mem_nil
        listed_not_merged := fun reg _ => by
          rw [noneMerged]
          exact Std.TreeMap.not_mem_emptyc
        stacked_not_merged := fun reg _ => by
          rw [noneMerged]
          exact Std.TreeMap.not_mem_emptyc
        stack_nodup := noneStacked ▸ List.nodup_nil
        target := fun reg into found => by
          rw [noneMerged] at found
          cases found
        separate := fun a b edge => by
          rw [self, self]
          rintro rfl
          rw [undirected.irrefl a] at edge
          cases edge
        joined := fun a b edge _ _ => by
          rw [self, self, sameGraph]
          exact edge
        seen := fun a b _ later earlier split _ => by
          rw [noneStacked] at split
          exact absurd split.symm (by simp)
        operands := by rwa [sameMoves]
        recorded := fun move _ => by
          rw [sameMoves, self, self, lists (operands move).1, lists (operands move).2]
          exact ⟨mem_movesOf.mpr (.inl rfl), mem_movesOf.mpr (.inr rfl)⟩
        idle := fun reg calm => by
          rw [noneStacked] at calm
          obtain ⟨⟨node, _⟩, isSimplify⟩ := on_startOn.mp (calm.resolve_right List.not_mem_nil)
          have none : (movesOf moves reg).isEmpty = true := by
            unfold firstList at isSimplify
            split at isSimplify
            · cases isSimplify
            · split at isSimplify
              · assumption
              · cases isSimplify
          rw [Bool.eq_false_iff]
          intro related
          obtain ⟨move, recorded, _⟩ := isMoveRelated_iff.mp related
          rw [lists node, List.isEmpty_iff.mp none] at recorded
          cases recorded }
  · intro move coalesced
    rw [states] at coalesced
    cases coalesced

theorem mem_operandsOf : reg ∈ operandsOf moves ↔
    ∃ move, reg = (moves.get move).dest ∨ reg = (moves.get move).src := by
  simp [operandsOf]

theorem hasEdge_admitted (a b : Reg) : (admitted graph moves).hasEdge a b = graph.hasEdge a b :=
  List.foldlRecOn
    (motive := fun wider : InterferenceGraph => wider.hasEdge a b = graph.hasEdge a b)
    _ _ rfl fun _ same reg _ => (Graph.hasEdge_addNode _ reg a b).trans same

theorem mem_nodes_admitted : reg ∈ (admitted graph moves).nodes ↔
    reg ∈ operandsOf moves ∨ reg ∈ graph.nodes :=
  Graph.mem_nodes_foldl_addNode _ _

theorem undirected_admitted (undirected : graph.Undirected) : (admitted graph moves).Undirected :=
  List.foldlRecOn _ _ undirected fun _ undirected reg _ => undirected.addNode reg

theorem operands_mem_admitted (move : Fin m) : (moves.get move).dest ∈ (admitted graph moves).nodes ∧
    (moves.get move).src ∈ (admitted graph moves).nodes :=
  ⟨mem_nodes_admitted.mpr (.inl (mem_operandsOf.mpr ⟨move, .inl rfl⟩)),
    mem_nodes_admitted.mpr (.inl (mem_operandsOf.mpr ⟨move, .inr rfl⟩))⟩

theorem start_eq_startOn
    (operands : ∀ move, (moves.get move).dest ∈ graph.nodes ∧ (moves.get move).src ∈ graph.nodes) :
    start pool graph moves = startOn pool graph moves := by
  refine congrArg (startOn pool · moves)
    (List.foldlRecOn (motive := fun wider => wider = graph) _ _ rfl fun _ same reg member => ?_)
  obtain ⟨move, isOperand⟩ := mem_operandsOf.mp member
  rw [same]
  refine Graph.addNode_of_mem ?_
  rcases isOperand with rfl | rfl
  · exact (operands move).1
  · exact (operands move).2

/-- A run ends consistent and with empty worklists. -/
theorem Consistent.run (undirected : graph.Undirected)
    (operands : ∀ move, (moves.get move).dest ∈ graph.nodes ∧ (moves.get move).src ∈ graph.nodes) :
    Consistent graph pool moves (Round.start pool graph moves).run ∧
      ∀ reg, ¬ (Round.start pool graph moves).run.Listed reg := by
  rw [start_eq_startOn operands]
  obtain ⟨consistent, ended⟩ := (Consistent.startOn undirected operands).steps
    (weight_startOn_le pool graph moves)
  exact ⟨consistent, not_listed_of_step? ended⟩

end Start

end Lowering.Machine.Round
