import Lowering.Allocation.Coloring
import Lowering.Proofs.Allocation.Merging
import Lowering.Proofs.Allocation.Twins
import Mathlib

/-!
# Rounds on twins

Everything a round looks at is a matter of which registers are equal, of their kind and of their
order.  So rounds that start on twins take the same steps, one on the twins of the other's registers,
and end in the same colors.
-/

namespace Lowering.Machine

namespace Pairing

variable {p : Pairing} {a b a' b' : Reg} {m : Nat} {round other : Round m}

/-- Copies in the same place between twins. -/
structure Sites (p : Pairing) (site other : MoveSite) : Prop where
  block : site.block = other.block
  index : site.index = other.index
  dest : p.Twins site.dest other.dest
  src : p.Twins site.src other.src

/-- Rounds that have done the same with twins. -/
structure Rounds (p : Pairing) (round other : Round m) : Prop where
  pool : round.pool = other.pool
  graph : p.Graphs round.graph other.graph
  simplifyList : p.Maps Eq round.simplifyList other.simplifyList
  freezeList : p.Maps Eq round.freezeList other.freezeList
  spillList : p.Maps Eq round.spillList other.spillList
  merged : p.Maps p.Twins round.merged other.merged
  stack : List.Forall₂ p.Twins round.stack other.stack
  moves : ∀ move, p.Sites (round.moves.get move) (other.moves.get move)
  moveStates : round.moveStates = other.moveStates
  moveLists : p.Maps Eq round.moveLists other.moveLists

namespace Rounds

section Views

variable (rounds : p.Rounds round other)
include rounds

theorem k_eq : round.k = other.k := by
  unfold Round.k
  rw [rounds.pool]

theorem degree_eq (twins : p.Twins a a') :
    round.degree a = other.degree a' := by
  unfold Round.degree
  rw [rounds.simplifyList.get?_eq twins, rounds.freezeList.get?_eq twins,
    rounds.spillList.getD rfl twins]

theorem isSignificant_eq (twins : p.Twins a a') :
    round.isSignificant a = other.isSignificant a' := by
  unfold Round.isSignificant
  rw [twins.isPhysical_eq, rounds.degree_eq twins, rounds.k_eq]

theorem isPresent_eq (twins : p.Twins a a') :
    round.isPresent a = other.isPresent a' := by
  unfold Round.isPresent
  rw [twins.isPhysical_eq, rounds.simplifyList.contains_eq twins, rounds.freezeList.contains_eq twins,
    rounds.spillList.contains_eq twins]

theorem adjacent (twins : p.Twins a a') :
    List.Forall₂ p.Twins (round.adjacent a) (other.adjacent a') :=
  filter_twins rounds.isPresent_eq (rounds.graph.neighbors twins)

theorem isPending_eq : round.isPending = other.isPending := by
  funext move
  unfold Round.isPending
  rw [rounds.moveStates]

theorem pendingMoves_eq (twins : p.Twins a a') :
    round.pendingMoves a = other.pendingMoves a' := by
  unfold Round.pendingMoves
  rw [rounds.moveLists.getD rfl twins, rounds.isPending_eq]

theorem isMoveRelated_eq (twins : p.Twins a a') :
    round.isMoveRelated a = other.isMoveRelated a' := by
  unfold Round.isMoveRelated
  rw [rounds.pendingMoves_eq twins]

theorem movesIn_eq (state : MoveState) :
    round.movesIn state = other.movesIn state := by
  unfold Round.movesIn
  rw [rounds.moveStates]

theorem isInPool_eq (twins : p.Twins a a') :
    round.isInPool a = other.isInPool a' := by
  unfold Round.isInPool
  rw [rounds.pool]
  cases twins <;> rfl

theorem follow (fuel : Nat) (twins : p.Twins a a') :
    p.Twins (round.follow fuel a) (other.follow fuel a') := by
  induction fuel generalizing a a' with
  | zero => exact twins
  | succ fuel ih =>
      have entries := rounds.merged.get? twins
      unfold Round.follow
      rw [Std.TreeMap.get?_eq_getElem?, Std.TreeMap.get?_eq_getElem?]
      generalize round.merged[a]? = into at entries
      generalize other.merged[a']? = otherInto at entries
      cases entries with
      | none => exact twins
      | some into => exact ih into

theorem representative (twins : p.Twins a a') :
    p.Twins (round.representative a) (other.representative a') := by
  unfold Round.representative
  rw [rounds.merged.size_eq]
  exact rounds.follow _ twins

theorem isHarmless_eq (first : p.Twins a a')
    (second : p.Twins b b') : round.isHarmless a b = other.isHarmless a' b' := by
  unfold Round.isHarmless
  rw [rounds.isSignificant_eq second, second.isPhysical_eq, rounds.graph.hasEdge_eq second first]

theorem isConservative_eq {regs others : RegSet}
    (sets : p.Sets regs others) : round.isConservative regs = other.isConservative others := by
  unfold Round.isConservative
  rw [List.countP_eq_length_filter, List.countP_eq_length_filter,
    (filter_twins rounds.isSignificant_eq sets.toList).length_eq, rounds.k_eq]

omit rounds in
theorem all_eq {choose otherChoose : Reg → Bool}
    (same : ∀ {a a' : Reg}, p.Twins a a' → choose a = otherChoose a') {list others : List Reg}
    (paired : List.Forall₂ p.Twins list others) : list.all choose = others.all otherChoose := by
  induction paired with
  | nil => rfl
  | cons first _ ih =>
      rw [List.all_cons, List.all_cons, same first, ih]

theorem isMergeable_eq (first : p.Twins a a')
    (second : p.Twins b b') : round.isMergeable a b = other.isMergeable a' b' := by
  unfold Round.isMergeable
  rw [first.isPhysical_eq,
    all_eq (fun twins => rounds.isHarmless_eq first twins) (rounds.adjacent second),
    rounds.isConservative_eq
      (.ofList (List.rel_append (rounds.adjacent first) (rounds.adjacent second)))]

end Views

section Updates

variable (rounds : p.Rounds round other)
include rounds

theorem leave (twins : p.Twins a a') :
    p.Rounds (round.leave a) (other.leave a') :=
  { rounds with
    simplifyList := rounds.simplifyList.erase twins
    freezeList := rounds.freezeList.erase twins
    spillList := rounds.spillList.erase twins }

theorem put (worklist : Worklist) (twins : p.Twins a a')
    (degree : Nat) : p.Rounds (round.put worklist a degree) (other.put worklist a' degree) := by
  cases worklist with
  | simplify => exact { rounds with simplifyList := rounds.simplifyList.insert twins rfl }
  | freeze => exact { rounds with freezeList := rounds.freezeList.insert twins rfl }
  | spill => exact { rounds with spillList := rounds.spillList.insert twins rfl }

theorem enter (worklist : Worklist) (twins : p.Twins a a') :
    p.Rounds (round.enter worklist a) (other.enter worklist a') := by
  unfold Round.enter
  rw [rounds.degree_eq twins]
  exact (rounds.leave twins).put worklist twins _

theorem setMoveState (move : Fin m) (state : MoveState) :
    p.Rounds (round.setMoveState move state) (other.setMoveState move state) :=
  { rounds with moveStates := by unfold Round.setMoveState; rw [rounds.moveStates] }

theorem modifyDegree (twins : p.Twins a a') (change : Nat → Nat) :
    p.Rounds (round.modifyDegree a change) (other.modifyDegree a' change) :=
  { rounds with
    simplifyList := rounds.simplifyList.modify twins (congrArg change)
    freezeList := rounds.freezeList.modify twins (congrArg change)
    spillList := rounds.spillList.modify twins (congrArg change) }

theorem addEdge (first : p.Twins a a') (second : p.Twins b b') :
    p.Rounds (round.addEdge a b) (other.addEdge a' b') := by
  unfold Round.addEdge
  rw [rounds.graph.isNewEdge_eq first second]
  split
  · have joined : p.Rounds { round with graph := round.graph.addEdge a b }
        { other with graph := other.graph.addEdge a' b' } :=
      { rounds with graph := rounds.graph.addEdge first second }
    exact (joined.modifyDegree first _).modifyDegree second _
  · exact rounds

end Updates

section Steps

theorem foldl_same {α : Type} {step otherStep : Round m → α → Round m}
    (steps : ∀ {round other : Round m} (x : α), p.Rounds round other →
      p.Rounds (step round x) (otherStep other x)) (list : List α) {round other : Round m}
    (rounds : p.Rounds round other) : p.Rounds (list.foldl step round) (list.foldl otherStep other) := by
  induction list generalizing round other with
  | nil => exact rounds
  | cons x rest ih => exact ih (steps x rounds)

variable (rounds : p.Rounds round other)
include rounds

theorem enableMoves {regs others : List Reg} (paired : List.Forall₂ p.Twins regs others) :
    p.Rounds (round.enableMoves regs) (other.enableMoves others) := by
  refine foldl_twins (fun {round other a a'} rounds twins => ?_) paired rounds
  rw [rounds.pendingMoves_eq twins]
  refine foldl_same (fun {round other} move rounds => ?_) _ rounds
  rw [rounds.moveStates]
  split
  · exact rounds.setMoveState move _
  · exact rounds

theorem decrementDegree (twins : p.Twins a a') :
    p.Rounds (round.decrementDegree a) (other.decrementDegree a') := by
  have lowered := rounds.modifyDegree twins (· - 1)
  have enabled := lowered.enableMoves (List.rel_append (lowered.adjacent twins) (.cons twins .nil))
  unfold Round.decrementDegree
  dsimp only
  rw [twins.isPhysical_eq, rounds.degree_eq twins, lowered.k_eq, lowered.spillList.contains_eq twins,
    enabled.isMoveRelated_eq twins]
  split
  · exact rounds
  · split
    · exact enabled.enter _ twins
    · exact lowered

theorem simplify (twins : p.Twins a a') :
    p.Rounds (round.simplify a) (other.simplify a') := by
  have stacked : p.Rounds { round.leave a with stack := a :: round.stack }
      { other.leave a' with stack := a' :: other.stack } :=
    { rounds.leave twins with stack := .cons twins rounds.stack }
  exact foldl_twins decrementDegree (stacked.adjacent twins) stacked

theorem addWorklist (twins : p.Twins a a') :
    p.Rounds (round.addWorklist a) (other.addWorklist a') := by
  unfold Round.addWorklist
  rw [twins.isPhysical_eq, rounds.isMoveRelated_eq twins, rounds.degree_eq twins, rounds.k_eq]
  split
  · exact rounds.enter _ twins
  · exact rounds

theorem absorb (first : p.Twins a a') (second : p.Twins b b') :
    p.Rounds (round.absorb a b) (other.absorb a' b') :=
  { rounds.leave second with
    merged := rounds.merged.insert second first
    moveLists := rounds.moveLists.insert first
      (by rw [rounds.moveLists.getD rfl first, rounds.moveLists.getD rfl second]) }

theorem handAllOver (first : p.Twins a a')
    (second : p.Twins b b') : p.Rounds (round.handAllOver a b) (other.handAllOver a' b') := by
  have absorbed := (rounds.absorb first second).enableMoves (.cons second .nil)
  exact foldl_twins (fun rounds twins => (rounds.addEdge twins first).decrementDegree twins)
    (absorbed.adjacent second) absorbed

theorem combine (first : p.Twins a a') (second : p.Twins b b') :
    p.Rounds (round.combine a b) (other.combine a' b') := by
  have handed := rounds.handAllOver first second
  rw [Round.combine_eq, Round.combine_eq, handed.isSignificant_eq first,
    handed.freezeList.contains_eq first]
  split
  · exact handed.enter _ first
  · exact handed

theorem coalesce (move : Fin m) :
    p.Rounds (round.coalesce move) (other.coalesce move) := by
  have sites := rounds.moves move
  have dest := rounds.representative sites.dest
  have src := rounds.representative sites.src
  unfold Round.coalesce
  dsimp only
  rw [src.isPhysical_eq]
  generalize round.representative (round.moves.get move).dest = x at dest
  generalize round.representative (round.moves.get move).src = y at src
  generalize other.representative (other.moves.get move).dest = x' at dest
  generalize other.representative (other.moves.get move).src = y' at src
  have ends : ∃ u v u' v', (if y'.isPhysical then (y, x) else (x, y)) = (u, v) ∧
      (if y'.isPhysical then (y', x') else (x', y')) = (u', v') ∧ p.Twins u u' ∧ p.Twins v v' := by
    split
    · exact ⟨y, x, y', x', rfl, rfl, src, dest⟩
    · exact ⟨x, y, x', y', rfl, rfl, dest, src⟩
  obtain ⟨u, v, u', v', isPair, isOther, twinsU, twinsV⟩ := ends
  rw [isPair, isOther]
  dsimp only
  rw [twinsV.isPhysical_eq, rounds.graph.hasEdge_eq twinsU twinsV, twinsU.isPhysical_eq,
    rounds.isInPool_eq twinsU, rounds.isMergeable_eq twinsU twinsV]
  by_cases same : u = v
  · rw [if_pos same, if_pos ((twinsU.eq_iff twinsV).mp same)]
    exact (rounds.setMoveState move _).addWorklist twinsU
  · rw [if_neg same, if_neg fun equal => same ((twinsU.eq_iff twinsV).mpr equal)]
    split
    · exact ((rounds.setMoveState move _).addWorklist twinsU).addWorklist twinsV
    · split
      · exact ((rounds.setMoveState move _).combine twinsU twinsV).addWorklist twinsU
      · exact rounds.setMoveState move _

omit rounds in
theorem freezeMove (twins : p.Twins a a') (move : Fin m) (rounds : p.Rounds round other) :
    p.Rounds (Round.freezeMove a round move) (Round.freezeMove a' other move) := by
  have sites := rounds.moves move
  have dest := rounds.representative sites.dest
  have src := rounds.representative sites.src
  have frozen := rounds.setMoveState move .frozen
  have ends : p.Twins
      (if round.representative (round.moves.get move).src = round.representative a then
        round.representative (round.moves.get move).dest
      else round.representative (round.moves.get move).src)
      (if other.representative (other.moves.get move).src = other.representative a' then
        other.representative (other.moves.get move).dest
      else other.representative (other.moves.get move).src) :=
    twins_ite (src.eq_iff (rounds.representative twins)) dest src
  unfold Round.freezeMove
  dsimp only
  generalize (if round.representative (round.moves.get move).src = round.representative a then _
    else _) = v at ends
  generalize (if other.representative (other.moves.get move).src = other.representative a' then _
    else _) = v' at ends
  rw [frozen.freezeList.contains_eq ends, frozen.isMoveRelated_eq ends]
  split
  · exact frozen.enter _ ends
  · exact frozen

theorem freeze (twins : p.Twins a a') :
    p.Rounds (round.freeze a) (other.freeze a') := by
  have entered := rounds.enter .simplify twins
  unfold Round.freeze Round.freezeMoves
  rw [entered.pendingMoves_eq twins]
  exact foldl_same (fun move rounds => freezeMove twins move rounds) _ entered

/-- Spill candidates with the same number of neighbors. -/
def Candidates (p : Pairing) (candidate other : Reg × Nat) : Prop :=
  p.Twins candidate.1 other.1 ∧ candidate.2 = other.2

omit rounds in
theorem betterSpill {best otherBest : Option (Reg × Nat)}
    (bests : Option.Rel (Candidates p) best otherBest) (twins : p.Twins a a') (degree : Nat) :
    Option.Rel (Candidates p) (Round.betterSpill best a degree)
      (Round.betterSpill otherBest a' degree) := by
  cases bests with
  | none => exact .some ⟨twins, rfl⟩
  | @some first second both =>
      obtain ⟨reg, most⟩ := first
      obtain ⟨otherReg, otherMost⟩ := second
      obtain ⟨regs, same⟩ := both
      cases (same : most = otherMost)
      unfold Round.betterSpill
      dsimp only
      split
      · exact .some ⟨twins, rfl⟩
      · exact .some ⟨regs, rfl⟩

/-- The candidate with the most neighbors is found in the same place. -/
theorem spillChoice? :
    Option.Rel p.Twins round.spillChoice? other.spillChoice? := by
  unfold Round.spillChoice?
  rw [Std.TreeMap.foldl_eq_foldl_toList, Std.TreeMap.foldl_eq_foldl_toList]
  have chosen : Option.Rel (Candidates p)
      (round.spillList.toList.foldl (fun best entry => Round.betterSpill best entry.1 entry.2) none)
      (other.spillList.toList.foldl (fun best entry => Round.betterSpill best entry.1 entry.2) none) := by
    refine List.rel_foldl (fun best otherBest bests entry otherEntry both => ?_) .none
      rounds.spillList.toList
    rw [← both.2]
    exact betterSpill bests both.1 entry.2
  generalize List.foldl _ _ round.spillList.toList = choice at chosen
  generalize List.foldl _ _ other.spillList.toList = otherChoice at chosen
  cases chosen with
  | none => exact .none
  | some both => exact .some both.1

/-- Both rounds take the same step, or none. -/
theorem step? :
    Option.Rel p.Rounds round.step? other.step? := by
  unfold Round.step?
  rw [rounds.movesIn_eq]
  have simplified := rounds.simplifyList.minKey?
  generalize round.simplifyList.minKey? = first at simplified
  generalize other.simplifyList.minKey? = second at simplified
  cases simplified with
  | some twins => exact .some (rounds.simplify twins)
  | none =>
      dsimp only
      cases other.movesIn .worklist with
      | cons move _ => exact .some (rounds.coalesce move)
      | nil =>
          have frozen := rounds.freezeList.minKey?
          generalize round.freezeList.minKey? = first at frozen
          generalize other.freezeList.minKey? = second at frozen
          cases frozen with
          | some twins => exact .some (rounds.freeze twins)
          | none =>
              have spilled := rounds.spillChoice?
              generalize round.spillChoice? = first at spilled
              generalize other.spillChoice? = second at spilled
              cases spilled with
              | some twins => exact .some (rounds.freeze twins)
              | none => exact .none

theorem steps (fuel : Nat) :
    p.Rounds (round.steps fuel) (other.steps fuel) := by
  induction fuel generalizing round other with
  | zero => exact rounds
  | succ fuel ih =>
      have next := rounds.step?
      unfold Round.steps
      generalize round.step? = first at next
      generalize other.step? = second at next
      cases next with
      | some rounds => exact ih rounds
      | none => exact rounds

theorem run : p.Rounds round.run other.run := by
  unfold Round.run Round.stepBound
  rw [rounds.graph.nodes.length_eq]
  exact rounds.steps _

end Steps

section Start

variable {graph otherGraph : InterferenceGraph} {moves otherMoves : Table m MoveSite}

theorem beq_eq (first : p.Twins a a') (second : p.Twins b b') : (a == b) = (a' == b') := by
  rw [Bool.eq_iff_iff, beq_iff_eq, beq_iff_eq, first.eq_iff second]

theorem startOn (pool : List PhysReg) (graphs : p.Graphs graph otherGraph)
    (sites : ∀ move, p.Sites (moves.get move) (otherMoves.get move)) :
    p.Rounds (Round.startOn pool graph moves) (Round.startOn pool otherGraph otherMoves) := by
  have movesOf {a a' : Reg} (twins : p.Twins a a') :
      ((List.finRange m).filter fun move =>
        (moves.get move).dest == a || (moves.get move).src == a) =
      (List.finRange m).filter fun move =>
        (otherMoves.get move).dest == a' || (otherMoves.get move).src == a' :=
    List.filter_congr fun move _ => by
      rw [beq_eq (sites move).dest twins, beq_eq (sites move).src twins]
  unfold Round.startOn
  dsimp only
  refine foldl_twins (fun {round other a a'} rounds twins => ?_)
    (filter_twins (fun twins => by rw [twins.isPhysical_eq]) graphs.nodes) ?_
  · simp only [movesOf twins, (graphs.neighbors twins).length_eq]
    exact rounds.put _ twins _
  · exact
      { pool := rfl
        graph := graphs
        simplifyList := .empty
        freezeList := .empty
        spillList := .empty
        merged := .empty
        stack := .nil
        moves := sites
        moveStates := rfl
        moveLists := foldl_twins (fun lists twins => lists.insert twins (movesOf twins))
          graphs.nodes .empty }

theorem start (pool : List PhysReg) (graphs : p.Graphs graph otherGraph)
    (sites : ∀ move, p.Sites (moves.get move) (otherMoves.get move)) :
    p.Rounds (Round.start pool graph moves) (Round.start pool otherGraph otherMoves) := by
  refine startOn pool ?_ sites
  refine foldl_twins (fun graphs twins => graphs.addNode twins) ?_ graphs
  unfold Round.operandsOf
  induction List.finRange m with
  | nil => exact .nil
  | cons move _ ih =>
      exact .cons (sites move).dest (.cons (sites move).src ih)

end Start

end Rounds

/-- Colorings of twins in the same colors. -/
structure Colorings (p : Pairing) (coloring other : Coloring) : Prop where
  colors : p.Maps Eq coloring.colors other.colors
  spilled : List.Forall₂ p.Twins coloring.spilled other.spilled

namespace Rounds

section Coloring

variable {coloring otherColoring : Coloring}

theorem color?_eq (colorings : p.Colorings coloring otherColoring) (twins : p.Twins a a') :
    coloring.color? a = otherColoring.color? a' := by
  cases twins with
  | virtual paired => exact colorings.colors.get?_eq (.virtual paired)
  | physical reg => rfl
  | spilled slot => exact colorings.colors.get?_eq (.spilled slot)

variable (rounds : p.Rounds round other)
include rounds

theorem usedColors_eq (colorings : p.Colorings coloring otherColoring) (twins : p.Twins a a') :
    round.usedColors coloring a = other.usedColors otherColoring a' := by
  unfold Round.usedColors
  rw [rounds.pool]
  have neighbors := rounds.graph.neighbors twins
  generalize round.graph.neighbors a = regs at neighbors
  generalize other.graph.neighbors a' = others at neighbors
  induction neighbors with
  | nil => rfl
  | cons first _ ih =>
      rw [List.filterMap_cons, List.filterMap_cons, ih,
        color?_eq colorings (rounds.representative first)]

theorem assign (colorings : p.Colorings coloring otherColoring) (twins : p.Twins a a') :
    p.Colorings (round.assign coloring a) (other.assign otherColoring a') := by
  unfold Round.assign
  dsimp only
  rw [rounds.usedColors_eq colorings twins, rounds.pool]
  split
  · exact { colorings with colors := colorings.colors.insert twins rfl }
  · exact { colorings with spilled := List.rel_append colorings.spilled (.cons twins .nil) }

theorem share (colorings : p.Colorings coloring otherColoring) (twins : p.Twins a a') :
    p.Colorings (round.share coloring a) (other.share otherColoring a') := by
  unfold Round.share
  rw [color?_eq colorings (rounds.representative twins)]
  split
  · exact { colorings with colors := colorings.colors.insert twins rfl }
  · exact colorings

theorem assignColors :
    p.Colorings round.assignColors other.assignColors :=
  foldl_twins (fun colorings twins => rounds.share colorings twins) rounds.merged.keys
    (foldl_twins (fun colorings twins => rounds.assign colorings twins) rounds.stack
      ⟨.empty, .nil⟩)

theorem mergedSites_eq : round.mergedSites = other.mergedSites := by
  unfold Round.mergedSites
  rw [rounds.movesIn_eq]
  refine List.map_congr_left fun move _ => ?_
  rw [(rounds.moves move).block, (rounds.moves move).index]

end Coloring

end Rounds

end Pairing

end Lowering.Machine
