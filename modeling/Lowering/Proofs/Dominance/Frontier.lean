import Lowering.Dominance.Frontier
import Lowering.Proofs.Dominance.Tree

/-!
# Dominance frontiers

The chains of a tree are the climbs from its blocks.  A climb from a predecessor of a join passes what
dominates the predecessor, and it meets the immediate dominator of the join before it reaches what
strictly dominates the join.  So what it passes before that are the blocks with the join in their
frontier, and what does not change at these blocks is the same at the end of every predecessor.
-/

namespace Lowering.Dominance

variable {V : Type} {edge : V → V → Prop} {root : V}

/-- The block dominates a reachable predecessor of the join, but not strictly the join itself. -/
structure InFrontier (edge : V → V → Prop) (root block join : V) : Prop where
  reached : Relation.ReflTransGen edge root block
  reachedJoin : Relation.ReflTransGen edge root join
  pred : ∃ pred, Relation.ReflTransGen edge root pred ∧ edge pred join ∧
    Dominates edge root block pred
  outside : ¬ (block ≠ join ∧ Dominates edge root block join)

theorem Dominates.reaches {d b : V} (dominates : Dominates edge root d b)
    (reached : Relation.ReflTransGen edge root b) : Relation.ReflTransGen edge root d := by
  obtain ⟨passed, trail⟩ := exists_trail reached
  obtain ⟨_, _, stopped⟩ := trail.exists_of_mem (dominates passed trail)
  exact stopped.reaches

/-- A strict dominator of a block dominates the predecessors of the block. -/
theorem Dominates.of_edge {d p b : V} (dominates : Dominates edge root d b) (joined : edge p b)
    (different : d ≠ b) : Dominates edge root d p := by
  intro passed trail
  rcases List.mem_cons.mp (dominates _ (trail.step joined)) with same | earlier
  · exact absurd same different
  · exact earlier

end Lowering.Dominance

namespace Lowering.DomTree

open Dominance

variable {n : Nat} {edge : Fin n → Fin n → Prop} {root block : Fin n} {tree : DomTree n}
  {idom : Table n (Option (Fin n))} {rank : Fin n → Nat}

theorem Hierarchy.eq_or_rank_lt (hierarchy : Hierarchy edge root idom rank) {d b : Fin n}
    (reached : Relation.ReflTransGen edge root b) (dominates : Dominates edge root d b) :
    d = b ∨ rank d < rank b := by
  induction height : rank b using Nat.strongRecOn generalizing b with
  | ind bound ih =>
      by_cases first : b = root
      · subst first
        exact .inl (List.mem_singleton.mp (dominates _ .start))
      · obtain ⟨above, _, lower, reachedAbove, immediate⟩ := hierarchy.immediate reached first
        rcases (immediate.iff d).mp dominates with same | higher
        · exact .inl same
        · rw [height] at lower
          rcases ih _ lower reachedAbove higher rfl with same | smaller
          · exact .inr (same ▸ lower)
          · exact .inr (Nat.lt_trans smaller lower)

theorem Hierarchy.antisymm (hierarchy : Hierarchy edge root idom rank) {a b : Fin n}
    (reachedA : Relation.ReflTransGen edge root a) (reachedB : Relation.ReflTransGen edge root b)
    (first : Dominates edge root a b) (second : Dominates edge root b a) : a = b := by
  rcases hierarchy.eq_or_rank_lt reachedB first with same | smaller
  · exact same
  · rcases hierarchy.eq_or_rank_lt reachedA second with same | larger
    · exact same.symm
    · exact absurd smaller (Nat.lt_asymm larger)

/-- Climbing from a reachable block by immediate dominators ends at the root. -/
theorem Hierarchy.climb_induct (hierarchy : Hierarchy edge root idom rank) {motive : Fin n → Prop}
    (first : idom.get root = none → motive root)
    (up : ∀ {block above}, Relation.ReflTransGen edge root block → idom.get block = some above →
      Relation.ReflTransGen edge root above → ImmediatelyDominates edge root above block →
      motive above → motive block)
    (reached : Relation.ReflTransGen edge root block) : motive block := by
  induction height : rank block using Nat.strongRecOn generalizing block with
  | ind bound ih =>
      by_cases same : block = root
      · exact same ▸ first hierarchy.first
      · obtain ⟨above, recorded, lower, reachedAbove, immediate⟩ := hierarchy.immediate reached same
        exact up reached recorded reachedAbove immediate
          (ih (rank above) (height ▸ lower) reachedAbove rfl)

/-! ## Chains -/

/-- The chains have been found for the blocks done. -/
def Chained (tree : DomTree n) (done : List (Fin n)) (chains : Table n (List (Fin n))) : Prop :=
  ∀ block ∈ done, chains.get block = block :: (tree.idom.get block).elim [] chains.get ∧
    ∀ above, tree.idom.get block = some above → above ∈ done

theorem Chained.extend {done : List (Fin n)} {chains : Table n (List (Fin n))}
    (chained : tree.Chained done chains) (fresh : block ∉ done)
    (known : ∀ above, tree.idom.get block = some above → above ∈ done) :
    tree.Chained (done ++ [block]) (tree.extendChain chains block) := by
  have kept {other : Fin n} (member : other ∈ done) :
      (tree.extendChain chains block).get other = chains.get other :=
    Table.get_set_ne _ _ fun same => fresh (same ▸ member)
  have above_eq (other : Fin n) (inside : ∀ above, tree.idom.get other = some above → above ∈ done) :
      (tree.idom.get other).elim [] (tree.extendChain chains block).get =
        (tree.idom.get other).elim [] chains.get := by
    cases recorded : tree.idom.get other with
    | none => rfl
    | some above => exact kept (inside above recorded)
  intro other member
  rcases List.mem_append.mp member with before | new
  · obtain ⟨value, inside⟩ := chained other before
    refine ⟨?_, fun above recorded => List.mem_append_left _ (inside above recorded)⟩
    rw [kept before, value, above_eq other inside]
  · obtain rfl := List.mem_singleton.mp new
    refine ⟨?_, fun above recorded => List.mem_append_left _ (known above recorded)⟩
    rw [above_eq other known]
    unfold extendChain
    rw [Table.get_set_self]
    cases tree.idom.get other with
    | none => rfl
    | some above => rfl

theorem chained_foldl {rest done : List (Fin n)} {chains : Table n (List (Fin n))}
    (chained : tree.Chained done chains) (nodup : (done ++ rest).Nodup)
    (sorted : ∀ block above, tree.idom.get block = some above →
      (done ++ rest).idxOf above < (done ++ rest).idxOf block) :
    tree.Chained (done ++ rest) (rest.foldl tree.extendChain chains) := by
  induction rest generalizing done chains with
  | nil =>
      rw [List.append_nil]
      exact chained
  | cons block rest ih =>
      have fresh : block ∉ done := fun member =>
        List.disjoint_of_nodup_append nodup member List.mem_cons_self
      have known (above : Fin n) (recorded : tree.idom.get block = some above) : above ∈ done := by
        have earlier := sorted block above recorded
        rw [List.idxOf_append_of_notMem fresh, List.idxOf_cons_self, Nat.add_zero] at earlier
        by_contra absent
        rw [List.idxOf_append_of_notMem absent] at earlier
        omega
      rw [List.append_cons] at nodup sorted ⊢
      exact ih (chained.extend fresh known) nodup sorted

theorem get_foldl_extendChain {blocks : List (Fin n)} (absent : block ∉ blocks)
    (chains : Table n (List (Fin n))) :
    (blocks.foldl tree.extendChain chains).get block = chains.get block := by
  induction blocks generalizing chains with
  | nil => rfl
  | cons first rest ih =>
      rw [List.foldl_cons, ih (List.not_mem_of_not_mem_cons absent)]
      exact Table.get_set_ne _ _ (Ne.symm (List.ne_of_not_mem_cons absent))

namespace Correct

variable (correct : tree.Correct edge root)
include correct

variable {block d above join : Fin n} {edges : Edges n}

theorem get_chains (reached : Relation.ReflTransGen edge root block) :
    tree.chains.get block = block :: (tree.idom.get block).elim [] tree.chains.get := by
  have chained : tree.Chained ([] ++ tree.preorder) tree.chains :=
    chained_foldl (fun _ member => absurd member List.not_mem_nil) correct.nodup correct.sorted
  exact (chained block ((correct.mem_preorder block).mpr reached)).1

theorem reached_of_mem_chains
    (member : d ∈ tree.chains.get block) : Relation.ReflTransGen edge root block := by
  rw [← correct.mem_preorder]
  by_contra absent
  unfold chains at member
  rw [get_foldl_extendChain absent, Table.get_replicate] at member
  cases member

theorem mem_chains_iff (reached : Relation.ReflTransGen edge root block) :
    d ∈ tree.chains.get block ↔ Dominates edge root d block := by
  obtain ⟨rank, hierarchy⟩ := correct.hierarchy
  refine hierarchy.climb_induct (motive := fun block => d ∈ tree.chains.get block ↔
    Dominates edge root d block) ?_ ?_ reached
  · intro first
    rw [correct.get_chains .refl, first, Option.elim_none, List.mem_singleton]
    constructor
    · rintro rfl
      exact .refl _
    · exact fun dominates => List.mem_singleton.mp (dominates _ .start)
  · intro block above reached recorded _ immediate ih
    rw [correct.get_chains reached, List.mem_cons, recorded, Option.elim_some, immediate.iff,
      ih]

theorem immediate_of_recorded (recorded : tree.idom.get block = some above) :
    Relation.ReflTransGen edge root above ∧ ImmediatelyDominates edge root above block := by
  obtain ⟨rank, hierarchy⟩ := correct.hierarchy
  have different : block ≠ root := by
    rintro rfl
    rw [hierarchy.first] at recorded
    cases recorded
  obtain ⟨other, same, _, reachedAbove, immediate⟩ :=
    hierarchy.immediate (hierarchy.reached_of_recorded recorded) different
  obtain rfl := Option.some.inj (recorded.symm.trans same)
  exact ⟨reachedAbove, immediate⟩

theorem dominates_of_recorded
    (recorded : tree.idom.get join = some above) : Dominates edge root above join :=
  ((correct.immediate_of_recorded recorded).2.iff above).mpr (.inr (.refl _))

/-- The immediate dominator of a join is on the way up from every predecessor of the join. -/
theorem idom_mem_chains {pred : Fin n} (reached : Relation.ReflTransGen edge root pred)
    (joined : edge pred join)
    (recorded : tree.idom.get join = some above) : above ∈ tree.chains.get pred := by
  obtain ⟨_, immediate⟩ := correct.immediate_of_recorded recorded
  exact (correct.mem_chains_iff reached).mpr
    ((correct.dominates_of_recorded recorded).of_edge joined immediate.ne)

/-! ## Frontiers -/

omit correct in
theorem mem_frontiers_iff :
    join ∈ (tree.frontiers edges).get block ↔ block ∈ tree.passed edges tree.chains join := by
  unfold frontiers
  simp

/-- What does not change at the blocks passed on a climb is the same where the climb stops. -/
theorem climb_eq {α : Type} {out : Option (Fin n) → α} {goal : Option (Fin n)}
    (reached : Relation.ReflTransGen edge root block)
    (same : ∀ x ∈ (tree.chains.get block).takeWhile fun x => some x != goal,
      out (some x) = out (tree.idom.get x))
    (met : ∀ a, goal = some a → a ∈ tree.chains.get block) : out (some block) = out goal := by
  obtain ⟨rank, hierarchy⟩ := correct.hierarchy
  revert same met
  refine hierarchy.climb_induct (motive := fun block =>
    (∀ x ∈ (tree.chains.get block).takeWhile fun x => some x != goal,
      out (some x) = out (tree.idom.get x)) →
    (∀ a, goal = some a → a ∈ tree.chains.get block) → out (some block) = out goal) ?_ ?_ reached
  · intro first same met
    rw [correct.get_chains .refl, first, Option.elim_none] at same met
    cases goal with
    | none =>
        rw [same root (by simp), first]
    | some a => rw [List.mem_singleton.mp (met a rfl)]
  · intro block above reached recorded _ _ ih same met
    by_cases stopped : some block = goal
    · rw [stopped]
    have passes : (some block != goal) = true := bne_iff_ne.mpr stopped
    rw [correct.get_chains reached, recorded, Option.elim_some] at same met
    rw [List.takeWhile_cons, if_pos passes] at same
    rw [same block List.mem_cons_self, recorded]
    refine ih (fun x member => same x (List.mem_cons_of_mem _ member)) ?_
    intro a isGoal
    refine (List.mem_cons.mp (met a isGoal)).resolve_left fun equal => ?_
    exact stopped (equal ▸ isGoal.symm)

/-- What does not change at any block with a join in its frontier is the same at the end of each
predecessor of the join as at the end of its immediate dominator. -/
theorem eq_of_frontier {α : Type} {out : Option (Fin n) → α} {pred : Fin n}
    (reached : Relation.ReflTransGen edge root pred)
    (joined : edge pred join) (listed : pred ∈ edges.preds.get join)
    (same : ∀ x, join ∈ (tree.frontiers edges).get x → out (some x) = out (tree.idom.get x)) :
    out (some pred) = out (tree.idom.get join) := by
  refine correct.climb_eq reached ?_ ?_
  · intro x member
    refine same x (mem_frontiers_iff.mpr ?_)
    unfold passed
    rw [if_pos ((correct.reachable join).mpr (reached.tail joined))]
    exact List.mem_flatMap.mpr ⟨pred, listed, member⟩
  · exact fun above => correct.idom_mem_chains reached joined

/-- A climb that stops before a dominator passes the dominators below it. -/
theorem mem_takeWhile_chains {goal : Option (Fin n)} {x : Fin n}
    (reached : Relation.ReflTransGen edge root block)
    (met : ∀ a, goal = some a → a ∈ tree.chains.get block) :
    x ∈ ((tree.chains.get block).takeWhile fun x => some x != goal) ↔
      x ∈ tree.chains.get block ∧ ∀ a, goal = some a → x ∉ tree.chains.get a := by
  obtain ⟨rank, hierarchy⟩ := correct.hierarchy
  revert met
  refine hierarchy.climb_induct (motive := fun block =>
    (∀ a, goal = some a → a ∈ tree.chains.get block) →
    (x ∈ ((tree.chains.get block).takeWhile fun x => some x != goal) ↔
      x ∈ tree.chains.get block ∧ ∀ a, goal = some a → x ∉ tree.chains.get a)) ?_ ?_ reached
  · intro first met
    have chain := correct.get_chains .refl
    rw [first, Option.elim_none] at chain
    cases goal with
    | none => simp [chain]
    | some a =>
        rw [chain] at met
        simp [List.mem_singleton.mp (met a rfl), chain]
  · intro block above reached recorded _ _ ih met
    by_cases stopped : some block = goal
    · subst stopped
      rw [correct.get_chains reached, List.takeWhile_cons_of_neg (by simp)]
      simp [← correct.get_chains reached]
    have below (a : Fin n) (isGoal : goal = some a) : block ∉ tree.chains.get a := by
      intro member
      have dominates := (correct.mem_chains_iff reached).mp (met a isGoal)
      have reachedGoal := dominates.reaches reached
      have same := hierarchy.antisymm reached reachedGoal
        ((correct.mem_chains_iff reachedGoal).mp member) dominates
      exact stopped (same ▸ isGoal.symm)
    have here : x = block → ∀ a, goal = some a → x ∉ tree.chains.get a := by
      rintro rfl
      exact below
    have passes : (some block != goal) = true := bne_iff_ne.mpr stopped
    rw [correct.get_chains reached, recorded, Option.elim_some] at met ⊢
    rw [List.takeWhile_cons, if_pos passes, List.mem_cons, List.mem_cons, or_and_right,
      and_iff_left_of_imp here]
    refine or_congr_right (ih fun a isGoal => ?_)
    refine (List.mem_cons.mp (met a isGoal)).resolve_left fun equal => ?_
    exact stopped (equal ▸ isGoal.symm)

/-- The strict dominators of a block are on the chain of its immediate dominator. -/
theorem strictly_dominates_iff (reached : Relation.ReflTransGen edge root block) :
    d ≠ block ∧ Dominates edge root d block ↔
      ∃ above, tree.idom.get block = some above ∧ d ∈ tree.chains.get above := by
  obtain ⟨rank, hierarchy⟩ := correct.hierarchy
  constructor
  · rintro ⟨different, dominates⟩
    have notRoot : block ≠ root := by
      rintro rfl
      exact different (List.mem_singleton.mp (dominates _ .start))
    obtain ⟨above, recorded, _, reachedAbove, immediate⟩ := hierarchy.immediate reached notRoot
    refine ⟨above, recorded, (correct.mem_chains_iff reachedAbove).mpr ?_⟩
    exact ((immediate.iff d).mp dominates).resolve_left different
  · rintro ⟨above, recorded, member⟩
    obtain ⟨reachedAbove, immediate⟩ := correct.immediate_of_recorded recorded
    have higher := (correct.mem_chains_iff reachedAbove).mp member
    refine ⟨?_, (immediate.iff d).mpr (.inr higher)⟩
    rintro rfl
    exact immediate.ne (hierarchy.antisymm reachedAbove reached
      (correct.dominates_of_recorded recorded) higher)

/-- The frontiers of a tree are those of its flow graph. -/
theorem mem_frontiers_iff_inFrontier (listed : ∀ a b, a ∈ edges.preds.get b ↔ edge a b) :
    join ∈ (tree.frontiers edges).get block ↔ InFrontier edge root block join := by
  rw [mem_frontiers_iff]
  unfold passed
  by_cases reachedJoin : Relation.ReflTransGen edge root join
  · rw [if_pos ((correct.reachable join).mpr reachedJoin), List.mem_flatMap]
    constructor
    · rintro ⟨pred, isPred, member⟩
      have joined := (listed pred join).mp isPred
      have reached := correct.reached_of_mem_chains (List.takeWhile_subset _ member)
      rw [correct.mem_takeWhile_chains reached fun above => correct.idom_mem_chains reached joined]
        at member
      have dominates := (correct.mem_chains_iff reached).mp member.1
      refine ⟨dominates.reaches reached, reachedJoin, ⟨pred, reached, joined, dominates⟩, ?_⟩
      rw [correct.strictly_dominates_iff reachedJoin]
      rintro ⟨above, recorded, higher⟩
      exact member.2 above recorded higher
    · rintro ⟨_, _, ⟨pred, reached, joined, dominates⟩, outside⟩
      refine ⟨pred, (listed pred join).mpr joined, ?_⟩
      rw [correct.mem_takeWhile_chains reached fun above => correct.idom_mem_chains reached joined]
      refine ⟨(correct.mem_chains_iff reached).mpr dominates, fun above recorded higher => ?_⟩
      exact outside ((correct.strictly_dominates_iff reachedJoin).mpr ⟨above, recorded, higher⟩)
  · rw [if_neg fun marked => reachedJoin ((correct.reachable join).mp marked)]
    exact iff_of_false List.not_mem_nil fun inside => reachedJoin inside.reachedJoin

end Correct

end Lowering.DomTree

namespace Lowering.FlowGraph

open Dominance

variable {n : Nat} {graph : FlowGraph n}

theorem mem_preds_of_build {edges : Edges n} (built : Edges.build graph = .ok edges)
    (a b : Fin n) : a ∈ edges.preds.get b ↔ graph.Leads a b := by
  rw [transposed_of_build built a b, ← flows_eq_leads built]

/-- The frontiers of any flow graph: a join is listed for a block if and only if both are reachable, the
block dominates a reachable predecessor of the join, and it does not strictly dominate the join. -/
theorem frontiers_exact {entry : Nat}
    (closed : ∀ block, ∀ target ∈ graph.succs block, target < n) (inside : entry < n) :
    ∃ edges tree, Edges.build graph = .ok edges ∧ DomTree.build edges entry = .ok tree ∧
      ∀ block join : Fin n, join ∈ (tree.frontiers edges).get block ↔
        InFrontier graph.Leads ⟨entry, inside⟩ block join := by
  have built : Edges.build graph = .ok (.ofSuccs graph.targets) :=
    Edges.build_eq_ok_iff.mpr ⟨closed, rfl⟩
  have rooted : DomTree.build (.ofSuccs graph.targets) entry = .ok _ := dif_pos inside
  refine ⟨_, _, built, rooted, fun block join => ?_⟩
  exact (correct_build built inside rooted).mem_frontiers_iff_inFrontier (mem_preds_of_build built)

/-- A loop through the entry, a block that leads to itself, and one that is never reached. -/
def returning : FlowGraph 4 := ofRows [[1], [1, 2], [0], [0, 2]]

theorem frontiers_exact_returning :
    (∀ block, ∀ target ∈ returning.succs block, target < 4) ∧
      ∃ edges tree, Edges.build returning = .ok edges ∧ DomTree.build edges 0 = .ok tree ∧
        ⟨0, by decide⟩ ∈ (tree.frontiers edges).get ⟨2, by decide⟩ ∧
        ⟨1, by decide⟩ ∈ (tree.frontiers edges).get ⟨1, by decide⟩ ∧
        ⟨2, by decide⟩ ∉ (tree.frontiers edges).get ⟨3, by decide⟩ := by
  have closed : ∀ block, ∀ target ∈ returning.succs block, target < 4 := by decide
  obtain ⟨edges, tree, builtEdges, builtTree, exact⟩ :=
    frontiers_exact closed (show 0 < 4 by decide)
  have reachedOne : Relation.ReflTransGen returning.Leads ⟨0, by decide⟩ ⟨1, by decide⟩ :=
    .single (show 1 ∈ [1] by decide)
  have reachedTwo : Relation.ReflTransGen returning.Leads ⟨0, by decide⟩ ⟨2, by decide⟩ :=
    reachedOne.tail (show 2 ∈ [1, 2] by decide)
  refine ⟨closed, edges, tree, builtEdges, builtTree, (exact _ _).mpr ?_, (exact _ _).mpr ?_, ?_⟩
  · refine ⟨reachedTwo, .refl, ⟨_, reachedTwo, show 0 ∈ [0] by decide, .refl _⟩, fun strict => ?_⟩
    exact absurd (strict.2 _ .start) (by decide)
  · exact ⟨reachedOne, reachedOne, ⟨_, reachedOne, show 1 ∈ [1, 2] by decide, .refl _⟩,
      fun strict => strict.1 rfl⟩
  · have nowhere : ∀ block, 3 ∉ returning.succs block := by decide
    intro listed
    rcases Relation.ReflTransGen.cases_tail ((exact _ _).mp listed).reached with
      same | ⟨pred, _, joined⟩
    · exact absurd same (by decide)
    · exact nowhere pred joined

end Lowering.FlowGraph
