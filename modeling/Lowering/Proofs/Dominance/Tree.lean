import Lowering.Proofs.Dominance.Blocks
import Lowering.Proofs.Flow.Edges
import Mathlib.Data.Set.Card
import Mathlib.Order.Interval.Finset.Fin

/-!
# Dominator trees answer dominance queries

The preorder of a dominator tree is the depth-first order of its children, so the blocks that a
block dominates follow it in one run, whose length its extent counts.
-/

namespace Lowering.Dominance

variable {n : Nat} {edge : Fin n → Fin n → Prop} {zero : Fin n} {parent : Fin n → Fin n}
  {w x y : Fin n}

/-! ## Sizes of subtrees -/

/-- The subtree of `x` holds `y`, and all vertices from `y` up to below `x` are from the bound on. -/
def Gathered (parent : Fin n → Fin n) (bound : Nat) (x y : Fin n) : Prop :=
  Covers parent x y ∧ ∀ u, Covers parent u y → x < u → bound ≤ u.val

theorem setOf_gathered_beyond {bound : Nat} (beyond : n ≤ bound) (x : Fin n) :
    {y | Gathered parent bound x y} = {x} := by
  ext y
  rw [Set.mem_ofPred_eq, Set.mem_singleton_iff]
  constructor
  · rintro ⟨covers, between⟩
    by_contra different
    have inside := between y (.refl y) (lt_of_le_of_ne covers.le (Ne.symm different))
    exact absurd y.isLt (Nat.not_lt.mpr (beyond.trans inside))
  · rintro rfl
    exact ⟨.refl y, fun u held above => absurd above (not_lt.mpr held.le)⟩

/-- Stepping the bound down over `w` moves the subtree of `w` to its parent. -/
theorem gathered_step (numbering : Numbering edge zero parent) (positive : zero < w) :
    Gathered parent w.val x y ↔ Gathered parent (w.val + 1) x y ∨
      x = parent w ∧ Gathered parent (w.val + 1) w y := by
  have below := numbering.parent_lt positive
  constructor
  · rintro ⟨covers, between⟩
    by_cases through : x < w ∧ Covers parent w y
    · obtain ⟨above, held⟩ := through
      have upper : x ≤ parent w := (covers.mono above.le held.le).2 w above le_rfl
      refine .inr ⟨?_, held, fun u _ strict => strict⟩
      by_contra different
      have inside := between (parent w) ((numbering.covers_parent positive).trans held)
        (lt_of_le_of_ne upper different)
      exact absurd below (not_lt.mpr inside)
    · refine .inl ⟨covers, fun u held above => ?_⟩
      refine Nat.lt_of_le_of_ne (between u held above) fun same => ?_
      obtain rfl : w = u := Fin.ext same
      exact through ⟨above, held⟩
  · rintro (⟨covers, between⟩ | ⟨rfl, held, _⟩)
    · exact ⟨covers, fun u held above => Nat.le_of_succ_le (between u held above)⟩
    · refine ⟨(numbering.covers_parent positive).trans held, ?_⟩
      intro u higher above
      by_contra early
      exact absurd above (not_lt.mpr (higher.2 w (Nat.not_le.mp early) held.le))

theorem ncard_gathered_step (numbering : Numbering edge zero parent) (positive : zero < w)
    (x : Fin n) :
    {y | Gathered parent w.val x y}.ncard = {y | Gathered parent (w.val + 1) x y}.ncard +
      if x = parent w then {y | Gathered parent (w.val + 1) w y}.ncard else 0 := by
  by_cases same : x = parent w
  · have union : {y | Gathered parent w.val x y} =
        {y | Gathered parent (w.val + 1) x y} ∪ {y | Gathered parent (w.val + 1) w y} := by
      ext y
      rw [Set.mem_ofPred_eq, gathered_step numbering positive]
      simp [same]
    have disjoint : Disjoint {y | Gathered parent (w.val + 1) x y}
        {y | Gathered parent (w.val + 1) w y} := by
      rw [Set.disjoint_left]
      rintro y ⟨_, between⟩ ⟨held, _⟩
      exact Nat.not_succ_le_self _ (between w held (same ▸ numbering.parent_lt positive))
    rw [if_pos same, union, Set.ncard_union_eq disjoint]
  · have equal : {y | Gathered parent w.val x y} = {y | Gathered parent (w.val + 1) x y} := by
      ext y
      rw [Set.mem_ofPred_eq, gathered_step numbering positive]
      simp [same]
    rw [if_neg same, equal]
    exact (Nat.add_zero _).symm

/-- A subtree is the run of numbers from its root on that its size measures. -/
theorem covers_iff_lt : Covers parent x y ↔
    x.val ≤ y.val ∧ y.val < x.val + {z | Covers parent x z}.ncard := by
  constructor
  · intro covers
    have inside : (Finset.Icc x y : Set (Fin n)) ⊆ {z | Covers parent x z} := by
      intro z member
      rw [Finset.mem_coe, Finset.mem_Icc] at member
      exact covers.mono member.1 member.2
    have size := Set.ncard_le_ncard inside
    rw [Set.ncard_coe_finset, Fin.card_Icc] at size
    have := covers.le
    refine ⟨this, ?_⟩
    omega
  · rintro ⟨after, within⟩
    by_contra missed
    have inside : {z | Covers parent x z} ⊆ (Finset.Ico x y : Set (Fin n)) := by
      intro z covers
      rw [Finset.mem_coe, Finset.mem_Ico]
      refine ⟨covers.le, ?_⟩
      by_contra later
      exact missed (covers.mono after (not_lt.mp later))
    have size := Set.ncard_le_ncard inside
    rw [Set.ncard_coe_finset, Fin.card_Ico] at size
    omega

end Lowering.Dominance

namespace Lowering.DomTree

open Search Dominance

variable {n : Nat} {edge : Fin n → Fin n → Prop} {root : Fin n} {reachable : Table n Bool}
  {idom : Table n (Option (Fin n))} {rank : Fin n → Nat}

/-! ## The tree of immediate dominators -/

section Children

variable {succ : Fin n → List (Fin n)} {span : Spanning n}
  (hierarchy : Hierarchy edge root idom rank)
  (children : ∀ a c, c ∈ succ a ↔ idom.get c = some a)
  (complete : span.Complete succ root)
include hierarchy children

/-- The children lead from the root to exactly the blocks reached. -/
theorem reaches_children_iff {block : Fin n} :
    Reaches succ root block ↔ Relation.ReflTransGen edge root block := by
  constructor
  · intro reaches
    induction reaches with
    | refl => exact .refl
    | @tail a c _ joined _ => exact hierarchy.reached_of_recorded ((children a c).mp joined)
  · intro reached
    induction height : rank block using Nat.strongRecOn generalizing block with
    | ind bound ih =>
        by_cases same : block = root
        · exact same ▸ .refl
        · obtain ⟨above, recorded, lower, reachedAbove, _⟩ := hierarchy.immediate reached same
          have way := ih (rank above) (height ▸ lower) reachedAbove rfl
          exact way.tail ((children above block).mpr recorded)

include complete

theorem immediate_vertex {w : Fin span.count} (positive : ⟨0, complete.count_pos⟩ < w) :
    idom.get (span.vertex w) = some (span.vertex (span.parent w)) ∧
      ImmediatelyDominates edge root (span.vertex (span.parent w)) (span.vertex w) := by
  have recorded : idom.get (span.vertex w) = some (span.vertex (span.parent w)) :=
    (children _ _).mp (complete.numbering.edge_parent positive)
  have different : span.vertex w ≠ root := fun same =>
    positive.ne' (complete.vertex_eq_root_iff.mp same)
  have reached := (reaches_children_iff hierarchy children).mp
    (complete.exists_vertex.mp ⟨w, rfl⟩)
  obtain ⟨above, same, _, _, immediate⟩ := hierarchy.immediate reached different
  rw [recorded] at same
  exact ⟨recorded, Option.some.inj same ▸ immediate⟩

/-- The subtrees of the preorder are the blocks dominated. -/
theorem covers_iff_dominates {u x : Fin span.count} :
    Covers span.parent u x ↔ Dominates edge root (span.vertex u) (span.vertex x) := by
  have numbering := complete.numbering
  induction x using WellFoundedLT.induction with
  | ind x ih =>
      rcases (numbering.zero_le x).eq_or_lt with rfl | positive
      · constructor
        · intro covers
          rw [le_antisymm covers.le (numbering.zero_le u)]
          exact .refl _
        · intro dominates
          rw [complete.vertex_zero] at dominates
          have same := List.mem_singleton.mp (dominates _ .start)
          exact complete.vertex_eq_root_iff.mp same ▸ .refl _
      · have upper : Covers span.parent u (span.parent x) ↔
            Dominates edge root (span.vertex u) (span.vertex (span.parent x)) :=
          ih _ (numbering.parent_lt positive)
        rw [(immediate_vertex hierarchy children complete positive).2.iff, complete.vertex_inj,
          ← upper]
        constructor
        · intro covers
          rcases covers.le.eq_or_lt with same | above
          · exact .inl same
          · exact .inr (covers.up numbering above)
        · rintro (rfl | above)
          · exact .refl _
          · exact above.trans (numbering.covers_parent positive)

/-- Adding the size of a block to that of the block above it. -/
theorem gather_vertex {extent next : Table n Nat} {w : Fin span.count}
    (sizes : ∀ x, extent.get (span.vertex x) =
      {y | Gathered span.parent (w.val + 1) x y}.ncard)
    (add : ∀ above, idom.get (span.vertex w) = some above →
      next = extent.set above (extent.get above + extent.get (span.vertex w)))
    (keep : idom.get (span.vertex w) = none → next = extent) (x : Fin span.count) :
    next.get (span.vertex x) = {y | Gathered span.parent w.val x y}.ncard := by
  have numbering := complete.numbering
  rcases (numbering.zero_le w).eq_or_lt with rfl | positive
  · have same (y : Fin span.count) :
        Gathered span.parent (0 + 1) x y ↔ Gathered span.parent 0 x y := by
      refine and_congr_right fun covers => forall_congr' fun u => ?_
      refine imp_congr_right fun held => forall_congr' fun above => ?_
      exact iff_of_true (Nat.lt_of_le_of_lt (Nat.zero_le _) above) (Nat.zero_le _)
    have first : idom.get (span.vertex ⟨0, complete.count_pos⟩) = none :=
      (congrArg idom.get complete.vertex_zero).trans hierarchy.first
    rw [keep first, sizes]
    simp only [same]
  · have recorded := (immediate_vertex hierarchy children complete positive).1
    rw [ncard_gathered_step numbering positive, ← sizes x, ← sizes w, add _ recorded,
      Table.get_set]
    by_cases above : x = span.parent w
    · rw [if_pos (congrArg span.vertex above.symm), if_pos above, ← above]
    · rw [if_neg fun same => above (complete.vertex_inj.mp same.symm), if_neg above]
      exact (Nat.add_zero _).symm

/-- Adding up sizes from the last block to the first one gives the sizes of the subtrees. -/
theorem get_foldl_extent {step : Table n Nat → Fin n → Table n Nat}
    (add : ∀ extent block above, idom.get block = some above →
      step extent block = extent.set above (extent.get above + extent.get block))
    (keep : ∀ extent block, idom.get block = none → step extent block = extent)
    (x : Fin span.count) :
    ((span.walk.map Prod.snd).reverse.foldl step (Table.replicate n 1)).get (span.vertex x) =
      {y | Covers span.parent x y}.ncard := by
  have all (y : Fin span.count) : Gathered span.parent 0 x y ↔ Covers span.parent x y :=
    and_iff_left fun _ _ _ => Nat.zero_le _
  simp only [← all]
  rw [← span.map_vertex_finRange, List.foldl_reverse, List.foldr_map]
  refine foldr_descending
    (fun bound (extent : Table n Nat) => ∀ x : Fin span.count,
      extent.get (span.vertex x) = {y | Gathered span.parent bound x y}.ncard)
    ?_ ?_ (List.finRange span.count) (List.pairwise_lt_finRange _) (Nat.le_refl 0) (by simp) x
  · intro bound beyond x
    rw [setOf_gathered_beyond beyond, Set.ncard_singleton, Table.get_replicate]
  · intro w extent _ sizes
    exact gather_vertex hierarchy children complete sizes
      (fun above recorded => add extent _ above recorded) (keep extent _)

end Children

/-- The tree records reachability, immediate dominators and dominance from the root. -/
structure Correct (tree : DomTree n) (edge : Fin n → Fin n → Prop) (root : Fin n) : Prop where
  root_eq : tree.root = root.val
  reachable : ∀ block, tree.reachable.get block = true ↔ Relation.ReflTransGen edge root block
  hierarchy : ∃ rank, Hierarchy edge root tree.idom rank
  children : ∀ a c, c ∈ tree.children.get a ↔ tree.idom.get c = some a
  contains : ∀ a b, Relation.ReflTransGen edge root a → Relation.ReflTransGen edge root b →
    (tree.contains a b = true ↔ Dominates edge root a b)
  nodup : tree.preorder.Nodup
  mem_preorder : ∀ block, block ∈ tree.preorder ↔ Relation.ReflTransGen edge root block
  /-- Dominators come first in the preorder. -/
  sorted : ∀ block above, tree.idom.get block = some above →
    tree.preorder.idxOf above < tree.preorder.idxOf block

theorem correct_assemble (hierarchy : Hierarchy edge root idom rank)
    (marked : ∀ block, reachable.get block = true ↔ Relation.ReflTransGen edge root block) :
    (assemble root reachable idom).Correct edge root := by
  let tree := assemble root reachable idom
  let span := Spanning.search (fun block => tree.children.get block) root
  have children (a c : Fin n) : c ∈ tree.children.get a ↔ idom.get c = some a := by
    show c ∈ (Table.tabulate _).get a ↔ _
    simp
  have complete : span.Complete (fun block => tree.children.get block) root :=
    Spanning.complete_search _ root
  have reaches_iff {block : Fin n} : (∃ w, span.vertex w = block) ↔
      Relation.ReflTransGen edge root block :=
    complete.exists_vertex.trans (reaches_children_iff hierarchy children)
  have position (w : Fin span.count) : tree.preorder.idxOf (span.vertex w) = w.val :=
    complete.place_vertex w
  have extent (w : Fin span.count) :
      tree.extent.get (span.vertex w) = {y | Covers span.parent w y}.ncard := by
    refine get_foldl_extent hierarchy children complete ?_ ?_ w
    · intro extent block above recorded
      simp only [recorded]
    · intro extent block none
      simp only [none]
  refine ⟨rfl, marked, ⟨rank, hierarchy⟩, children, ?contains, ?nodup, ?mem, ?sorted⟩
  case contains =>
    intro a b reachedA reachedB
    obtain ⟨x, rfl⟩ := reaches_iff.mpr reachedA
    obtain ⟨y, rfl⟩ := reaches_iff.mpr reachedB
    have place (w : Fin span.count) : tree.position.get (span.vertex w) = w.val :=
      (Table.get_tabulate _ _).trans (position w)
    rw [← covers_iff_dominates hierarchy children complete, covers_iff_lt]
    unfold DomTree.contains
    rw [place, place, extent, Bool.and_eq_true, decide_eq_true_eq, decide_eq_true_eq]
  case nodup =>
    obtain ⟨_, searching⟩ := complete
    exact searching.nodup
  case mem =>
    intro block
    rw [← reaches_children_iff hierarchy children]
    obtain ⟨_, searching⟩ := complete
    exact searching.mem_iff_reaches
  case sorted =>
    intro block above (recorded : idom.get block = some above)
    obtain ⟨w, rfl⟩ := reaches_iff.mpr (hierarchy.reached_of_recorded recorded)
    rcases (complete.numbering.zero_le w).eq_or_lt with rfl | positive
    · rw [complete.vertex_zero, hierarchy.first] at recorded
      cases recorded
    · rw [(immediate_vertex hierarchy children complete positive).1] at recorded
      obtain rfl := Option.some.inj recorded
      rw [position, position]
      exact complete.numbering.parent_lt positive

theorem correct_rooted {edges : Edges n} (transposed : Transposed edges) (root : Fin n) :
    (rooted edges root).Correct (Flows edges) root := by
  obtain ⟨rank, hierarchy⟩ := hierarchy_idoms transposed root
  refine correct_assemble hierarchy fun block => ?_
  rw [Table.get_tabulate]
  exact (Spanning.complete_search _ root).isSome_number?

/-! ## Queries -/

/-- The blocks met on the way up by immediate dominators, from a block to one that has none. -/
inductive Climb (tree : DomTree n) : Fin n → List (Fin n) → Prop where
  | top {block : Fin n} : tree.idom? block.val = .ok none → Climb tree block [block]
  | up {block above : Fin n} {rest : List (Fin n)} : tree.idom? block.val = .ok (some above) →
      Climb tree above rest → Climb tree block (block :: rest)

namespace Correct

variable {tree : DomTree n}

variable (correct : tree.Correct edge root)
include correct

theorem isReachable_iff {block : Fin n} :
    tree.isReachable block.val = true ↔ Relation.ReflTransGen edge root block := by
  unfold isReachable Table.get?
  rw [dif_pos block.isLt, Option.getD_some]
  exact correct.reachable block

theorem isReachable_iff_trail {block : Fin n} :
    tree.isReachable block.val = true ↔ ∃ passed, Trail edge root block passed := by
  rw [correct.isReachable_iff]
  exact ⟨exists_trail, fun ⟨_, path⟩ => path.reaches⟩

theorem idom?_eq {block : Fin n} (reached : Relation.ReflTransGen edge root block) :
    tree.idom? block.val = .ok (tree.idom.get block) := by
  unfold idom? Table.get?
  rw [if_pos (correct.isReachable_iff.mpr reached), dif_pos block.isLt, Option.getD_some]

theorem idom?_eq_none_iff {block : Fin n} (reached : Relation.ReflTransGen edge root block) :
    tree.idom? block.val = .ok none ↔ block = root := by
  obtain ⟨rank, hierarchy⟩ := correct.hierarchy
  rw [correct.idom?_eq reached]
  constructor
  · intro none
    by_contra different
    obtain ⟨above, recorded, _⟩ := hierarchy.immediate reached different
    rw [recorded] at none
    cases none
  · rintro rfl
    rw [hierarchy.first]

/-- The way up passes exactly the dominators and ends at the root. -/
theorem exists_climb {block : Fin n} (reached : Relation.ReflTransGen edge root block) :
    ∃ chain, tree.Climb block chain ∧ chain.getLast? = some root ∧
      ∀ d, d ∈ chain ↔ Dominates edge root d block := by
  obtain ⟨rank, hierarchy⟩ := correct.hierarchy
  induction height : rank block using Nat.strongRecOn generalizing block with
  | ind bound ih =>
      by_cases same : block = root
      · subst same
        refine ⟨[block], .top ((correct.idom?_eq_none_iff reached).mpr rfl), rfl, fun d => ?_⟩
        rw [List.mem_singleton]
        refine ⟨fun equal => equal ▸ .refl _, fun dominates => ?_⟩
        exact List.mem_singleton.mp (dominates _ .start)
      · obtain ⟨above, recorded, lower, reachedAbove, immediate⟩ :=
          hierarchy.immediate reached same
        obtain ⟨chain, climb, last, members⟩ :=
          ih (rank above) (height ▸ lower) reachedAbove rfl
        refine ⟨block :: chain, .up ?_ climb, ?_, fun d => ?_⟩
        · rw [correct.idom?_eq reached, recorded]
        · rw [List.getLast?_cons, last, Option.getD_some]
        · rw [List.mem_cons, members, immediate.iff]

theorem dominates_eq {a b : Fin n} (reachedA : Relation.ReflTransGen edge root a)
    (reachedB : Relation.ReflTransGen edge root b) :
    tree.dominates a.val b.val = .ok (tree.contains a b) := by
  unfold DomTree.dominates
  rw [correct.isReachable_iff.mpr reachedA, correct.isReachable_iff.mpr reachedB, Bool.and_self,
    if_pos rfl, dif_pos ⟨a.isLt, b.isLt⟩]

theorem exists_of_dominates {a : Nat} {b : Fin n} (answer : tree.dominates a b.val = .ok true) :
    ∃ d : Fin n, a = d.val ∧ Dominates edge root d b := by
  unfold DomTree.dominates at answer
  split at answer
  · next reachable =>
      rw [Bool.and_eq_true] at reachable
      split at answer
      · next inside =>
          have reachedA := (@isReachable_iff _ _ _ _ correct ⟨a, inside.1⟩).mp reachable.1
          have reachedB := correct.isReachable_iff.mp reachable.2
          exact ⟨⟨a, inside.1⟩, rfl,
            (correct.contains _ _ reachedA reachedB).mp (Except.ok.inj answer)⟩
      · cases answer
  · cases answer

theorem dominates_eq_true_iff {a : Nat} {b : Fin n} (reached : Relation.ReflTransGen edge root b) :
    tree.dominates a b.val = .ok true ↔ ∃ d : Fin n, a = d.val ∧ Dominates edge root d b := by
  refine ⟨correct.exists_of_dominates, ?_⟩
  rintro ⟨d, rfl, dominates⟩
  obtain ⟨passed, path⟩ := exists_trail reached
  obtain ⟨before, _, stopped⟩ := path.exists_of_mem (dominates passed path)
  rw [correct.dominates_eq stopped.reaches reached,
    (correct.contains d b stopped.reaches reached).mpr dominates]

end Correct

end Lowering.DomTree

namespace Lowering.FlowGraph

open Dominance

variable {n : Nat} {graph : FlowGraph n} {edges : Edges n}

/-- An edge between two blocks of a flow graph. -/
def Leads (graph : FlowGraph n) (a b : Fin n) : Prop := b.val ∈ graph.succs a

theorem flows_eq_leads (built : Edges.build graph = .ok edges) :
    DomTree.Flows edges = graph.Leads := by
  obtain ⟨_, rfl⟩ := Edges.build_eq_ok_iff.mp built
  funext a b
  exact propext (Edges.mem_succs_ofSuccs.trans mem_targets)

theorem transposed_of_build (built : Edges.build graph = .ok edges) :
    DomTree.Transposed edges := by
  obtain ⟨_, rfl⟩ := Edges.build_eq_ok_iff.mp built
  exact fun _ _ => Edges.mem_preds_ofSuccs

theorem correct_build {entry : Nat} {tree : DomTree n} (built : Edges.build graph = .ok edges)
    (inside : entry < n) (rooted : DomTree.build edges entry = .ok tree) :
    tree.Correct graph.Leads ⟨entry, inside⟩ := by
  have correct := DomTree.correct_rooted (transposed_of_build built) ⟨entry, inside⟩
  rw [flows_eq_leads built] at correct
  unfold DomTree.build at rooted
  rw [dif_pos inside] at rooted
  exact Except.ok.inj rooted ▸ correct

/-- A flow graph has a dominator tree if its successors and its entry are blocks. -/
theorem exists_domTree {entry : Nat} (closed : ∀ block, ∀ target ∈ graph.succs block, target < n)
    (inside : entry < n) :
    ∃ edges tree, Edges.build graph = .ok edges ∧ DomTree.build edges entry = .ok tree ∧
      tree.Correct graph.Leads ⟨entry, inside⟩ := by
  have built : Edges.build graph = .ok (.ofSuccs graph.targets) :=
    Edges.build_eq_ok_iff.mpr ⟨closed, rfl⟩
  exact ⟨_, _, built, dif_pos inside, correct_build built inside (dif_pos inside)⟩

/-- The dominator tree of any flow graph: climbing from a reachable block by immediate dominators
passes exactly the blocks on every path from the entry, and ends there; dominance queries agree. -/
theorem domTree_correct {entry : Nat}
    (closed : ∀ block, ∀ target ∈ graph.succs block, target < n) (inside : entry < n) :
    ∃ edges tree, Edges.build graph = .ok edges ∧ DomTree.build edges entry = .ok tree ∧
      (∀ block : Fin n, tree.isReachable block.val = true ↔
        ∃ passed, Trail graph.Leads ⟨entry, inside⟩ block passed) ∧
      ∀ b : Fin n, tree.isReachable b.val = true →
        (tree.idom? b.val = .ok none ↔ b = ⟨entry, inside⟩) ∧
        ∃ chain, tree.Climb b chain ∧ chain.getLast? = some ⟨entry, inside⟩ ∧
          (∀ d, d ∈ chain ↔ Dominates graph.Leads ⟨entry, inside⟩ d b) ∧
          ∀ a : Fin n, tree.isReachable a.val = true →
            tree.dominates a.val b.val = .ok (decide (a ∈ chain)) := by
  have built : Edges.build graph = .ok (.ofSuccs graph.targets) :=
    Edges.build_eq_ok_iff.mpr ⟨closed, rfl⟩
  have rooted : DomTree.build (.ofSuccs graph.targets) entry = .ok _ := dif_pos inside
  have correct := correct_build built inside rooted
  refine ⟨_, _, built, rooted, ?_, ?_⟩
  · intro block
    rw [correct.isReachable_iff]
    exact ⟨exists_trail, fun ⟨_, path⟩ => path.reaches⟩
  · intro b reachable
    have reached := correct.isReachable_iff.mp reachable
    obtain ⟨chain, climb, last, members⟩ := correct.exists_climb reached
    refine ⟨correct.idom?_eq_none_iff reached, chain, climb, last, members, ?_⟩
    intro a reachableA
    have reachedA := correct.isReachable_iff.mp reachableA
    rw [correct.dominates_eq reachedA reached]
    refine congrArg Except.ok (Bool.eq_iff_iff.mpr ?_)
    rw [correct.contains a b reachedA reached, ← members, decide_eq_true_eq]

/-- Two ways into a loop, a self loop, a doubled edge and a block that is never reached. -/
def irreducible : FlowGraph 5 := ofRows [[1, 2], [2, 1], [1, 3, 3], [], [3]]

theorem domTree_correct_irreducible :
    (∀ block, ∀ target ∈ irreducible.succs block, target < 5) ∧
      ∃ edges tree, Edges.build irreducible = .ok edges ∧ DomTree.build edges 0 = .ok tree ∧
        tree.isReachable 3 = true ∧ tree.idom? 3 ≠ .ok none ∧
        ∃ chain, tree.Climb ⟨3, by decide⟩ chain ∧
          ∀ d, d ∈ chain ↔ Dominates irreducible.Leads ⟨0, by decide⟩ d ⟨3, by decide⟩ := by
  have closed : ∀ block, ∀ target ∈ irreducible.succs block, target < 5 := by decide
  have path : Trail irreducible.Leads ⟨0, by decide⟩ ⟨3, by decide⟩
      [⟨3, by decide⟩, ⟨2, by decide⟩, ⟨0, by decide⟩] :=
    (Trail.start.step (show 2 ∈ [1, 2] by decide)).step (show 3 ∈ [1, 3, 3] by decide)
  obtain ⟨edges, tree, builtEdges, builtTree, reachable, queries⟩ :=
    domTree_correct closed (show 0 < 5 by decide)
  have reached := (reachable ⟨3, by decide⟩).mpr ⟨_, path⟩
  obtain ⟨none_iff, chain, climb, _, members, _⟩ := queries ⟨3, by decide⟩ reached
  refine ⟨closed, edges, tree, builtEdges, builtTree, reached, ?_, chain, climb, members⟩
  exact fun none => absurd (none_iff.mp none) (by decide)

end Lowering.FlowGraph
