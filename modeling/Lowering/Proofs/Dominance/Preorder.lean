import Lowering.Proofs.Dominance.Tours

/-!
# The preorder of a dominator tree

The preorder lists blocks as a tour enters them.  A tour unwinds to a block and behind it the subtrees of
its children, so each subtree is a run of the preorder, and it holds the blocks that its root dominates.
-/

namespace Lowering

open Dominance

variable {n : Nat} {edge : Fin n → Fin n → Prop} {root : Fin n} {tree : DomTree n}
  {children : Fin n → List (Fin n)}

/-! ## Blocks entered -/

/-- The block that a visit enters. -/
def Visit.entered? : Visit n → Option (Fin n)
  | enter block => some block
  | leave _ => none

theorem Visit.entered_append (blocks : List (Fin n)) (block : Fin n) (rest : List (Visit n)) :
    (blocks.map enter ++ leave block :: rest).filterMap entered? =
      blocks ++ rest.filterMap entered? := by
  rw [List.filterMap_append, List.filterMap_map]
  exact congrArg (· ++ _) List.filterMap_some

/-- A tour enters blocks in the order in which a depth-first search visits them. -/
theorem Visit.entered_expand (marks : Search.Marks n) (agenda : List (Visit n))
    {entries : List (Fin n × Fin n)} (same : entries.map Prod.snd = agenda.filterMap entered?) :
    (expand children marks agenda).filterMap entered? =
      (Search.depthFirst children marks entries).map Prod.snd := by
  fun_induction expand children marks agenda generalizing entries with
  | case1 marks =>
      rw [List.map_eq_nil_iff.mp same, Search.depthFirst]
      rfl
  | case2 marks block rest ih => exact ih same
  | case3 marks block rest marked ih =>
      obtain ⟨⟨parent, _⟩, entries, rfl, rfl, sameRest⟩ := List.map_eq_cons_iff.mp same
      rw [Search.depthFirst, if_pos marked]
      exact ih sameRest
  | case4 marks block rest unmarked ih =>
      obtain ⟨⟨parent, _⟩, entries, rfl, rfl, sameRest⟩ := List.map_eq_cons_iff.mp same
      rw [Search.depthFirst, if_neg unmarked]
      refine congrArg (List.cons _) (ih ?_)
      rw [entered_append, ← sameRest, List.map_append, List.map_map]
      exact congrArg (· ++ _) (List.map_id _)

theorem DomTree.entered_tour {edges : Edges n} {entry : Nat}
    (rooted : DomTree.build edges entry = .ok tree) :
    tree.tour.filterMap Visit.entered? = tree.preorder := by
  unfold DomTree.build at rooted
  split at rooted
  · next inside =>
      cases rooted
      unfold tour
      rw [dif_pos (show (DomTree.rooted edges ⟨entry, inside⟩).root < n from inside)]
      exact Visit.entered_expand _ _ rfl
  · next outside =>
      split at rooted
      · cases rooted
        unfold tour
        rw [dif_neg outside]
        rfl
      · cases rooted

/-! ## Subtrees -/

/-- The subtrees of some blocks in preorder, one after the other. -/
inductive Subtrees (children : Fin n → List (Fin n)) : List (Fin n) → List (Fin n) → Prop where
  | nil : Subtrees children [] []
  | cons {block : Fin n} {rest below after : List (Fin n)} : Subtrees children (children block) below →
      Subtrees children rest after → Subtrees children (block :: rest) (block :: (below ++ after))

namespace Subtrees

variable {blocks order : List (Fin n)}

theorem exists_append {first second : List (Fin n)} (subtrees : Subtrees children (first ++ second) order) :
    ∃ before after, order = before ++ after ∧ Subtrees children first before ∧
      Subtrees children second after := by
  induction first generalizing order with
  | nil => exact ⟨[], order, rfl, .nil, subtrees⟩
  | cons block rest ih =>
      cases subtrees with
      | @cons _ _ below _ here later =>
          obtain ⟨before, after, rfl, isRest, isSecond⟩ := ih later
          exact ⟨block :: (below ++ before), after, by simp, .cons here isRest, isSecond⟩

variable (subtrees : Subtrees children blocks order)
include subtrees

theorem head?_eq : order.head? = blocks.head? := by
  cases subtrees <;> rfl

/-- Every block that is listed has its subtree listed. -/
theorem exists_run {block : Fin n} (member : block ∈ order) :
    ∃ run, Subtrees children [block] run ∧ run <:+: order := by
  induction subtrees with
  | nil => cases member
  | @cons first rest below after here later inBelow inAfter =>
      rcases List.mem_cons.mp member with rfl | member
      · exact ⟨_, .cons here .nil, [], after, by simp⟩
      · rcases List.mem_append.mp member with inside | outside
        · obtain ⟨run, isRun, part⟩ := inBelow inside
          exact ⟨run, isRun, part.trans ((List.prefix_append below after).isInfix.trans
            (List.suffix_cons first _).isInfix)⟩
        · obtain ⟨run, isRun, part⟩ := inAfter outside
          exact ⟨run, isRun, part.trans ((List.suffix_append below after).isInfix.trans
            (List.suffix_cons first _).isInfix)⟩

/-- A subtree holds the descendants of its root. -/
theorem mem_iff {block : Fin n} :
    block ∈ order ↔ ∃ top ∈ blocks, Search.Reaches children top block := by
  induction subtrees with
  | nil => simp
  | @cons first rest below after here later inBelow inAfter =>
      have descends : Search.Reaches children first block ↔
          block = first ∨ ∃ child ∈ children first, Search.Reaches children child block := by
        unfold Search.Reaches
        rw [Relation.ReflTransGen.cases_head_iff, eq_comm]
      rw [List.mem_cons, List.mem_append, inBelow, inAfter, List.exists_mem_cons_iff, descends, or_assoc]

/-- A list of subtrees falls into the subtrees of its blocks. -/
theorem eq_flatMap {subtree : Fin n → List (Fin n)} {whole : List (Fin n)}
    (part : order <:+: whole)
    (each : ∀ {block run}, Subtrees children [block] run → run <:+: whole → subtree block = run) :
    order = blocks.flatMap subtree := by
  induction subtrees with
  | nil => rfl
  | @cons first rest below after here later _ inAfter =>
      have isRun : Subtrees children [first] (first :: below) := by simpa using here.cons .nil
      have split : first :: (below ++ after) = (first :: below) ++ after := rfl
      rw [split] at part ⊢
      rw [List.flatMap_cons, each isRun ((List.prefix_append _ after).isInfix.trans part),
        ← inAfter ((List.suffix_append _ after).isInfix.trans part)]

end Subtrees

/-- What a stack of visits unwinds to enters the subtrees of the blocks on the stack. -/
theorem Visit.Unwinds.subtrees {stack visits : List (Visit n)}
    (unwinds : Visit.Unwinds children stack visits) :
    Subtrees children (stack.filterMap entered?) (visits.filterMap entered?) := by
  induction unwinds with
  | done => exact .nil
  | leave _ ih => exact ih
  | @enter block stack visits _ ih =>
      rw [entered_append] at ih
      obtain ⟨below, after, isOrder, here, later⟩ := ih.exists_append
      have order : (Visit.enter block :: visits).filterMap entered? = block :: (below ++ after) :=
        congrArg (List.cons block) isOrder
      rw [order]
      exact .cons here later

/-! ## Subtrees of the dominator tree -/

/-- The blocks that a block dominates, as they come in the preorder. -/
def DomTree.subtree (tree : DomTree n) (block : Fin n) : List (Fin n) :=
  tree.preorder.filter (tree.contains block)

namespace DomTree.Correct

variable (correct : tree.Correct edge root)
include correct

/-- The children of a block are the blocks that have it as their immediate dominator. -/
theorem mem_children_iff {d c : Fin n} :
    c ∈ tree.children.get d ↔
      Relation.ReflTransGen edge root c ∧ tree.idom? c.val = .ok (some d) := by
  rw [correct.children]
  constructor
  · intro recorded
    obtain ⟨rank, hierarchy⟩ := correct.hierarchy
    have reached := hierarchy.reached_of_recorded recorded
    exact ⟨reached, (correct.idom?_eq reached).trans (congrArg _ recorded)⟩
  · rintro ⟨reached, answer⟩
    rw [correct.idom?_eq reached] at answer
    exact Except.ok.inj answer

theorem subtrees_preorder {edges : Edges n} {entry : Nat}
    (rooted : DomTree.build edges entry = .ok tree) :
    Subtrees tree.children.get [root] tree.preorder := by
  rw [← DomTree.entered_tour rooted]
  exact (correct.unwinds_tour (DomTree.nodup_children rooted)).subtrees

/-- The descendants of a block are the blocks it dominates. -/
theorem reaches_iff_dominates {a block : Fin n} (reached : Relation.ReflTransGen edge root block) :
    Search.Reaches tree.children.get a block ↔ Dominates edge root a block := by
  obtain ⟨rank, hierarchy⟩ := correct.hierarchy
  refine hierarchy.climb_induct (motive := fun block => Search.Reaches tree.children.get a block ↔
    Dominates edge root a block) ?_ ?_ reached
  · intro first
    constructor
    · intro descends
      rcases descends.cases_tail with same | ⟨above, _, child⟩
      · exact same ▸ .refl _
      · rw [correct.children, first] at child
        cases child
    · intro dominates
      exact List.mem_singleton.mp (dominates _ .start) ▸ .refl
  · intro block above _ recorded _ immediate ih
    rw [immediate.iff, ← ih]
    constructor
    · intro descends
      rcases descends.cases_tail with same | ⟨other, descends, child⟩
      · exact .inl same.symm
      · rw [correct.children, recorded] at child
        exact .inr (Option.some.inj child ▸ descends)
    · rintro (rfl | descends)
      · exact .refl
      · exact descends.tail ((correct.children above block).mpr recorded)

theorem mem_subtree_iff {block x : Fin n} (reached : Relation.ReflTransGen edge root block) :
    x ∈ tree.subtree block ↔ Relation.ReflTransGen edge root x ∧ Dominates edge root block x := by
  unfold subtree
  rw [List.mem_filter, correct.mem_preorder]
  exact and_congr_right fun reachedX => correct.contains block x reached reachedX

/-- A run of the preorder that lists the descendants of a block is its subtree. -/
theorem subtree_eq_run {block : Fin n} {run : List (Fin n)}
    (subtrees : Subtrees tree.children.get [block] run) (part : run <:+: tree.preorder) :
    tree.subtree block = run := by
  have mem_run {x : Fin n} : x ∈ run ↔ Search.Reaches tree.children.get block x := by
    rw [subtrees.mem_iff]
    simp
  have reachedBlock := (correct.mem_preorder block).mp (part.subset (mem_run.mpr .refl))
  have contains {x : Fin n} (listed : x ∈ tree.preorder) : tree.contains block x = true ↔ x ∈ run := by
    have reached := (correct.mem_preorder x).mp listed
    rw [correct.contains block x reachedBlock reached, mem_run, correct.reaches_iff_dominates reached]
  obtain ⟨before, after, split⟩ := part
  have distinct := correct.nodup
  unfold subtree
  simp only [← split] at contains distinct ⊢
  obtain ⟨distinct, _, afterRun⟩ := List.nodup_append.mp distinct
  obtain ⟨_, _, beforeRun⟩ := List.nodup_append.mp distinct
  have noneBefore : before.filter (tree.contains block) = [] := by
    refine List.filter_eq_nil_iff.mpr fun x listed contained => ?_
    exact beforeRun x listed x ((contains (by simp [listed])).mp contained) rfl
  have all : run.filter (tree.contains block) = run :=
    List.filter_eq_self.mpr fun x listed => (contains (by simp [listed])).mpr listed
  have noneAfter : after.filter (tree.contains block) = [] := by
    refine List.filter_eq_nil_iff.mpr fun x listed contained => ?_
    have inRun := (contains (by simp [listed])).mp contained
    exact afterRun x (List.mem_append_right _ inRun) x listed rfl
  rw [List.filter_append, List.filter_append, noneBefore, all, noneAfter, List.nil_append,
    List.append_nil]

/-- The subtree of a block is a run of the preorder: the block, and then the subtrees of its children. -/
theorem subtree_eq {edges : Edges n} {entry : Nat} (rooted : DomTree.build edges entry = .ok tree)
    {block : Fin n}
    (reached : Relation.ReflTransGen edge root block) :
    tree.subtree block <:+: tree.preorder ∧
      tree.subtree block = block :: (tree.children.get block).flatMap tree.subtree := by
  obtain ⟨run, isRun, part⟩ :=
    (correct.subtrees_preorder rooted).exists_run ((correct.mem_preorder block).mpr reached)
  rw [correct.subtree_eq_run isRun part]
  refine ⟨part, ?_⟩
  cases isRun with
  | @cons _ _ below after here later =>
      cases later with
      | nil =>
          rw [List.append_nil] at part ⊢
          have partBelow := (List.suffix_cons block below).isInfix.trans part
          exact congrArg (List.cons block) (here.eq_flatMap partBelow correct.subtree_eq_run)

end DomTree.Correct

theorem DomTree.childrenOf_eq (tree : DomTree n) (block : Fin n) :
    tree.childrenOf block.val = .ok (tree.children.get block) := by
  unfold childrenOf Table.get?
  rw [dif_pos block.isLt]

namespace FlowGraph

/-- The order of the dominator tree of any flow graph.  The children of a block are the reachable blocks
with that immediate dominator, in order.  The preorder lists the blocks reachable from the entry once
each, the entry first.  The blocks that a block dominates are a run of it: the block itself, and behind it
the subtrees of its children, one after the other. -/
theorem preorder_subtrees {graph : FlowGraph n} {entry : Nat}
    (closed : ∀ block, ∀ target ∈ graph.succs block, target < n) (inside : entry < n) :
    ∃ edges tree, Edges.build graph = .ok edges ∧ DomTree.build edges entry = .ok tree ∧
      (∀ block : Fin n, tree.isReachable block.val = true ↔
        ∃ passed, Trail graph.Leads ⟨entry, inside⟩ block passed) ∧
      (∀ d : Fin n, ∃ children, tree.childrenOf d.val = .ok children ∧ children.Pairwise (· < ·) ∧
        ∀ c : Fin n, c ∈ children ↔
          tree.isReachable c.val = true ∧ tree.idom? c.val = .ok (some d)) ∧
      tree.preorder.head? = some ⟨entry, inside⟩ ∧ tree.preorder.Nodup ∧
      (∀ block : Fin n, block ∈ tree.preorder ↔ tree.isReachable block.val = true) ∧
      ∀ b : Fin n, tree.isReachable b.val = true →
        (∀ x : Fin n, x ∈ tree.subtree b ↔
          tree.isReachable x.val = true ∧ Dominates graph.Leads ⟨entry, inside⟩ b x) ∧
        tree.subtree b <:+: tree.preorder ∧
        ∃ children, tree.childrenOf b.val = .ok children ∧
          tree.subtree b = b :: children.flatMap tree.subtree := by
  obtain ⟨edges, tree, built, rooted, correct⟩ := exists_domTree closed inside
  refine ⟨edges, tree, built, rooted, fun block => correct.isReachable_iff_trail, ?_,
    (correct.subtrees_preorder rooted).head?_eq, correct.nodup, ?_, ?_⟩
  · intro d
    refine ⟨_, tree.childrenOf_eq d, DomTree.ascending_children rooted d, fun c => ?_⟩
    rw [correct.mem_children_iff, correct.isReachable_iff]
  · intro block
    rw [correct.mem_preorder, correct.isReachable_iff]
  · intro b reachable
    have reached := correct.isReachable_iff.mp reachable
    obtain ⟨part, isSubtree⟩ := correct.subtree_eq rooted reached
    refine ⟨fun x => ?_, part, _, tree.childrenOf_eq b, isSubtree⟩
    rw [correct.mem_subtree_iff reached, correct.isReachable_iff]

theorem preorder_subtrees_irreducible :
    (∀ block, ∀ target ∈ irreducible.succs block, target < 5) ∧
      ∃ edges tree, Edges.build irreducible = .ok edges ∧ DomTree.build edges 0 = .ok tree ∧
        tree.preorder.head? = some ⟨0, by decide⟩ ∧ tree.isReachable 3 = true ∧
        ⟨3, by decide⟩ ∈ tree.subtree ⟨0, by decide⟩ ∧
        tree.subtree ⟨3, by decide⟩ <:+: tree.preorder := by
  have closed : ∀ block, ∀ target ∈ irreducible.succs block, target < 5 := by decide
  obtain ⟨edges, tree, builtEdges, builtTree, reachable, _, head, _, _, subtrees⟩ :=
    preorder_subtrees closed (show 0 < 5 by decide)
  have start := (reachable ⟨0, by decide⟩).mpr ⟨_, .start⟩
  have path : Trail irreducible.Leads ⟨0, by decide⟩ ⟨3, by decide⟩
      [⟨3, by decide⟩, ⟨2, by decide⟩, ⟨0, by decide⟩] :=
    (Trail.start.step (show 2 ∈ [1, 2] by decide)).step (show 3 ∈ [1, 3, 3] by decide)
  have reached := (reachable ⟨3, by decide⟩).mpr ⟨_, path⟩
  have below := ((subtrees ⟨0, by decide⟩ start).1 ⟨3, by decide⟩).mpr ⟨reached, dominates_root _⟩
  exact ⟨closed, edges, tree, builtEdges, builtTree, head, reached, below,
    (subtrees ⟨3, by decide⟩ reached).2.1⟩

end FlowGraph

end Lowering
