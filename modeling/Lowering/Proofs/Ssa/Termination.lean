import Lowering.Proofs.Ssa.Pruning
import Lowering.Proofs.Ssa.Validity

/-!
# Promotion ends without a fault

The tour of a promotion is what a stack of visits unwinds to.  Every layer that is pushed on the stacks of
the slots when a block is entered goes when it is left, so no slot is ever without a value, and none
keeps one but `undef`.  The alias of a removed load leads to a value that is available there, so following
aliases goes upwards in the order of definitions, and ends.
-/

namespace Lowering.Ssa.Func

variable {f : Func}

/-- A renaming that ends, and after which every operand can be resolved. -/
structure Finishes (f : Func) {slots : List Nat} (edges : Edges f.blocks.length)
    (tree : DomTree f.blocks.length) (placed : List (PlacedPhi f.blocks.length slots.length))
    (outcome : Renaming f.blocks.length slots.length) : Prop where
  /-- No block of the tree comes up twice, so a stack of visits is enough to go round it. -/
  unwinds : ∃ root, root.val = FlowGraph.entry ∧
    Visit.Unwinds tree.children.get [.enter root] tree.tour
  /-- On all the way round, every slot has a value, with `undef` under all others. -/
  valued : ∀ passed rest, tree.tour = passed ++ rest →
    ∃ state, passed.foldlM (Renaming.visit (slotOf? slots) edges placed)
        (.start placed fun block => (f.blocks.get block).insts) = .ok state ∧
      ∀ slot, (state.names.get slot).getLast? = some .undef
  restored : ∀ slot, outcome.names.get slot = [.undef]
  acyclic : ∀ v, ¬ Relation.TransGen (fun v w => outcome.aliases.get? v = some (.value w)) v v
  /-- Following aliases from any operand ends where it resolves to. -/
  settles : ∀ operand, ∃ passed, Settles outcome.aliases operand passed
    (resolve outcome.aliases outcome.aliases.size operand)

theorem finishes_renamed {root : Fin f.blocks.length} (strict : f.Strict root)
    (above : ∀ v ∈ f.defs, v < f.nextValue) {edges : Edges f.blocks.length}
    (built : Edges.build f.flow = .ok edges) {tree : DomTree f.blocks.length}
    (rooted : DomTree.build edges FlowGraph.entry = .ok tree)
    {placed : List (PlacedPhi f.blocks.length f.promotableSlots.length)} {last : Nat}
    (numbered : numberPhis f.nextValue (f.phiSites f.promotableSlots (tree.frontiers edges)) =
      .ok (placed, last))
    {outcome : Renaming f.blocks.length f.promotableSlots.length}
    (renamed : f.renamed f.promotableSlots edges tree placed = .ok outcome) :
    f.Finishes edges tree placed outcome := by
  have isEntry : ⟨FlowGraph.entry, Fin.pos root⟩ = root := Fin.ext strict.entry.symm
  have correct := isEntry ▸ FlowGraph.correct_build built (Fin.pos root) rooted
  obtain ⟨_, ran, toured, passes⟩ := Renaming.Plan.foldlM_visit
    ⟨slotOf? f.promotableSlots, placed, fun block => (f.blocks.get block).insts⟩ edges correct
    strict.reached (Promotion.placed_of_numbered numbered)
  obtain rfl := Except.ok.inj (ran.symm.trans renamed)
  let p : Promotion f :=
    ⟨root, strict, above, edges, built, tree, correct, placed, last, numbered, _, toured⟩
  obtain ⟨height, falls⟩ := p.exists_falling
  constructor
  · exact ⟨root, strict.entry, correct.unwinds_tour (DomTree.nodup_children rooted)⟩
  · intro passed rest split
    obtain ⟨state, ran, _, _, touring⟩ := passes passed rest split
    exact ⟨state, ran, touring.stacked.getLast?⟩
  · exact toured.stacked.restored
  · have lower {v w : Nat} (way : Relation.TransGen
        (fun v w => p.outcome.aliases.get? v = some (.value w)) v w) : height w < height v := by
      induction way with
      | single found => exact falls found
      | tail _ found ih => exact (falls found).trans ih
    exact fun v cycle => lt_irrefl _ (lower cycle)
  · intro operand
    obtain ⟨passed, last, settles⟩ := exists_settles falls operand
    rw [settles.resolve_eq (settles.length_le falls)]
    exact ⟨passed, settles⟩

/-- Promotion ends without a fault.  If the blocks that control can reach name only blocks as targets, the
others can be dropped.  If what is left passes the check, only an overflow of the counter can be in the
way: else the promotion succeeds, and its renaming finishes. -/
theorem promote_finishes
    (closed : ∀ block, f.Reached block → ∀ target ∈ f.flow.succs block, target < f.blocks.length) :
    ∃ pruned removed, f.prune.result = .ok (pruned, removed) ∧
      (pruned.checkDominance.result = .ok (.ok ()) →
        f.promote.result = .error .addOverflow ∧ pruned.Overflows ∨
        ∃ promoted stats, f.promote.result = .ok (promoted, stats) ∧
          stats.slots = pruned.promotableSlots ∧
          (stats.slots ≠ [] → ∃ reserved edges tree placed last outcome,
            pruned.reserveValues = .ok reserved ∧ Edges.build reserved.flow = .ok edges ∧
            DomTree.build edges FlowGraph.entry = .ok tree ∧
            numberPhis reserved.nextValue
              (reserved.phiSites reserved.promotableSlots (tree.frontiers edges)) = .ok (placed, last) ∧
            reserved.renamed reserved.promotableSlots edges tree placed = .ok outcome ∧
            promoted.blocks = reserved.rebuilt placed outcome ∧
            reserved.Finishes edges tree placed outcome)) := by
  obtain ⟨⟨pruned, removed⟩, isPruned⟩ := exists_prune closed
  refine ⟨pruned, removed, isPruned, fun dominance => ?_⟩
  refine (overflows_or_promotes isPruned dominance).imp_right ?_
  rintro ⟨promoted, stats, done, isSlots⟩
  refine ⟨promoted, stats, done, isSlots, fun promotable => ?_⟩
  rw [isSlots] at promotable
  obtain ⟨_, _, next, same, isReserved, cases⟩ := promote_eq_ok done
  obtain ⟨rfl, _⟩ := Prod.mk.inj (Except.ok.inj (isPruned.symm.trans same))
  obtain ⟨edges, tree, built, rooted, promotes⟩ :=
    cases.resolve_left fun nothing => promotable nothing.1
  obtain ⟨_, placed, outcome, last, numbered, renamed, rebuilt⟩ := promoteSlots_eq_ok promotes
  refine ⟨{ pruned with nextValue := next }, edges, tree, placed, last, outcome, isReserved, built,
    rooted, numbered, renamed, rebuilt, ?_⟩
  have strict := (checkDominance_eq_ok_iff (f := { pruned with nextValue := next })
    (length_pos_of_promotable promotable)).mp dominance
  exact finishes_renamed strict (reserveValues_eq_ok isReserved).2 built rooted numbered renamed

theorem promote_finishes_countdown :
    ∃ promoted stats, countdown.promote.result = .ok (promoted, stats) ∧ stats.slots = [1, 2] ∧
      ∃ reserved edges tree placed outcome, countdownPruned.reserveValues = .ok reserved ∧
        reserved.renamed reserved.promotableSlots edges tree placed = .ok outcome ∧
        promoted.blocks = reserved.rebuilt placed outcome ∧
        reserved.Finishes edges tree placed outcome := by
  have closed : ∀ block : Fin countdown.blocks.length, ∀ target ∈ countdown.flow.succs block,
      target < countdown.blocks.length := by decide
  obtain ⟨pruned, removed, isPruned, finishes⟩ := promote_finishes fun block _ => closed block
  obtain ⟨rfl, _⟩ := Prod.mk.inj (Except.ok.inj (prune_countdown.symm.trans isPruned))
  obtain ⟨promoted, stats, done, isSlots, finishes⟩ :=
    (finishes checkDominance_countdown).resolve_left fun failed => room_countdown failed.1
  rw [promotableSlots_countdown] at isSlots
  obtain ⟨reserved, edges, tree, placed, _, outcome, isReserved, _, _, _, renamed, rebuilt, finishes⟩ :=
    finishes (isSlots ▸ List.cons_ne_nil _ _)
  exact ⟨promoted, stats, done, isSlots, reserved, edges, tree, placed, outcome, isReserved, renamed,
    rebuilt, finishes⟩

end Lowering.Ssa.Func
