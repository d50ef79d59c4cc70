import Lowering.Proofs.Ssa.Pruning
import Lowering.Proofs.Ssa.Validity
import Mathlib

/-!
# Phis stand on iterated frontiers

A promotion places a phi for a slot at the blocks of the smallest set that contains the dominance
frontiers of the blocks that store to the slot and of its own members.  The results of the phis are
handed out by the counter of the pruned function, so they are clear of the values that are defined in
blocks control can reach, and of no others.
-/

namespace Lowering.Ssa.Func

variable {f : Func}

/-- The join is in the dominance frontier of the block. -/
def Borders (f : Func) (block join : Fin f.blocks.length) : Prop :=
  ∃ inside : FlowGraph.entry < f.blocks.length,
    Dominance.InFrontier f.flow.Leads ⟨FlowGraph.entry, inside⟩ block join

/-- The blocks contain the frontiers of all blocks that store to a slot, and their own. -/
def ClosesJoins (f : Func) (slot : Nat) (joins : Set (Fin f.blocks.length)) : Prop :=
  ∀ block, (∃ value, Inst.store value (.value slot) ∈ (f.blocks.get block).insts) ∨ block ∈ joins →
    ∀ join, f.Borders block join → join ∈ joins

/-- What a promotion adds: phis, each for a slot. -/
structure Adds (f : Func) (slots : List Nat)
    (placed : List (PlacedPhi f.blocks.length slots.length)) (promoted : Func) : Prop where
  /-- The new phis of a block stand behind the old ones. -/
  dests : ∀ block : Fin f.blocks.length, ∃ new, promoted.blocks[block.val]? = some new ∧
    new.phis.map Phi.dest = (f.blocks.get block).phis.map Phi.dest ++
      (placed.filter fun phi => phi.block == block).map PlacedPhi.dest
  /-- The phis select what renaming finds in their slots. -/
  renamed : slots ≠ [] → ∃ edges tree outcome, Edges.build f.flow = .ok edges ∧
    DomTree.build edges FlowGraph.entry = .ok tree ∧
    f.renamed slots edges tree placed = .ok outcome ∧ promoted.blocks = f.rebuilt placed outcome

/-! ## Sites -/

theorem mem_storeSites_iff {slot : Nat} {block : Fin f.blocks.length} :
    block ∈ f.storeSites slot ↔
      ∃ value, Inst.store value (.value slot) ∈ (f.blocks.get block).insts := by
  rw [mem_storeSites]
  constructor
  · rintro ⟨inst, member, stores⟩
    cases inst with
    | store value addr =>
        cases addr with
        | value v =>
            obtain rfl : v = slot := by simpa [Inst.storesTo, Operand.value?] using stores
            exact ⟨value, member⟩
        | const c => simp [Inst.storesTo, Operand.value?] at stores
        | undef => simp [Inst.storesTo, Operand.value?] at stores
    | alloca _ | load _ _ | binary _ _ _ _ | cmp _ _ _ _ | call _ _ _ => cases stores
  · rintro ⟨value, member⟩
    exact ⟨_, member, by simp [Inst.storesTo, Operand.value?]⟩

/-- The joins found for a slot are the smallest closed set. -/
theorem isLeast_joins {edges : Edges f.blocks.length} (built : Edges.build f.flow = .ok edges)
    {tree : DomTree f.blocks.length} (rooted : DomTree.build edges FlowGraph.entry = .ok tree)
    (slot : Nat) :
    IsLeast {joins | f.ClosesJoins slot joins}
      {block | block ∈ joins (tree.frontiers edges) (f.storeSites slot)} := by
  have listed {block join : Fin f.blocks.length} :
      join ∈ (tree.frontiers edges).get block ↔ f.Borders block join := by
    have correct := FlowGraph.correct_build built (Fin.pos block) rooted
    rw [correct.mem_frontiers_iff_inFrontier (FlowGraph.mem_preds_of_build built)]
    exact ⟨fun inFrontier => ⟨Fin.pos block, inFrontier⟩, fun ⟨_, inFrontier⟩ => inFrontier⟩
  constructor
  · intro block known join borders
    rw [← mem_storeSites_iff] at known
    exact (joins_closed _ _).2 block known join (listed.mpr borders)
  · intro closed isClosed
    have within (block : Fin f.blocks.length) (known : block ∈ f.storeSites slot ∨ block ∈ closed)
        (join : Fin f.blocks.length) (member : join ∈ (tree.frontiers edges).get block) :
        join ∈ closed := by
      rw [mem_storeSites_iff] at known
      exact isClosed block known join (listed.mp member)
    exact joins_least within

/-! ## Placed phis -/

section Numbered

variable {slots : List Nat} {frontiers : Table f.blocks.length (List (Fin f.blocks.length))}
  {next last : Nat} {placed : List (PlacedPhi f.blocks.length slots.length)}
  (numbered : numberPhis next (f.phiSites slots frontiers) = .ok (placed, last))
include numbered

theorem exists_placed_iff {slot : Fin slots.length} {block : Fin f.blocks.length} :
    (∃ phi ∈ placed, phi.slot = slot ∧ phi.block = block) ↔
      block ∈ joins frontiers (f.storeSites (slots.get slot)) := by
  rw [← mem_phiSites, ← (numberPhis_eq_ok numbered).1, List.mem_map]
  simp only [Prod.mk.injEq]

theorem placed_unique {phi other : PlacedPhi f.blocks.length slots.length} (member : phi ∈ placed)
    (isOther : other ∈ placed) (sameSlot : other.slot = phi.slot)
    (sameBlock : other.block = phi.block) : other = phi := by
  have nodup := nodup_phiSites slots frontiers
  rw [← (numberPhis_eq_ok numbered).1] at nodup
  exact List.inj_on_of_nodup_map nodup isOther member (Prod.ext sameSlot sameBlock)

end Numbered

theorem dests_rebuilt {k : Nat} (placed : List (PlacedPhi f.blocks.length k))
    (outcome : Renaming f.blocks.length k) (block : Fin f.blocks.length) :
    ∃ new, (f.rebuilt placed outcome)[block.val]? = some new ∧
      new.phis.map Phi.dest = (f.blocks.get block).phis.map Phi.dest ++
        (placed.filter fun phi => phi.block == block).map PlacedPhi.dest := by
  unfold rebuilt
  refine ⟨_, by rw [List.getElem?_ofFn, dif_pos block.isLt], ?_⟩
  simp only [Block.mapOperands, List.map_map, List.map_append]
  rfl

/-! ## Promotions -/

/-- The phis that a promotion places, with the counter their results start from. -/
theorem exists_placed {promoted : Func} {stats : PromotionStats}
    (ok : f.promote.result = .ok (promoted, stats)) :
    ∃ pruned removed next, f.prune.result = .ok (pruned, removed) ∧
      stats.slots = pruned.promotableSlots ∧
      pruned.reserveValues = .ok { pruned with nextValue := next } ∧
      ∃ placed, pruned.Adds stats.slots placed promoted ∧
        placed.map PlacedPhi.dest = List.range' next placed.length ∧
        (∀ phi ∈ placed, ∀ other ∈ placed, other.slot = phi.slot → other.block = phi.block →
          other = phi) ∧
        ∀ slot, IsLeast {joins | pruned.ClosesJoins (stats.slots.get slot) joins}
          {block | ∃ phi ∈ placed, phi.slot = slot ∧ phi.block = block} := by
  obtain ⟨pruned, removed, next, isPruned, isReserved, cases⟩ := promote_eq_ok ok
  rcases cases with ⟨empty, rfl, none⟩ | ⟨edges, tree, built, rooted, done⟩
  · refine ⟨pruned, removed, next, isPruned, none.trans empty.symm, isReserved, [], ?_⟩
    obtain ⟨slots, phis, loads, stores⟩ := stats
    obtain rfl : slots = [] := none
    refine ⟨⟨fun block => ⟨_, List.getElem?_eq_getElem block.isLt, ?_⟩, fun some => absurd rfl some⟩,
      rfl, fun phi member => absurd member List.not_mem_nil, fun slot => slot.elim0⟩
    exact (List.append_nil _).symm
  · obtain ⟨isSlots, placed, outcome, last, numbered, renamed, rebuilt⟩ := promoteSlots_eq_ok done
    obtain ⟨slots, phis, loads, stores⟩ := stats
    obtain rfl : slots = pruned.promotableSlots := isSlots
    obtain ⟨sites, dests, _⟩ := numberPhis_eq_ok numbered
    refine ⟨pruned, removed, next, isPruned, rfl, isReserved, placed,
      ⟨fun block => ?_, fun _ => ?_⟩, ?_,
      fun phi member other isOther => placed_unique numbered member isOther, fun slot => ?_⟩
    · rw [rebuilt]
      exact dests_rebuilt (f := { pruned with nextValue := next }) placed outcome block
    · exact ⟨edges, tree, outcome, built, rooted, renamed, rebuilt⟩
    · rw [dests, ← sites, List.length_map]
    · have least := isLeast_joins built rooted (pruned.promotableSlots.get slot)
      have same : {block | ∃ phi ∈ placed, phi.slot = slot ∧ phi.block = block} =
          {block | block ∈ joins (tree.frontiers edges)
            (pruned.storeSites (pruned.promotableSlots.get slot))} :=
        Set.ext fun block => exists_placed_iff numbered
      rw [same]
      exact least

/-- Phis stand on iterated frontiers.  The blocks that get a phi for a promoted slot are the smallest
set that contains the dominance frontiers of all blocks with a store to the slot and of its own members,
and each of them gets one.  The results of the new phis are distinct values, neither parameters nor
defined in a block that control can reach. -/
theorem promote_phis {promoted : Func} {stats : PromotionStats}
    (ok : f.promote.result = .ok (promoted, stats)) :
    ∃ pruned removed, f.prune.result = .ok (pruned, removed) ∧
      stats.slots = pruned.promotableSlots ∧
      ∃ placed, pruned.Adds stats.slots placed promoted ∧
        (∀ slot, IsLeast {joins | pruned.ClosesJoins (stats.slots.get slot) joins}
          {block | ∃ phi ∈ placed, phi.slot = slot ∧ phi.block = block}) ∧
        (∀ slot block, (∃ phi ∈ placed, phi.slot = slot ∧ phi.block = block) →
          ∃! phi, phi ∈ placed ∧ phi.slot = slot ∧ phi.block = block) ∧
        (placed.map PlacedPhi.dest).Nodup ∧
        ∀ phi ∈ placed, phi.dest ∉ f.params ∧
          ∀ block, f.Reached block → phi.dest ∉ (f.blocks.get block).defs := by
  obtain ⟨pruned, removed, next, isPruned, isSlots, isReserved, placed, adds, dests, unique, least⟩ :=
    exists_placed ok
  have above : ∀ v ∈ pruned.defs, v < next := (reserveValues_eq_ok isReserved).2
  have fresh (phi) (member : phi ∈ placed) : phi.dest ∉ pruned.defs := by
    intro defined
    have handedOut : phi.dest ∈ placed.map PlacedPhi.dest := List.mem_map_of_mem member
    rw [dests, List.mem_range'_1] at handedOut
    exact absurd (above _ defined) (Nat.not_lt.mpr handedOut.1)
  refine ⟨pruned, removed, isPruned, isSlots, placed, adds, least, ?_, ?_, fun phi member => ⟨?_, ?_⟩⟩
  · rintro slot block ⟨phi, member, rfl, rfl⟩
    refine ⟨phi, ⟨member, rfl, rfl⟩, ?_⟩
    rintro other ⟨isOther, sameSlot, sameBlock⟩
    exact unique phi member other isOther sameSlot sameBlock
  · rw [dests]
    exact List.nodup_range'
  · intro isParam
    rw [← params_prune isPruned] at isParam
    exact fresh phi member (List.mem_append_left _ isParam)
  · exact fun block reached defined => fresh phi member (mem_defs_of_reached isPruned reached defined)

/-- The head of the loop is in the frontier of its body. -/
theorem borders_countdown : countdownPruned.Borders ⟨2, by decide⟩ ⟨1, by decide⟩ := by
  have leads (a b : Fin countdownPruned.blocks.length)
      (target : b.val ∈ (countdownPruned.blocks.get a).term.targets) :
      countdownPruned.flow.Leads a b := target
  have head := leads ⟨0, by decide⟩ ⟨1, by decide⟩ (by decide)
  have body := leads ⟨1, by decide⟩ ⟨2, by decide⟩ (by decide)
  have back := leads ⟨2, by decide⟩ ⟨1, by decide⟩ (by decide)
  have reached : Relation.ReflTransGen countdownPruned.flow.Leads ⟨0, by decide⟩ ⟨2, by decide⟩ :=
    .tail (.single head) body
  refine ⟨by decide, reached, .single head, ⟨_, reached, back, .refl _⟩, fun strict => ?_⟩
  exact absurd (strict.2 _ (Dominance.Trail.start.step head)) (by decide)

theorem promote_phis_countdown :
    ∃ promoted stats, countdown.promote.result = .ok (promoted, stats) ∧ stats.slots = [1, 2] ∧
      ∃ placed, countdownPruned.Adds stats.slots placed promoted ∧
        (∀ slot, ∃! phi, phi ∈ placed ∧ phi.slot = slot ∧ phi.block = ⟨1, by decide⟩) ∧
        (placed.map PlacedPhi.dest).Nodup ∧ ∀ phi ∈ placed, phi.dest ≠ 0 := by
  obtain ⟨promoted, ⟨slots, phis, loads, stores⟩, done, isSlots⟩ := exists_promote_countdown
  obtain rfl : slots = [1, 2] := isSlots
  obtain ⟨pruned, removed, isPruned, _, placed, adds, least, once, distinct, fresh⟩ :=
    promote_phis done
  obtain ⟨rfl, _⟩ := Prod.mk.inj (Except.ok.inj (prune_countdown.symm.trans isPruned))
  refine ⟨promoted, _, done, rfl, placed, adds, fun slot => once slot _ ?_, distinct,
    fun phi member isParam => ?_⟩
  · have stored : ∀ slot : Fin 2, ⟨2, by decide⟩ ∈ countdownPruned.storeSites ([1, 2].get slot) := by
      decide
    exact (least slot).1 _ (.inl (mem_storeSites_iff.mp (stored slot))) _ borders_countdown
  · exact (fresh phi member).1 (isParam ▸ List.mem_singleton_self 0)

/-- Counts in a slot for ever; the only block that defines value `3` is never reached. -/
def recounting : Func where
  name := "recounting"
  params := []
  blocks :=
    [⟨"entry", [], [.alloca 0, .store (.const 0) (.value 0)], .jump 1⟩,
      ⟨"loop", [], [.load 1 (.value 0), .binary .add 2 (.value 1) (.const 1),
        .store (.value 2) (.value 0)], .jump 1⟩,
      ⟨"never", [], [.binary .add 3 (.const 1) (.const 1)], .ret (some (.value 3))⟩]
  nextValue := 0

def recountingPruned : Func := { recounting with blocks := recounting.blocks.take 2 }

theorem checkDominance_recounting : recountingPruned.checkDominance.result = .ok (.ok ()) := by
  refine checkDominance_of_near (by decide) (by decide) (by decide) ?_ (by decide) (by decide)
  intro block
  match block with
  | ⟨0, _⟩ => exact .refl
  | ⟨1, _⟩ => exact .single (show 1 ∈ [1] by decide)

theorem borders_recounting : recountingPruned.Borders ⟨1, by decide⟩ ⟨1, by decide⟩ := by
  have reached : Relation.ReflTransGen recountingPruned.flow.Leads ⟨0, by decide⟩ ⟨1, by decide⟩ :=
    .single (show 1 ∈ [1] by decide)
  exact ⟨by decide, reached, reached, ⟨_, reached, show 1 ∈ [1] by decide, .refl _⟩,
    fun strict => strict.1 rfl⟩

/-- The result of a new phi may have been defined in a block that was dropped. -/
theorem promote_reuses_recounting :
    3 ∈ recounting.defs ∧ (∀ block ∈ recounting.blocks, block.phis = []) ∧
      ∃ promoted stats, recounting.promote.result = .ok (promoted, stats) ∧
        ∃ block ∈ promoted.blocks, 3 ∈ block.phis.map Phi.dest := by
  have pruned : recounting.prune.result = .ok (recountingPruned, 1) := by cbv
  have slots : recountingPruned.promotableSlots = [0] := by cbv
  have counted : recountingPruned.reserveValues = .ok { recountingPruned with nextValue := 3 } := by
    cbv
  obtain ⟨promoted, ⟨promotedSlots, phis, loads, stores⟩, done, isSlots⟩ :=
    exists_promote pruned checkDominance_recounting (Nat.zero_le 3) (by decide) (by
      rw [slots]
      decide)
  obtain rfl : promotedSlots = [0] := isSlots.trans slots
  obtain ⟨_, _, next, isPruned, _, isReserved, placed, adds, dests, _, least⟩ := exists_placed done
  obtain ⟨rfl, _⟩ := Prod.mk.inj (Except.ok.inj (pruned.symm.trans isPruned))
  obtain rfl : 3 = next := congrArg nextValue (Except.ok.inj (counted.symm.trans isReserved))
  have stored : ⟨1, by decide⟩ ∈ recountingPruned.storeSites 0 := by decide
  obtain ⟨phi, member, _⟩ := (least ⟨0, Nat.one_pos⟩).1 _ (.inl (mem_storeSites_iff.mp stored)) _
    borders_recounting
  have first : 3 ∈ placed.map PlacedPhi.dest := by
    rw [dests, List.mem_range'_1]
    have := List.length_pos_of_mem member
    omega
  obtain ⟨reusing, isPlaced, isThree⟩ := List.mem_map.mp first
  obtain ⟨block, isBlock, added⟩ := adds.dests reusing.block
  refine ⟨by decide, by decide, promoted, _, done, block, List.mem_of_getElem? isBlock, ?_⟩
  rw [added, List.mem_append, ← isThree]
  exact .inr (List.mem_map_of_mem (List.mem_filter.mpr ⟨isPlaced, beq_self_eq_true _⟩))

end Lowering.Ssa.Func
