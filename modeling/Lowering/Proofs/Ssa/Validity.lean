import Lowering.Proofs.Ssa.Rebuilding
import Mathlib

/-!
# Promoted functions pass the checks

A promoted function is strict, its phis select from the predecessors of their blocks, and no instruction
accesses a promoted slot.
-/

namespace Lowering

namespace Dominance

section Cast

variable {m n : Nat} {edge : Fin m → Fin m → Prop} {other : Fin n → Fin n → Prop} (same : m = n)
  (agree : ∀ a b, edge a b ↔ other (a.cast same) (b.cast same))
include agree

theorem dominates_cast {root d b : Fin m} : Dominates edge root d b ↔
    Dominates other (root.cast same) (d.cast same) (b.cast same) := by
  subst same
  obtain rfl : edge = other := funext fun a => funext fun b => propext (agree a b)
  rfl

theorem reaches_cast {a b : Fin m} : Relation.ReflTransGen edge a b ↔
    Relation.ReflTransGen other (a.cast same) (b.cast same) := by
  subst same
  obtain rfl : edge = other := funext fun a => funext fun b => propext (agree a b)
  rfl

end Cast

end Dominance

namespace Ssa

namespace Promotion

open Dominance

variable {f : Func} (p : Promotion f)

/-! ## The flow graph -/

theorem leads_old (a b : Fin p.func.blocks.length) :
    p.func.flow.Leads a b ↔ f.flow.Leads (p.old a) (p.old b) := by
  show b.val ∈ (p.func.blocks.get a).term.targets ↔ b.val ∈ (f.blocks.get (p.old a)).term.targets
  rw [get_blocks]
  show b.val ∈ ((f.blocks.get (p.old a)).term.mapOperands p.resolve).targets ↔ _
  rw [Terminator.targets_mapOperands]

/-- The number of an old block in the promoted function. -/
def new (index : Fin f.blocks.length) : Fin p.func.blocks.length :=
  index.cast p.length_blocks.symm

/-! ## Uses -/

theorem defined_func {operand : Operand} {index : Fin p.func.blocks.length} {position : Nat}
    (available : p.Available operand (p.old index) position) :
    p.func.Defined (p.new p.root) (p.resolve operand) index (p.shift (p.old index) position) := by
  intro v same
  obtain ⟨there, unaliased⟩ := p.available_resolve available
  obtain ⟨free, point, site, before⟩ := there v same
  obtain ⟨home, isHome, defined, later⟩ := p.definition_kept site free (unaliased v same)
  refine ⟨_, defined, ?_⟩
  rcases before with ⟨here, less⟩ | ⟨d, isBlock, different, dominates⟩
  · obtain rfl : home = p.old index := Fin.ext (isHome.symm.trans here)
    exact .inl ⟨rfl, later less⟩
  · obtain rfl : home = d := Fin.ext (isHome.symm.trans isBlock)
    refine .inr ⟨p.new home, rfl, ?_, ?_⟩
    · rintro rfl
      exact different rfl
    · exact (dominates_cast p.length_blocks p.leads_old).mpr dominates

/-! ## Definitions -/

theorem defs_block (index : Fin f.blocks.length) :
    (p.block index).defs =
      ((f.blocks.get index).phis.map Phi.dest ++
        (p.placed.filter fun phi => phi.block == index).map PlacedPhi.dest) ++
      ((f.blocks.get index).insts.filter (!p.plan.removes ·)).filterMap Inst.def? := by
  have sameDef : Inst.def? ∘ Inst.mapOperands p.resolve = Inst.def? :=
    funext (Inst.def?_mapOperands p.resolve)
  show ((_ : List Phi).map (Phi.mapOperands p.resolve)).map Phi.dest ++
    ((_ : List Inst).map (Inst.mapOperands p.resolve)).filterMap Inst.def? = _
  rw [List.map_map, List.filterMap_map, sameDef]
  show (_ ++ p.placedPhis index).map Phi.dest ++ _ = _
  rw [List.map_append, placedPhis, List.map_map]
  rfl

theorem kept_sublist (index : Fin f.blocks.length) :
    ((f.blocks.get index).phis.map Phi.dest ++
      ((f.blocks.get index).insts.filter (!p.plan.removes ·)).filterMap Inst.def?).Sublist
        (f.blocks.get index).defs :=
  .append (.refl _) (List.filter_sublist.filterMap Inst.def?)

theorem mem_defs_block {index : Fin f.blocks.length} {v : Nat}
    (member : v ∈ (p.block index).defs) :
    v ∈ (f.blocks.get index).defs ∨ ∃ phi ∈ p.placed, phi.block = index ∧ v = phi.dest := by
  rw [defs_block, List.mem_append, List.mem_append] at member
  rcases member with (inPhis | placed) | inInsts
  · exact .inl ((p.kept_sublist index).subset (List.mem_append_left _ inPhis))
  · obtain ⟨phi, listed, rfl⟩ := List.mem_map.mp placed
    obtain ⟨listed, isBlock⟩ := List.mem_filter.mp listed
    exact .inr ⟨phi, listed, beq_iff_eq.mp isBlock, rfl⟩
  · exact .inl ((p.kept_sublist index).subset (List.mem_append_right _ inInsts))

theorem dest_notMem_defs {phi : PlacedPhi f.blocks.length f.promotableSlots.length}
    (member : phi ∈ p.placed) : phi.dest ∉ f.defs :=
  fun defined => Nat.not_le_of_lt (p.above _ defined) (p.dest_ge member)

theorem mem_defs_of_block {f : Func} {index : Fin f.blocks.length} {v : Nat}
    (member : v ∈ (f.blocks.get index).defs) : v ∈ f.defs :=
  List.mem_append_right _ (List.mem_flatMap.mpr ⟨_, List.get_mem f.blocks index, member⟩)

/-- Placed phis bring new values, so no value is defined twice. -/
theorem nodup_defs : p.func.defs.Nodup := by
  have before : f.defs.Nodup := f.map_definitions ▸ p.strict.distinct
  obtain ⟨params, blocks, apart⟩ := List.nodup_append.mp before
  obtain ⟨each, disjoint⟩ := List.nodup_flatMap.mp blocks
  have dests : (p.placed.map PlacedPhi.dest).Nodup := by
    obtain ⟨_, isRange, _⟩ := numberPhis_eq_ok p.numbered
    exact isRange ▸ List.nodup_range'
  have fresh {phi : PlacedPhi f.blocks.length f.promotableSlots.length} (member : phi ∈ p.placed)
      {index : Fin f.blocks.length} : phi.dest ∉ (f.blocks.get index).defs :=
    fun defined => p.dest_notMem_defs member (mem_defs_of_block defined)
  show (f.params ++ p.func.blocks.flatMap Block.defs).Nodup
  rw [blocks_func, List.nodup_append]
  refine ⟨params, List.nodup_flatMap.mpr ⟨?_, List.pairwise_ofFn.mpr ?_⟩, ?_⟩
  · intro block member
    obtain ⟨index, rfl⟩ := List.mem_ofFn.mp member
    rw [defs_block]
    have kept := (each _ (List.get_mem f.blocks index)).sublist (p.kept_sublist index)
    obtain ⟨inPhis, inInsts, different⟩ := List.nodup_append.mp kept
    have placed : ((p.placed.filter fun phi => phi.block == index).map PlacedPhi.dest).Nodup :=
      dests.sublist (List.filter_sublist.map PlacedPhi.dest)
    refine List.nodup_append.mpr ⟨List.nodup_append.mpr ⟨inPhis, placed, ?_⟩, inInsts, ?_⟩
    · rintro v inPhi w isPlaced rfl
      obtain ⟨phi, listed, rfl⟩ := List.mem_map.mp isPlaced
      refine fresh (List.mem_filter.mp listed).1 ((p.kept_sublist index).subset ?_)
      exact List.mem_append_left _ inPhi
    · rintro v either w inInst rfl
      rcases List.mem_append.mp either with inPhi | isPlaced
      · exact different v inPhi v inInst rfl
      · obtain ⟨phi, listed, rfl⟩ := List.mem_map.mp isPlaced
        refine fresh (List.mem_filter.mp listed).1 ((p.kept_sublist index).subset ?_)
        exact List.mem_append_right _ inInst
  · intro first second less v inFirst inSecond
    rcases p.mem_defs_block inFirst with oldFirst | ⟨phi, member, isFirst, rfl⟩
    · rcases p.mem_defs_block inSecond with oldSecond | ⟨phi, member, _, rfl⟩
      · exact List.pairwise_iff_get.mp disjoint first second less oldFirst oldSecond
      · exact fresh member oldFirst
    · rcases p.mem_defs_block inSecond with oldSecond | ⟨other, otherMember, isSecond, same⟩
      · exact fresh member oldSecond
      · obtain rfl := placed_of_numbered p.numbered other otherMember phi member same
        exact Nat.ne_of_lt less (congrArg Fin.val (isFirst.symm.trans isSecond))
  · rintro v param w inBlocks rfl
    obtain ⟨block, member, defined⟩ := List.mem_flatMap.mp inBlocks
    obtain ⟨index, rfl⟩ := List.mem_ofFn.mp member
    rcases p.mem_defs_block defined with old | ⟨phi, listed, _, rfl⟩
    · exact apart v param v (List.mem_flatMap.mpr ⟨_, List.get_mem f.blocks index, old⟩) rfl
    · exact p.dest_notMem_defs listed (List.mem_append_left _ param)

/-! ## Checks -/

theorem strict_func : p.func.Strict (p.new p.root) where
  entry := p.strict.entry
  closed := by
    intro index target member
    have leads : target ∈ (f.blocks.get (p.old index)).term.targets := by
      have member : target ∈ (p.func.blocks.get index).term.targets := member
      rw [get_blocks] at member
      exact Terminator.targets_mapOperands p.resolve _ ▸ member
    rw [p.length_blocks]
    exact p.strict.closed (p.old index) target leads
  distinct := by
    rw [Func.map_definitions]
    exact p.nodup_defs
  reached := fun index => (reaches_cast p.length_blocks p.leads_old).mpr (p.strict.reached _)
  phiUses := by
    intro index phi member entry listed
    rw [get_blocks] at member
    obtain ⟨old, isOld, rfl⟩ := List.mem_map.mp member
    obtain ⟨⟨key, operand⟩, inside, rfl⟩ := List.mem_map.mp listed
    obtain ⟨pred, isPred, available⟩ : ∃ pred : Fin f.blocks.length, key = pred.val ∧
        p.Available operand pred (f.blocks.get pred).endPosition := by
      rcases List.mem_append.mp isOld with inOld | isPlaced
      · obtain ⟨pred, isPred, defined⟩ := p.strict.phiUses old inOld _ inside
        exact ⟨pred, isPred, available_of_defined defined (free_of_phi inOld inside)⟩
      · obtain ⟨phi, isPhi, rfl⟩ := List.mem_map.mp isPlaced
        obtain ⟨pred, rfl, _, rfl⟩ := (p.placed_entries (List.mem_filter.mp isPhi).1).mp inside
        refine ⟨pred, rfl, ?_⟩
        rw [← p.valuesAt_length]
        exact p.available_valuesAt pred _ phi.slot
    refine ⟨p.new pred, isPred, ?_⟩
    rw [get_blocks]
    show p.func.Defined _ _ _ (p.block pred).endPosition
    rw [← p.shift_endPosition]
    exact p.defined_func available
  instUses := by
    intro index j inst found operand member
    rw [get_blocks] at found
    obtain ⟨i, old, listed, kept, rfl, moved⟩ := p.getElem?_insts_iff.mp found
    obtain ⟨before, isBefore, rfl⟩ := Inst.mem_operands_mapOperands member
    rw [moved]
    exact p.defined_func (p.available_of_kept listed kept isBefore)
  termUses := by
    intro index operand member
    rw [get_blocks] at member ⊢
    obtain ⟨before, isBefore, rfl⟩ := Terminator.mem_operands_mapOperands member
    rw [← p.shift_endPosition]
    refine p.defined_func (available_of_defined (p.strict.termUses before isBefore) ?_)
    exact free_of_term isBefore

theorem keyed_func (keyed : f.Keyed) : p.func.Keyed := by
  intro index phi member key
  rw [get_blocks] at member
  obtain ⟨old, isOld, rfl⟩ := List.mem_map.mp member
  have sameKeys : (old.mapOperands p.resolve).incoming.keys = old.incoming.keys := List.map_map
  have preds : key ∈ old.incoming.keys ↔
      ∃ pred : Fin f.blocks.length, key = pred.val ∧ f.flow.Leads pred (p.old index) := by
    rcases List.mem_append.mp isOld with inOld | isPlaced
    · exact keyed (p.old index) old inOld key
    · obtain ⟨phi, isPhi, rfl⟩ := List.mem_map.mp isPlaced
      obtain ⟨listed, isBlock⟩ := List.mem_filter.mp isPhi
      rw [← beq_iff_eq.mp isBlock]
      constructor
      · intro isKey
        obtain ⟨⟨_, operand⟩, inEntries, rfl⟩ := List.mem_map.mp isKey
        obtain ⟨pred, isPred, leads, _⟩ := (p.placed_entries listed).mp inEntries
        exact ⟨pred, isPred, leads⟩
      · rintro ⟨pred, isPred, leads⟩
        exact List.mem_map_of_mem ((p.placed_entries listed).mpr ⟨pred, isPred, leads, rfl⟩)
  rw [sameKeys, preds]
  constructor
  · rintro ⟨pred, isPred, leads⟩
    exact ⟨p.new pred, isPred, (p.leads_old _ _).mpr leads⟩
  · rintro ⟨pred, isPred, leads⟩
    exact ⟨p.old pred, isPred, (p.leads_old _ _).mp leads⟩

/-- A kept instruction accesses no promoted slot once its operands are resolved. -/
theorem accessedSlot_free {index : Fin f.blocks.length} {i : Nat} {inst : Inst}
    (found : (f.blocks.get index).insts[i]? = some inst) (kept : p.plan.removes inst = false)
    {slot : Nat} (accessed : Func.accessedSlot? (inst.mapOperands p.resolve) = some slot) :
    slot ∉ f.promotableSlots := by
  have address {addr : Operand} (member : addr ∈ inst.operands)
      (isSlot : (p.resolve addr).value? = some slot) : slot ∉ f.promotableSlots := by
    have available := (p.available_resolve (p.available_of_kept found kept member)).1
    cases resolved : p.resolve addr with
    | value v =>
        rw [resolved] at isSlot
        obtain rfl := Option.some.inj isSlot
        exact (available v resolved).1
    | const c =>
        rw [resolved] at isSlot
        cases isSlot
    | undef =>
        rw [resolved] at isSlot
        cases isSlot
  cases inst with
  | alloca dest =>
      obtain rfl := Option.some.inj accessed
      have unslotted : slotOf? f.promotableSlots (.value dest) = none :=
        Option.isNone_iff_eq_none.mp (Option.isSome_eq_false_iff.mp kept)
      exact fun member => slotOf?_eq_none_iff.mp unslotted dest member rfl
  | load dest addr => exact address (List.mem_singleton_self addr) accessed
  | store value addr =>
      exact address (List.mem_append_right _ (List.mem_singleton_self addr)) accessed
  | binary _ _ _ _ | cmp _ _ _ _ | call _ _ _ => cases accessed

theorem checkPromoted_func : p.func.checkPromoted f.promotableSlots = .ok () := by
  refine forM_eq_ok_iff.mpr ?_
  rintro ⟨_, _⟩ listed
  obtain ⟨index, inside, same⟩ := List.mem_mapIdx.mp listed
  obtain ⟨rfl, rfl⟩ := Prod.mk.inj same
  refine forM_eq_ok_iff.mpr fun inst member => ?_
  have isBlock : p.func.blocks[index] = p.block (p.old ⟨index, inside⟩) :=
    p.get_blocks ⟨index, inside⟩
  rw [isBlock] at member
  obtain ⟨j, found⟩ := List.mem_iff_getElem?.mp member
  obtain ⟨i, old, listed, kept, rfl, _⟩ := p.getElem?_insts_iff.mp found
  have free : (Func.accessedSlot? (old.mapOperands p.resolve)).filter f.promotableSlots.contains =
      none := by
    rw [Option.filter_eq_none_iff]
    intro slot accessed isSlot
    exact p.accessedSlot_free listed kept accessed (List.contains_iff_mem.mp isSlot)
  rw [free]

end Promotion

/-! ## Promotion -/

namespace Func

theorem checkPromoted_nil (f : Func) : f.checkPromoted [] = .ok () := by
  refine forM_eq_ok_iff.mpr fun listed _ => forM_eq_ok_iff.mpr fun inst _ => ?_
  have none : (accessedSlot? inst).filter ([] : List Nat).contains = none := by
    rw [Option.filter_eq_none_iff]
    exact fun slot _ => Bool.false_ne_true
  rw [none]

/-- Promotion leaves a function that passes the checks again and accesses no promoted slot. -/
theorem promote_valid {f pruned : Func} {removed : Nat}
    (ok : f.prune.result = .ok (pruned, removed))
    (single : pruned.checkSingleDefinition = .ok ()) (phis : pruned.checkPhis = .ok (.ok ()))
    (dominance : pruned.checkDominance.result = .ok (.ok ()))
    (room : f.promote.result ≠ .error .addOverflow) :
    ∃ promoted stats, f.promote.result = .ok (promoted, stats) ∧
      promoted.checkSingleDefinition = .ok () ∧ promoted.checkPhis = .ok (.ok ()) ∧
      promoted.checkDominance.result = .ok (.ok ()) ∧
      promoted.checkPromoted stats.slots = .ok () := by
  rcases promote_cases ok dominance with ⟨overflow, _⟩ |
    ⟨reserved, isReserved, ⟨_, kept⟩ | ⟨p, stats, isSlots, done⟩⟩
  · exact absurd overflow room
  · -- Nothing to promote: only the counter of the function has changed.
    refine ⟨reserved, _, kept, ?_, ?_, ?_, checkPromoted_nil reserved⟩
    · rw [isReserved]
      exact single
    · rw [isReserved]
      exact phis
    · rw [isReserved]
      exact dominance
  · have phis : reserved.checkPhis = .ok (.ok ()) := by
      rw [isReserved]
      exact phis
    have keyed := (checkPhis_eq_ok_iff.mp phis).2
    have strict := p.strict_func
    refine ⟨p.func, stats, done, ?_, ?_, ?_, ?_⟩
    · exact checkSingleDefinition_eq_ok_iff.mpr strict.distinct
    · exact checkPhis_eq_ok_iff.mpr ⟨strict.closed, p.keyed_func keyed⟩
    · have nonempty : 0 < p.func.blocks.length := Fin.pos (p.new p.root)
      have isEntry : p.new p.root = ⟨FlowGraph.entry, nonempty⟩ := Fin.ext strict.entry
      exact (checkDominance_eq_ok_iff nonempty).mpr (isEntry ▸ strict)
    · rw [isSlots]
      exact p.checkPromoted_func

/-- Without phis it is enough that every use is of a value of the same block, or of one defined in the
entry block. -/
theorem checkDominance_of_near {f : Func} (inside : FlowGraph.entry < f.blocks.length)
    (distinct : f.defs.Nodup)
    (closed : ∀ block, ∀ target ∈ f.flow.succs block, target < f.blocks.length)
    (reached : ∀ block, Relation.ReflTransGen f.flow.Leads ⟨FlowGraph.entry, inside⟩ block)
    (straight : ∀ block ∈ f.blocks, block.phis = [])
    (near : ∀ block : Fin f.blocks.length, ∀ used ∈ (f.blocks.get block).uses block.val,
      ∀ v, used.1.value? = some v → ∃ entry ∈ f.definitions, entry.1 = v ∧
        (entry.2.block = block.val ∧ entry.2.position < used.2.position ∨
          entry.2.block = FlowGraph.entry ∧ FlowGraph.entry ≠ block.val)) :
    f.checkDominance.result = .ok (.ok ()) := by
  have defined {block : Fin f.blocks.length} {operand : Operand} {position : Nat}
      (used : (operand, ⟨block.val, position⟩) ∈ (f.blocks.get block).uses block.val) :
      f.Defined ⟨FlowGraph.entry, inside⟩ operand block position := by
    rintro v rfl
    obtain ⟨⟨_, point⟩, listed, rfl, before⟩ := near block _ used v rfl
    refine ⟨point, listed, before.imp_right fun ⟨isEntry, different⟩ => ?_⟩
    exact ⟨_, isEntry, fun same => different (congrArg Fin.val same), Dominance.dominates_root block⟩
  refine (checkDominance_eq_ok_iff inside).mpr
    ⟨rfl, closed, f.map_definitions ▸ distinct, reached, ?_, ?_, ?_⟩
  · intro block phi member
    rw [straight _ (List.get_mem _ block)] at member
    cases member
  · intro block i inst found operand member
    exact defined (mem_blockUses.mpr (.inl ⟨i, inst, found, member, rfl⟩))
  · intro block operand member
    exact defined (mem_blockUses.mpr (.inr ⟨member, rfl⟩))

/-- Adds the numbers from the parameter down to one in two slots; one block is never reached. -/
def countdown : Func where
  name := "countdown"
  params := [0]
  blocks :=
    [⟨"entry", [], [.alloca 1, .alloca 2, .store (.value 0) (.value 1),
        .store (.const 0) (.value 2)], .jump 1⟩,
      ⟨"head", [], [.load 3 (.value 1), .cmp .gt 4 (.value 3) (.const 0)],
        .branch (.value 4) 2 4⟩,
      ⟨"body", [], [.load 5 (.value 2), .load 6 (.value 1), .binary .add 7 (.value 5) (.value 6),
        .store (.value 7) (.value 2), .binary .sub 8 (.value 6) (.const 1),
        .store (.value 8) (.value 1)], .jump 1⟩,
      ⟨"never", [], [], .jump 4⟩,
      ⟨"done", [], [.load 9 (.value 2)], .ret (some (.value 9))⟩]
  nextValue := 10

def countdownPruned : Func where
  name := "countdown"
  params := [0]
  blocks :=
    [⟨"entry", [], [.alloca 1, .alloca 2, .store (.value 0) (.value 1),
        .store (.const 0) (.value 2)], .jump 1⟩,
      ⟨"head", [], [.load 3 (.value 1), .cmp .gt 4 (.value 3) (.const 0)],
        .branch (.value 4) 2 3⟩,
      ⟨"body", [], [.load 5 (.value 2), .load 6 (.value 1), .binary .add 7 (.value 5) (.value 6),
        .store (.value 7) (.value 2), .binary .sub 8 (.value 6) (.const 1),
        .store (.value 8) (.value 1)], .jump 1⟩,
      ⟨"done", [], [.load 9 (.value 2)], .ret (some (.value 9))⟩]
  nextValue := 10

theorem prune_countdown : countdown.prune.result = .ok (countdownPruned, 1) := by
  cbv

theorem checkDominance_countdown : countdownPruned.checkDominance.result = .ok (.ok ()) := by
  refine checkDominance_of_near (by decide) (by decide) (by decide) ?_ (by decide) (by decide)
  have leads (a b : Fin countdownPruned.blocks.length)
      (target : b.val ∈ (countdownPruned.blocks.get a).term.targets) :
      countdownPruned.flow.Leads a b := target
  have head := leads ⟨0, by decide⟩ ⟨1, by decide⟩ (by decide)
  have body := leads ⟨1, by decide⟩ ⟨2, by decide⟩ (by decide)
  have done := leads ⟨1, by decide⟩ ⟨3, by decide⟩ (by decide)
  intro block
  match block with
  | ⟨0, _⟩ => exact .refl
  | ⟨1, _⟩ => exact .single head
  | ⟨2, _⟩ => exact .tail (.single head) body
  | ⟨3, _⟩ => exact .tail (.single head) done

theorem promotableSlots_countdown : countdownPruned.promotableSlots = [1, 2] := by
  cbv

theorem exists_promote_countdown : ∃ promoted stats, countdown.promote.result = .ok (promoted, stats) ∧
    stats.slots = [1, 2] := by
  have fits : 10 + countdownPruned.promotableSlots.length * countdownPruned.blocks.length <
      Width.w32.bound := by
    rw [promotableSlots_countdown]
    decide
  rw [← promotableSlots_countdown]
  exact exists_promote prune_countdown checkDominance_countdown (Nat.le_refl 10) (by decide) fits

theorem room_countdown : countdown.promote.result ≠ .error .addOverflow := by
  obtain ⟨promoted, stats, done, _⟩ := exists_promote_countdown
  simp [done]

theorem promote_valid_countdown : countdownPruned.checkSingleDefinition = .ok () ∧
    countdownPruned.checkPhis = .ok (.ok ()) ∧ countdownPruned.promotableSlots = [1, 2] ∧
    ∃ promoted stats, countdown.promote.result = .ok (promoted, stats) ∧
      promoted.checkSingleDefinition = .ok () ∧ promoted.checkPhis = .ok (.ok ()) ∧
      promoted.checkDominance.result = .ok (.ok ()) ∧
      promoted.checkPromoted stats.slots = .ok () := by
  have single : countdownPruned.checkSingleDefinition = .ok () := by cbv
  have phis : countdownPruned.checkPhis = .ok (.ok ()) := by cbv
  exact ⟨single, phis, promotableSlots_countdown,
    promote_valid prune_countdown single phis checkDominance_countdown room_countdown⟩

end Func

end Ssa

end Lowering
