import Lowering.Proofs.Ssa.ReachablePart
import Lowering.Proofs.Ssa.Validity
import Mathlib

/-!
# What promotion leaves alone

Promotion removes the allocas, loads and stores of the promoted slots and appends phis.  All else
stays in its place: other instructions, old phis and terminators differ at most in operands, and an
operand that has changed was the result of a removed load.
-/

namespace Lowering.Ssa

/-! ## Operands that change -/

/-- The same instruction up to operands. -/
inductive Inst.Alike (turns : Operand → Operand → Prop) : Inst → Inst → Prop where
  | alloca (dest : Nat) : Alike turns (.alloca dest) (.alloca dest)
  | load (dest : Nat) {addr newAddr : Operand} : turns addr newAddr →
      Alike turns (.load dest addr) (.load dest newAddr)
  | store {value addr newValue newAddr : Operand} : turns value newValue → turns addr newAddr →
      Alike turns (.store value addr) (.store newValue newAddr)
  | binary (op : BinOp) (dest : Nat) {lhs rhs newLhs newRhs : Operand} : turns lhs newLhs →
      turns rhs newRhs → Alike turns (.binary op dest lhs rhs) (.binary op dest newLhs newRhs)
  | cmp (op : CmpOp) (dest : Nat) {lhs rhs newLhs newRhs : Operand} : turns lhs newLhs →
      turns rhs newRhs → Alike turns (.cmp op dest lhs rhs) (.cmp op dest newLhs newRhs)
  | call (dest : Option Nat) (callee : String) {args newArgs : List Operand} :
      List.Forall₂ turns args newArgs →
      Alike turns (.call dest callee args) (.call dest callee newArgs)

/-- The same way out of a block up to operands. -/
inductive Terminator.Alike (turns : Operand → Operand → Prop) : Terminator → Terminator → Prop where
  | ret {value newValue : Option Operand} : Option.Rel turns value newValue →
      Alike turns (.ret value) (.ret newValue)
  | branch (thenBlock elseBlock : Nat) {cond newCond : Operand} : turns cond newCond →
      Alike turns (.branch cond thenBlock elseBlock) (.branch newCond thenBlock elseBlock)
  | jump (target : Nat) : Alike turns (.jump target) (.jump target)

/-- The same phi up to operands. -/
structure Phi.Alike (turns : Operand → Operand → Prop) (old new : Phi) : Prop where
  dest : new.dest = old.dest
  entries : List.Forall₂ (fun entry newEntry => newEntry.1 = entry.1 ∧ turns entry.2 newEntry.2)
    old.incoming.entries new.incoming.entries

theorem Inst.mapOperands_id (inst : Inst) : inst.mapOperands id = inst := by
  cases inst <;> simp [mapOperands]

theorem Terminator.mapOperands_id (term : Terminator) : term.mapOperands id = term := by
  cases term <;> simp [mapOperands]

theorem Inst.alike_mapOperands (change : Operand → Operand) (inst : Inst) :
    inst.Alike (fun old new => change old = new) (inst.mapOperands change) := by
  cases inst with
  | alloca dest => exact .alloca dest
  | load dest addr => exact .load dest rfl
  | store value addr => exact .store rfl rfl
  | binary op dest lhs rhs => exact .binary op dest rfl rfl
  | cmp op dest lhs rhs => exact .cmp op dest rfl rfl
  | call dest callee args => exact .call dest callee (forall₂_map (fun _ => rfl) args)

theorem Terminator.alike_mapOperands (change : Operand → Operand) (term : Terminator) :
    term.Alike (fun old new => change old = new) (term.mapOperands change) := by
  cases term with
  | ret value =>
      refine .ret ?_
      cases value with
      | none => exact .none
      | some operand => exact .some rfl
  | branch cond thenBlock elseBlock => exact .branch thenBlock elseBlock rfl
  | jump target => exact .jump target

theorem Phi.alike_mapOperands (change : Operand → Operand) (phi : Phi) :
    phi.Alike (fun old new => change old = new) (phi.mapOperands change) :=
  ⟨rfl, forall₂_map (fun _ => ⟨rfl, rfl⟩) phi.incoming.entries⟩

/-! ## Instructions that go -/

namespace Inst

/-- Does the instruction make or access one of the slots? -/
def touches (slots : List Nat) (inst : Inst) : Bool := (Func.accessedSlot? inst).any slots.contains

theorem touches_nil (inst : Inst) : inst.touches [] = false := by
  unfold touches
  cases Func.accessedSlot? inst with
  | none => rfl
  | some slot => rfl

def isLoad : Inst → Bool
  | load _ _ => true
  | _ => false

def isStore : Inst → Bool
  | store _ _ => true
  | _ => false

end Inst

/-- A block without the instructions for some slots and with more phis, the same up to operands
otherwise. -/
structure Block.Stripped (slots : List Nat) (turns : Operand → Operand → Prop) (added : List Phi)
    (old new : Block) : Prop where
  name : new.name = old.name
  phis : ∃ kept, new.phis = kept ++ added ∧ List.Forall₂ (Phi.Alike turns) old.phis kept
  insts : List.Forall₂ (Inst.Alike turns) (old.insts.filter (!·.touches slots)) new.insts
  term : old.term.Alike turns new.term

theorem isSome_slotOf? (slots : List Nat) (addr : Operand) :
    (slotOf? slots addr).isSome = addr.value?.any slots.contains := by
  cases addr with
  | value v =>
      simp only [slotOf?, Operand.value?, Option.bind_some, Option.any_some]
      rw [List.isSome_finIdxOf?, List.contains_eq_mem]
  | const c => rfl
  | undef => rfl

/-! ## Accesses -/

theorem sum_set {n : Nat} {α M : Type} [AddCommMonoid M] (weigh : α → M) (table : Table n α)
    (i : Fin n) (a : α) :
    (∑ j, weigh ((table.set i a).get j)) + weigh (table.get i) =
      (∑ j, weigh (table.get j)) + weigh a := by
  have others : ∑ j ∈ Finset.univ.erase i, weigh ((table.set i a).get j) =
      ∑ j ∈ Finset.univ.erase i, weigh (table.get j) := by
    refine Finset.sum_congr rfl fun j member => ?_
    rw [Table.get_set_ne _ _ (Ne.symm (Finset.ne_of_mem_erase member))]
  rw [← Finset.add_sum_erase _ _ (Finset.mem_univ i), others, Table.get_set_self,
    ← Finset.add_sum_erase _ (fun j => weigh (table.get j)) (Finset.mem_univ i)]
  abel

namespace Renaming

variable {n k : Nat}

namespace Plan

theorem removes_eq_touches (slots : List Nat) (placed : List (PlacedPhi n slots.length))
    (insts : Fin n → List Inst) (inst : Inst) :
    removes ⟨slotOf? slots, placed, insts⟩ inst = inst.touches slots := by
  cases inst with
  | alloca dest => exact isSome_slotOf? slots (.value dest)
  | load dest addr => exact isSome_slotOf? slots addr
  | store value addr => exact isSome_slotOf? slots addr
  | binary _ _ _ _ | cmp _ _ _ _ | call _ _ _ => rfl

/-- The loads and stores that a tour removes among some instructions. -/
def accesses (plan : Plan n k) (insts : List Inst) : Nat × Nat :=
  (insts.countP fun inst => inst.isLoad && plan.removes inst,
    insts.countP fun inst => inst.isStore && plan.removes inst)

/-- The loads and stores removed so far and those still to be removed. -/
def total (plan : Plan n k) (state : Renaming n k) : Nat × Nat :=
  (state.loads, state.stores) + ∑ block, plan.accesses (state.insts.get block)

variable {plan : Plan n k} {state next : Renaming n k} {block : Fin n} {edges : Edges n}

theorem accesses_append (first second : List Inst) :
    plan.accesses (first ++ second) = plan.accesses first + plan.accesses second := by
  unfold accesses
  rw [List.countP_append, List.countP_append]
  rfl

theorem total_keep (block : Fin n) (inst : Inst) :
    plan.total (state.keep block inst) = plan.total state + plan.accesses [inst] := by
  have sum : ∑ other, plan.accesses ((state.keep block inst).insts.get other) =
      (∑ other, plan.accesses (state.insts.get other)) + plan.accesses [inst] := by
    refine add_right_cancel (b := plan.accesses (state.insts.get block)) ?_
    refine (sum_set plan.accesses state.insts block (state.insts.get block ++ [inst])).trans ?_
    rw [accesses_append, add_comm (plan.accesses (state.insts.get block)), add_assoc]
  unfold total
  rw [sum, add_assoc]
  rfl

theorem total_inst {inst : Inst} (ok : Renaming.inst plan.slotOf block state inst = .ok next) :
    plan.total next = plan.total state + plan.accesses [inst] := by
  cases inst with
  | alloca dest =>
      cases ok
      split
      · exact (add_zero _).symm
      · exact total_keep block _
  | load dest addr =>
      unfold Renaming.inst at ok
      cases found : plan.slotOf addr with
      | none =>
          simp only [found] at ok
          cases ok
          exact total_keep block _
      | some slot =>
          simp only [found] at ok
          obtain ⟨operand, _, ok⟩ := bind_eq_ok.mp ok
          cases ok
          have counted : plan.accesses [.load dest addr] = (1, 0) := by
            simp [accesses, Inst.isLoad, Inst.isStore, removes, found]
          unfold total
          rw [counted, add_right_comm]
          rfl
  | store value addr =>
      unfold Renaming.inst at ok
      cases found : plan.slotOf addr with
      | none =>
          simp only [found] at ok
          cases ok
          exact total_keep block _
      | some slot =>
          simp only [found] at ok
          cases ok
          have counted : plan.accesses [.store value addr] = (0, 1) := by
            simp [accesses, Inst.isLoad, Inst.isStore, removes, found]
          unfold total
          rw [counted, add_right_comm]
          rfl
  | binary _ _ _ _ | cmp _ _ _ _ | call _ _ _ =>
      cases ok
      exact total_keep block _

theorem total_foldlM_inst {insts : List Inst}
    (ok : insts.foldlM (Renaming.inst plan.slotOf block) state = .ok next) :
    plan.total next = plan.total state + plan.accesses insts := by
  induction insts generalizing state with
  | nil =>
      cases ok
      exact (add_zero _).symm
  | cons inst rest ih =>
      rw [List.foldlM_cons] at ok
      obtain ⟨middle, ran, ok⟩ := bind_eq_ok.mp ok
      rw [ih ok, total_inst ran, add_assoc, ← accesses_append]
      rfl

theorem total_feed {phis : List (PlacedPhi n k)}
    (ok : phis.foldlM (feed block) state = .ok next) : plan.total next = plan.total state := by
  induction phis generalizing state with
  | nil =>
      cases ok
      rfl
  | cons phi rest ih =>
      rw [List.foldlM_cons] at ok
      obtain ⟨middle, fed, ok⟩ := bind_eq_ok.mp ok
      rw [ih ok]
      unfold feed at fed
      obtain ⟨operand, _, fed⟩ := bind_eq_ok.mp fed
      split at fed
      · cases fed
        rfl
      · cases fed

/-- Entering or leaving a block keeps the balance of accesses. -/
theorem total_visit {visited : Visit n}
    (ok : visit plan.slotOf edges plan.placed state visited = .ok next) :
    plan.total next = plan.total state := by
  cases visited with
  | leave block =>
      cases ok
      unfold pop
      split
      · rfl
      · rfl
  | enter block =>
      unfold visit at ok
      obtain ⟨renamed, ran, fed⟩ := bind_eq_ok.mp ok
      rw [total_feed fed, total_foldlM_inst ran]
      obtain ⟨names, pushed, isNamed⟩ :=
        foldl_push (plan.placed.filter fun phi => phi.block == block)
          { state with pushed := [] :: state.pushed }
      rw [isNamed]
      unfold total
      rw [add_assoc]
      exact congrArg _ (sum_set plan.accesses state.insts block [])

theorem total_foldlM_visit {visits : List (Visit n)}
    (ok : visits.foldlM (visit plan.slotOf edges plan.placed) state = .ok next) :
    plan.total next = plan.total state := by
  induction visits generalizing state with
  | nil =>
      cases ok
      rfl
  | cons visited rest ih =>
      rw [List.foldlM_cons] at ok
      obtain ⟨middle, ran, ok⟩ := bind_eq_ok.mp ok
      rw [ih ok, total_visit ran]

theorem counts_of_foldlM_visit {visits : List (Visit n)}
    (ok : visits.foldlM (visit plan.slotOf edges plan.placed) (.start plan.placed plan.insts) =
      .ok next)
    (kept : ∀ block, next.insts.get block = (plan.insts block).filter (!plan.removes ·)) :
    (next.loads, next.stores) = ∑ block, plan.accesses (plan.insts block) := by
  have none (block : Fin n) : plan.accesses (next.insts.get block) = 0 := by
    rw [kept]
    refine Prod.ext ?_ ?_ <;>
    · refine List.countP_eq_zero.mpr fun inst member => ?_
      have unremoved := (List.mem_filter.mp member).2
      simp_all
  calc (next.loads, next.stores)
    _ = plan.total next := by
        unfold total
        rw [Finset.sum_eq_zero fun block _ => none block, add_zero]
    _ = plan.total (.start plan.placed plan.insts) := total_foldlM_visit ok
    _ = ∑ block, plan.accesses (plan.insts block) := by
        unfold total
        simp only [start, Table.get_tabulate]
        exact zero_add _

end Plan

end Renaming

/-! ## Promotions -/

theorem sum_length_filter {n k : Nat} (placed : List (PlacedPhi n k)) :
    ∑ block, (placed.filter fun phi => phi.block == block).length = placed.length := by
  induction placed with
  | nil => simp
  | cons phi rest ih =>
      have step (block : Fin n) : ((phi :: rest).filter fun phi => phi.block == block).length =
          (rest.filter fun phi => phi.block == block).length + if phi.block = block then 1 else 0 := by
        rw [List.filter_cons]
        by_cases here : phi.block = block <;> simp [here]
      rw [Finset.sum_congr rfl fun block _ => step block, Finset.sum_add_distrib,
        ih, Finset.sum_ite_eq, if_pos (Finset.mem_univ _), List.length_cons]

namespace Func

variable {f promoted : Func} {stats : PromotionStats} {slots : List Nat}

/-- What a promotion did to a function: it took out the instructions for the promoted slots, replaced
results of removed loads and appended phis. -/
structure Strips (f promoted : Func) (stats : PromotionStats) (change : Operand → Operand)
    (added : Fin f.blocks.length → List Phi) : Prop where
  name : promoted.name = f.name
  params : promoted.params = f.params
  length : promoted.blocks.length = f.blocks.length
  blocks : ∀ block, ∃ new, promoted.blocks[block.val]? = some new ∧
    (f.blocks.get block).Stripped stats.slots (fun old new => change old = new) (added block) new
  changed : ∀ operand, change operand ≠ operand → ∃ v, operand = .value v ∧
    ∃ block ∈ f.blocks, ∃ slot ∈ stats.slots, .load v (.value slot) ∈ block.insts
  loads : stats.loads = ∑ block, (f.blocks.get block).insts.countP fun inst =>
    inst.isLoad && inst.touches stats.slots
  stores : stats.stores = ∑ block, (f.blocks.get block).insts.countP fun inst =>
    inst.isStore && inst.touches stats.slots
  phis : stats.phis = ∑ block, (added block).length

/-- An operand resolves to another one only if a removed load has made it. -/
theorem load_of_resolve_ne {edges : Edges f.blocks.length} {tree : DomTree f.blocks.length}
    {placed : List (PlacedPhi f.blocks.length slots.length)}
    {outcome : Renaming f.blocks.length slots.length}
    (toured : Renaming.Plan.Touring
      ⟨slotOf? slots, placed, fun block => (f.blocks.get block).insts⟩ tree edges
      (fun _ => True) [] outcome) {fuel : Nat} {operand : Operand}
    (different : resolve outcome.aliases fuel operand ≠ operand) :
    ∃ v, operand = .value v ∧
      ∃ block ∈ f.blocks, ∃ slot ∈ slots, .load v (.value slot) ∈ block.insts := by
  cases operand with
  | const c => exact absurd (resolve_const fuel c) different
  | undef => exact absurd (resolve_undef fuel) different
  | value v =>
      cases found : outcome.aliases.get? v with
      | none => exact absurd (resolve_value found fuel) different
      | some operand =>
          obtain ⟨block, _, i, inst, listed, made⟩ := toured.sound found
          cases inst with
          | load dest addr =>
              obtain ⟨slot, isSlot, same⟩ := Option.map_eq_some_iff.mp made
              obtain ⟨rfl, _⟩ := Prod.mk.inj same
              obtain rfl := slotOf?_eq_some isSlot
              exact ⟨dest, rfl, _, List.get_mem _ block, _, List.get_mem _ slot,
                List.mem_of_getElem? listed⟩
          | alloca _ | store _ _ | binary _ _ _ _ | cmp _ _ _ _ | call _ _ _ => cases made

/-- The phis that a block is rebuilt with. -/
def addedPhis {k : Nat} (placed : List (PlacedPhi f.blocks.length k))
    (outcome : Renaming f.blocks.length k) (block : Fin f.blocks.length) : List Phi :=
  (placed.filter fun phi => phi.block == block).map fun phi =>
    Phi.mapOperands (resolve outcome.aliases outcome.aliases.size)
      ⟨phi.dest, outcome.incoming.getD phi.dest .empty⟩

theorem stripped_rebuilt {k : Nat} (placed : List (PlacedPhi f.blocks.length k))
    {outcome : Renaming f.blocks.length k}
    {block : Fin f.blocks.length}
    (kept : outcome.insts.get block = (f.blocks.get block).insts.filter (!·.touches slots)) :
    ∃ new, (f.rebuilt placed outcome)[block.val]? = some new ∧
      (f.blocks.get block).Stripped slots
        (fun old new => resolve outcome.aliases outcome.aliases.size old = new)
        (addedPhis placed outcome block) new := by
  refine ⟨_, List.getElem?_ofFn.trans (dif_pos block.isLt), rfl,
    ⟨(f.blocks.get block).phis.map (Phi.mapOperands (resolve outcome.aliases outcome.aliases.size)),
      ?_, ?_⟩, ?_, ?_⟩
  · unfold addedPhis
    simp only [Block.mapOperands, List.map_append, List.map_map]
    rfl
  · exact forall₂_map (Phi.alike_mapOperands _) _
  · rw [← kept]
    exact forall₂_map (Inst.alike_mapOperands _) _
  · exact Terminator.alike_mapOperands _ _

theorem strips_promoteSlots {edges : Edges f.blocks.length} {tree : DomTree f.blocks.length}
    (built : Edges.build f.flow = .ok edges)
    (inside : FlowGraph.entry < f.blocks.length)
    (rooted : DomTree.build edges FlowGraph.entry = .ok tree)
    (reached : ∀ block, f.Reached block)
    (ok : f.promoteSlots slots edges tree = .ok (promoted, stats)) :
    stats.slots = slots ∧ ∃ change added, f.Strips promoted stats change added := by
  obtain ⟨placed, outcome, last, numbered, renamed, rfl, rfl⟩ := promoteSlots_parts ok
  let plan : Renaming.Plan f.blocks.length slots.length :=
    ⟨slotOf? slots, placed, fun block => (f.blocks.get block).insts⟩
  obtain ⟨other, ran, toured, _⟩ := plan.foldlM_visit edges
    (FlowGraph.correct_build built inside rooted) reached (Promotion.placed_of_numbered numbered)
  obtain rfl : other = outcome := Except.ok.inj (ran.symm.trans renamed)
  have removes : plan.removes = Inst.touches slots :=
    funext (Renaming.Plan.removes_eq_touches slots placed _)
  have kept (block : Fin f.blocks.length) := toured.kept block trivial
  have counts := Renaming.Plan.counts_of_foldlM_visit ran kept
  unfold Renaming.Plan.accesses at counts
  rw [removes] at kept counts
  refine ⟨rfl, resolve other.aliases other.aliases.size, addedPhis placed other, rfl, rfl,
    List.length_ofFn, fun block => stripped_rebuilt placed (kept block),
    fun operand => load_of_resolve_ne toured, ?_, ?_, ?_⟩
  · exact (congrArg Prod.fst counts).trans Prod.fst_sum
  · exact (congrArg Prod.snd counts).trans Prod.snd_sum
  · unfold addedPhis
    simp only [List.length_map]
    exact (sum_length_filter placed).symm

/-- A function without promotable slots only gets its counter moved. -/
theorem strips_self (f : Func) (next : Nat) :
    f.Strips { f with nextValue := next } ⟨[], 0, 0, 0⟩ id fun _ => [] where
  name := rfl
  params := rfl
  length := rfl
  blocks := by
    intro block
    have all : (f.blocks.get block).insts.filter (!·.touches []) = (f.blocks.get block).insts := by
      simp [Inst.touches_nil]
    refine ⟨_, List.getElem?_eq_getElem block.isLt, rfl,
      ⟨(f.blocks.get block).phis, (List.append_nil _).symm, ?_⟩, ?_, ?_⟩
    · exact List.forall₂_same.mpr fun phi _ => ⟨rfl, List.forall₂_same.mpr fun _ _ => ⟨rfl, rfl⟩⟩
    · rw [all]
      refine List.forall₂_same.mpr fun inst _ => ?_
      have alike := inst.alike_mapOperands id
      rwa [Inst.mapOperands_id] at alike
    · have alike := (f.blocks.get block).term.alike_mapOperands id
      rwa [Terminator.mapOperands_id] at alike
  changed := fun operand different => absurd rfl different
  loads := by simp [Inst.touches_nil]
  stores := by simp [Inst.touches_nil]
  phis := by simp

/-- Promotion touches nothing but the promoted slots.  Compared with the pruned function, the header,
the blocks in their order and all targets stay; exactly the allocas, loads and stores of the promoted
slots are gone; other instructions and old phis differ at most in operands that were results of removed
loads; and the counts are those of the loads and stores removed and the phis appended. -/
theorem promote_strips (ok : f.promote.result = .ok (promoted, stats)) :
    ∃ pruned removed, f.prune.result = .ok (pruned, removed) ∧
      stats.slots = pruned.promotableSlots ∧
      ∃ change added, pruned.Strips promoted stats change added := by
  obtain ⟨pruned, removed, next, isPruned, isReserved, cases⟩ := promote_parts ok
  refine ⟨pruned, removed, isPruned, ?_⟩
  rcases cases with ⟨empty, rfl, rfl⟩ | ⟨promotable, edges, tree, built, rooted, done⟩
  · exact ⟨empty.symm, id, fun _ => [], strips_self pruned next⟩
  · obtain ⟨isSlots, change, added, strips⟩ := strips_promoteSlots
      (f := { pruned with nextValue := next }) built (length_pos_of_promotable promotable) rooted
      (fun block => reached_prune isPruned block) done
    exact ⟨isSlots, change, added, strips.name, strips.params, strips.length, strips.blocks,
      strips.changed, strips.loads, strips.stores, strips.phis⟩

theorem promote_strips_countdown :
    ∃ promoted stats, countdown.promote.result = .ok (promoted, stats) ∧ stats.slots = [1, 2] ∧
      stats.loads = 4 ∧ stats.stores = 4 ∧
      ∃ change added, countdownPruned.Strips promoted stats change added := by
  obtain ⟨promoted, ⟨slots, phis, loads, stores⟩, done, isSlots⟩ := exists_promote_countdown
  obtain rfl : slots = [1, 2] := isSlots
  obtain ⟨pruned, removed, isPruned, _, change, added, strips⟩ := promote_strips done
  obtain ⟨rfl, _⟩ := Prod.mk.inj (Except.ok.inj (prune_countdown.symm.trans isPruned))
  have loads : ∑ block, (countdownPruned.blocks.get block).insts.countP
      (fun inst => inst.isLoad && inst.touches [1, 2]) = 4 := by decide
  have stores : ∑ block, (countdownPruned.blocks.get block).insts.countP
      (fun inst => inst.isStore && inst.touches [1, 2]) = 4 := by decide
  exact ⟨promoted, _, done, rfl, strips.loads.trans loads, strips.stores.trans stores, change, added,
    strips⟩

end Func

end Lowering.Ssa
