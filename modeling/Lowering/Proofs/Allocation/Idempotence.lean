import Lowering.Proofs.Allocation.AllocationFrame
import Mathlib

/-!
# Allocated code stays as it is

Allocation leaves code with physical registers only, without copies of a register to itself, and without
adjustments of an empty frame.  A round on such code stacks and merges nothing, because only registers
that are not physical are stacked or merged, and so its colors change nothing.
-/

namespace Lowering.Machine

/-- Code that allocation has nothing left to do on. -/
structure Func.Allocated (f : Func) : Prop where
  proper : f.Proper
  settled : ∀ block ∈ f.blocks, block.Settled f.slots
  noSelfMove : ∀ block ∈ f.blocks, ∀ reg, .move reg reg ∉ block.instrs
  adjusted : ∃ size, f.frameSize = .ok size ∧
    (size = 0 → ∀ block ∈ f.blocks, ∀ instr ∈ block.instrs, instr.isAdjustment = false)

/-! ## Coloring -/

section Coloring

variable {f : Func} {frameEmpty : Bool}

theorem painted_of_physical (colors : RegMap PhysReg) {reg : Reg} (physical : reg.isPhysical = true) :
    painted colors reg = reg := by
  cases reg with
  | physical phys => rfl
  | _ => cases physical

theorem mapM_paint_of_physical (name : String) (coloring : Coloring) {regs : List Reg}
    (physical : ∀ reg ∈ regs, reg.isPhysical = true) :
    ∃ others, regs.mapM (paint name coloring.colors) = .ok others := by
  refine mapM_paint_of_colored name fun reg member => ?_
  have isPhysical := physical reg member
  cases reg with
  | physical phys => exact ⟨rfl, phys, rfl⟩
  | _ => cases isPhysical

theorem tidy_eq_self {instr : Instr} (noSelfMove : ∀ reg, instr ≠ .move reg reg)
    (adjusted : frameEmpty = true → instr.isAdjustment = false) :
    tidy frameEmpty instr = ([instr], 0) := by
  have framed (isAdjustment : instr.isAdjustment = true) : frameEmpty = false := by
    rw [Bool.eq_false_iff]
    intro empty
    rw [adjusted empty] at isAdjustment
    cases isAdjustment
  cases instr with
  | move dest src => exact if_neg fun same : dest = src => noSelfMove dest (same ▸ rfl)
  | spGrow => simp [tidy, framed rfl]
  | spRecover => simp [tidy, framed rfl]
  | _ => rfl

namespace Func

theorem colorInstrs_eq_self (coloring : Coloring) {isMerged : Nat → Bool}
    (unmerged : ∀ i, isMerged i = false) {instrs : List Instr}
    (settled : ∀ instr ∈ instrs, instr.Settled f.slots)
    (noSelfMove : ∀ reg, .move reg reg ∉ instrs)
    (adjusted : frameEmpty = true → ∀ instr ∈ instrs, instr.isAdjustment = false) (index : Nat) :
    f.colorInstrs coloring.colors isMerged frameEmpty index instrs = .ok (instrs, 0) := by
  induction instrs generalizing index with
  | nil => rfl
  | cons instr rest ih =>
      have physical : ∀ reg ∈ instr.operandUses ++ instr.operandDef?.toList, reg.isPhysical = true :=
        fun reg operand => (settled instr List.mem_cons_self).physical reg
          (Instr.mem_regs_of_operand operand)
      have same : instr.mapRegs (painted coloring.colors) = instr :=
        Instr.mapOperands_eq_self
          (fun reg used => painted_of_physical _ (physical reg (List.mem_append_left _ used)))
          fun reg defined => painted_of_physical _ (physical reg (List.mem_append_right _ defined))
      have tidied : tidy frameEmpty instr = ([instr], 0) :=
        tidy_eq_self (fun reg isMove => noSelfMove reg (isMove ▸ List.mem_cons_self))
          fun empty => adjusted empty instr List.mem_cons_self
      have later := ih
        (fun other member => settled other (List.mem_cons_of_mem _ member))
        (fun reg member => noSelfMove reg (List.mem_cons_of_mem _ member))
        (fun empty other member => adjusted empty other (List.mem_cons_of_mem _ member)) (index + 1)
      obtain ⟨others, areOthers⟩ := mapM_paint_of_physical f.name coloring physical
      rw [colorInstrs, if_neg (by simp [unmerged]), areOthers, later, same, tidied]
      rfl

theorem colorBlocks_eq_self (coloring : Coloring) {blocks : List Block}
    (settled : ∀ block ∈ blocks, block.Settled f.slots)
    (noSelfMove : ∀ block ∈ blocks, ∀ reg, .move reg reg ∉ block.instrs)
    (adjusted : frameEmpty = true → ∀ block ∈ blocks, ∀ instr ∈ block.instrs,
      instr.isAdjustment = false) (index : Nat) :
    f.colorBlocks coloring.colors [] frameEmpty index blocks = .ok (blocks, 0) := by
  induction blocks generalizing index with
  | nil => rfl
  | cons block rest ih =>
      have here := settled block List.mem_cons_self
      have physical : ∀ reg ∈ block.term.operandUses, reg.isPhysical = true := fun reg used =>
        here.term reg (Terminator.mem_uses_of_mem_operandUses used)
      have same : block.term.mapRegs (painted coloring.colors) = block.term :=
        Terminator.mapRegs_eq_self fun reg used => painted_of_physical _ (physical reg used)
      have code : f.colorInstrs coloring.colors (fun i => [].contains (index, i)) frameEmpty 0
          block.instrs = .ok (block.instrs, 0) :=
        colorInstrs_eq_self coloring (fun _ => rfl) here.instrs (noSelfMove block List.mem_cons_self)
          (fun empty => adjusted empty block List.mem_cons_self) 0
      have later := ih
        (fun other member => settled other (List.mem_cons_of_mem _ member))
        (fun other member => noSelfMove other (List.mem_cons_of_mem _ member))
        (fun empty other member => adjusted empty other (List.mem_cons_of_mem _ member)) (index + 1)
      obtain ⟨others, areOthers⟩ := mapM_paint_of_physical f.name coloring physical
      rw [colorBlocks, code, areOthers, later, same]
      rfl

end Func

end Coloring

namespace Func.Allocated

variable {f : Func}

variable (allocated : f.Allocated)
include allocated

theorem applyColors_eq_self (coloring : Coloring) :
    f.applyColors coloring.colors [] = .ok (f, 0) := by
  obtain ⟨size, isSize, adjusted⟩ := allocated.adjusted
  have colored := f.colorBlocks_eq_self coloring allocated.settled allocated.noSelfMove
    (fun empty => adjusted (beq_iff_eq.mp empty)) 0
  exact bind_eq_ok.mpr ⟨size, isSize, bind_eq_ok.mpr ⟨_, colored, rfl⟩⟩

theorem exists_physical {reg : Reg} (mentioned : reg ∈ f.regSet) :
    ∃ phys, reg = .physical phys := by
  obtain ⟨block, isBlock, inBlock⟩ := Func.mem_regSet.mp mentioned
  exact (allocated.settled block isBlock).exists_physical inBlock

/-! ## Rounds -/

theorem not_taken (allocator : Allocator) (reg : Reg) :
    reg ∉ (allocator.finished f.liveSets).stack ∧ reg ∉ (allocator.finished f.liveSets).merged := by
  obtain ⟨consistent, _⟩ := allocator.consistent_finished allocated.proper.liveness_eq_ok
  refine not_or.mp fun taken => ?_
  obtain ⟨notPhysical, node⟩ := (consistent.invariant.own reg).mp (.inr taken)
  obtain ⟨phys, rfl⟩ := allocated.exists_physical (mem_regSet_of_mem_nodes node)
  cases notPhysical

theorem assignColors_eq (allocator : Allocator) :
    (allocator.finished f.liveSets).assignColors = ⟨∅, []⟩ := by
  have noStack : (allocator.finished f.liveSets).stack = [] :=
    List.eq_nil_iff_forall_not_mem.mpr fun reg => (allocated.not_taken allocator reg).1
  have noMerged : (allocator.finished f.liveSets).merged.keys = [] :=
    List.eq_nil_iff_forall_not_mem.mpr fun reg member =>
      (allocated.not_taken allocator reg).2 (Std.TreeMap.mem_keys.mp member)
  unfold Round.assignColors
  rw [noStack, noMerged]
  rfl

/-- A copy that is merged away would be one of a register to itself. -/
theorem mergedSites_eq_nil (allocator : Allocator) :
    (allocator.finished f.liveSets).mergedSites = [] := by
  have found : f.liveness = .ok f.liveSets := allocated.proper.liveness_eq_ok
  obtain ⟨consistent, _⟩ := allocator.consistent_finished found
  refine List.map_eq_nil_iff.mpr (List.eq_nil_iff_forall_not_mem.mpr fun move coalesced => ?_)
  have alike := consistent.alike move (Round.mem_movesIn.mp coalesced)
  rw [Round.representative_of_not_merged (allocated.not_taken allocator _).2,
    Round.representative_of_not_merged (allocated.not_taken allocator _).2, consistent.moves,
    Table.get_tabulate] at alike
  have member : (allocator.movesOf f.liveSets).get move ∈ f.liveSets.moves :=
    Allocator.mem_moves_of_mem_movesOf (List.get_mem _ _)
  obtain ⟨block, isBlock, isMove, _⟩ := Func.getElem?_of_mem_moves member
  rw [alike] at isMove
  exact allocated.noSelfMove block (List.mem_of_getElem? isBlock) _ (List.mem_of_getElem? isMove)

theorem rounds_eq_self (allocator : Allocator) (report : AllocationReport)
    (left : Nat) : (allocator.rounds f report (left + 1)).result =
      .ok (f, ⟨report.rounds + 1, report.spilled, 0, 0⟩) := by
  have found : f.liveness = .ok f.liveSets := allocated.proper.liveness_eq_ok
  refine Pass.result_bind_eq_ok.mpr ⟨_, allocator.round_of_liveness found, ?_⟩
  rw [Allocator.attempt_eq, allocated.assignColors_eq, allocated.mergedSites_eq_nil]
  exact Pass.result_bind_eq_ok.mpr ⟨(f, 0), allocated.applyColors_eq_self _, rfl⟩

theorem registers_eq : f.registers = .ok f.regSet.toList :=
  bind_eq_ok.mpr ⟨(), allocated.proper.arity_eq_ok, rfl⟩

theorem reserveVirtuals_eq_self : f.reserveVirtuals = .ok f := by
  have none : f.regSet.toList.filterMap Reg.virtual? = [] := by
    refine List.filterMap_eq_nil_iff.mpr fun reg mentioned => ?_
    obtain ⟨phys, rfl⟩ := allocated.exists_physical (RegSet.mem_toList.mp mentioned)
    rfl
  refine bind_eq_ok.mpr ⟨_, allocated.registers_eq, ?_⟩
  rw [none]
  rfl

theorem allocate_eq_self (allocator : Allocator)
    (tries : 1 ≤ allocator.maxRounds) : (allocator.allocate f).result = .ok (f, ⟨1, 0, 0, 0⟩) := by
  have noSlot : f.regSet.toList.findSome? Reg.slot? = none := by
    refine List.findSome?_eq_none_iff.mpr fun reg mentioned => ?_
    obtain ⟨phys, rfl⟩ := allocated.exists_physical (RegSet.mem_toList.mp mentioned)
    rfl
  obtain ⟨left, isLeft⟩ : ∃ left, allocator.maxRounds = left + 1 := ⟨allocator.maxRounds - 1, by omega⟩
  obtain ⟨size, isSize, _⟩ := allocated.adjusted
  have passes : f.checkAllocated = .ok (.ok ()) := Func.checkAllocated_of_settled allocated.settled
  refine Pass.result_bind_eq_ok.mpr ⟨_, allocated.registers_eq, ?_⟩
  rw [noSlot]
  refine Pass.result_bind_eq_ok.mpr ⟨_, allocated.reserveVirtuals_eq_self, ?_⟩
  rw [isLeft]
  refine Pass.result_bind_eq_ok.mpr ⟨_, allocated.rounds_eq_self allocator _ left, ?_⟩
  refine Pass.result_bind_eq_ok.mpr ⟨_, passes, ?_⟩
  exact Pass.result_bind_eq_ok.mpr ⟨size, isSize, rfl⟩

end Func.Allocated

/-! ## What comes out of an allocation -/

theorem Terminator.targets_mapRegs (term : Terminator) (change : Reg → Reg) :
    (term.mapRegs change).targets = term.targets := by
  cases term <;> rfl

namespace Allocator

variable {allocator : Allocator} {f g : Func} {report : AllocationReport}

/-- Rounds that return something had live sets to begin with. -/
theorem liveness_of_rounds {start : AllocationReport} {left : Nat}
    (ok : (allocator.rounds f start left).result = .ok (g, report)) :
    ∃ liveness, f.liveness = .ok liveness := by
  cases left with
  | zero => cases ok
  | succ left =>
      obtain ⟨liveness, found, _⟩ := rounds_succ_eq_ok ok
      exact ⟨liveness, found⟩

theorem allocated_of_allocate (done : (allocator.allocate f).result = .ok (g, report)) :
    g.Allocated := by
  obtain ⟨reserved, _, isCode, passes⟩ := allocate_eq_ok done
  obtain ⟨count, _, allocatedTo⟩ := allocatedTo_rounds isCode
  obtain ⟨liveness, found⟩ := liveness_of_rounds isCode
  obtain ⟨frame, isFrame, yields⟩ := allocatedTo.blocks
  have settled := settled_of_checkBlocks passes
  refine ⟨⟨?targets, ?calls⟩, settled, allocatedTo.noSelfMove, frame, isFrame, ?adjusted⟩
  case targets =>
    intro block isBlock target isTarget
    obtain ⟨old, isOld, here⟩ := exists_of_forall₂_right yields isBlock
    obtain ⟨change, isTerm⟩ := here.term
    rw [isTerm, Terminator.targets_mapRegs] at isTarget
    obtain ⟨number, rfl⟩ := List.get_of_mem isOld
    rw [← yields.length_eq]
    exact (Func.liveness_eq_ok found).2.1 number target isTarget
  case calls =>
    intro block isBlock callee argc isCall
    have arity := ((settled block isBlock).instrs _ isCall).arity
    by_contra many
    rw [Instr.arity, if_neg many] at arity
    cases arity
  case adjusted =>
    rintro rfl block isBlock instr isInstr
    obtain ⟨old, _, none⟩ := exists_of_forall₂_right (allocatedTo.adjustments isFrame) isBlock
    rw [if_pos rfl, List.filter_eq_nil_iff] at none
    exact Bool.eq_false_iff.mpr (none instr isInstr)

/-- Allocation is idempotent.  Whatever an allocation returns, any allocator that may try a round returns
it unchanged after one round, in which it spills nothing, merges nothing and drops no copy. -/
theorem allocate_idempotent (first second : Allocator) (f allocated : Func) (report : AllocationReport)
    (done : (first.allocate f).result = .ok (allocated, report)) (tries : 1 ≤ second.maxRounds) :
    (second.allocate allocated).result = .ok (allocated, ⟨1, 0, 0, 0⟩) :=
  (allocated_of_allocate done).allocate_eq_self second tries

end Allocator

/-- Returns where it was called from, after it has stored a number at the sum of two others. -/
def Func.returning : Func :=
  { name := "returning"
    blocks := [⟨"entry",
      [.spGrow, .li (.virtual 0) 1, .li (.virtual 1) 20, .li (.virtual 2) 300,
        .alu .add (.virtual 3) (.virtual 1) (.virtual 2), .store (.virtual 0) (.based (.virtual 3) 0),
        .move resultReg (.physical .ra), .spRecover], .ret⟩]
    slots := 0
    nextVirtual := 0 }

/-- The copy between physical registers and the adjustments of the stack pointer are still there for the
second allocation. -/
theorem Allocator.allocate_idempotent_returning :
    ∃ allocated report,
      (Allocator.allocate ⟨[.temp 0, .temp 1], true, 2⟩ Func.returning).result = .ok (allocated, report) ∧
      report = ⟨2, 1, 0, 0⟩ ∧ allocated.blocks.map (fun block => block.instrs.length) = [10] ∧
      (Allocator.allocate ⟨[.arg 0, .temp 5], true, 1⟩ allocated).result =
        .ok (allocated, ⟨1, 0, 0, 0⟩) := by
  have evaluated : (Allocator.allocate ⟨[.temp 0, .temp 1], true, 2⟩ Func.returning).result.map
      (fun result => (result.1.blocks.map fun block => block.instrs.length, result.2)) =
        .ok ([10], ⟨2, 1, 0, 0⟩) := by cbv
  cases done : (Allocator.allocate ⟨[.temp 0, .temp 1], true, 2⟩ Func.returning).result with
  | error fault =>
      rw [done] at evaluated
      cases evaluated
  | ok result =>
      obtain ⟨allocated, report⟩ := result
      rw [done] at evaluated
      obtain ⟨lengths, rfl⟩ := Prod.mk.inj (Except.ok.inj evaluated)
      exact ⟨allocated, _, rfl, rfl, lengths,
        Allocator.allocate_idempotent _ ⟨[.arg 0, .temp 5], true, 1⟩ _ _ _ done (by decide)⟩

end Lowering.Machine
