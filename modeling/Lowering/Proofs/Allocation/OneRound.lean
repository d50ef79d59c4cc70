import Lowering.Proofs.Allocation.Conservative
import Lowering.Proofs.Allocation.Preservation
import Mathlib

/-!
# Allocation in one round

If the interference graph of a function can be simplified, every register finds a color in the
first round.  Then nothing is spilled, the colors can be written into the code, and the code passes
the check on allocated code.
-/

namespace Lowering.Machine

namespace Round

variable {m : Nat} {origin : InterferenceGraph} {round : Round m} {pool : List PhysReg}
  {moves : Table m MoveSite} {reg : Reg}

/-- Nothing is spilled if all registers were stacked with few neighbors. -/
theorem Relaxed.spilled_eq_nil (relaxed : Relaxed origin pool moves round) (nodup : pool.Nodup) :
    round.assignColors.spilled = [] := by
  have invariant := relaxed.consistent.invariant
  have distinct := relaxed.consistent.pool ▸ nodup
  refine List.eq_nil_iff_forall_not_mem.mpr fun reg spilled => ?_
  refine not_mem_spilled invariant distinct (fun later earlier split => ?_) spilled
  refine (relaxed.tame.easy later reg earlier split).mono ?_
  rintro other ⟨neighbor, edge, same, notEarlier, _⟩
  exact ⟨neighbor, edge, same, notEarlier⟩

end Round

section Checking

/-- An instruction that the check on allocated code lets pass. -/
structure Instr.Settled (slots : Nat) (instr : Instr) : Prop where
  arity : instr.arity = .ok ()
  physical : ∀ reg ∈ instr.uses ++ instr.defs, reg.isPhysical = true
  framed : ∀ slot, instr.slot? = some slot → slot < slots

structure Block.Settled (slots : Nat) (block : Block) : Prop where
  instrs : ∀ instr ∈ block.instrs, instr.Settled slots
  term : ∀ reg ∈ block.term.uses, reg.isPhysical = true

namespace Func

variable {f : Func}

theorem checkInstrs_of_settled {label : String} {instrs : List Instr}
    (settled : ∀ instr ∈ instrs, instr.Settled f.slots) :
    f.checkInstrs label instrs = .ok (.ok ()) := by
  induction instrs with
  | nil => rfl
  | cons instr rest ih =>
      have first := settled instr List.mem_cons_self
      have quiet : f.instrObjection? label instr = none := by
        have physical : (instr.uses ++ instr.defs).find? (fun reg => !reg.isPhysical) = none := by
          rw [List.find?_eq_none]
          simpa only [Bool.not_eq_true', Bool.not_eq_false] using first.physical
        unfold instrObjection?
        rw [physical]
        dsimp only
        split
        · next slot isSlot => exact if_pos (first.framed slot isSlot)
        · rfl
      rw [checkInstrs, first.arity, quiet]
      exact ih fun other member => settled other (List.mem_cons_of_mem _ member)

theorem checkAllocated_of_settled (settled : ∀ block ∈ f.blocks, block.Settled f.slots) :
    f.checkAllocated = .ok (.ok ()) := by
  unfold checkAllocated
  generalize f.blocks = blocks at settled
  induction blocks with
  | nil => rfl
  | cons block rest ih =>
      have first := settled block List.mem_cons_self
      have quiet : f.termObjection? block = none := by
        unfold termObjection?
        rw [Option.map_eq_none_iff, List.find?_eq_none]
        simpa only [Bool.not_eq_true', Bool.not_eq_false] using first.term
      rw [checkBlocks, checkInstrs_of_settled first.instrs, quiet]
      exact ih fun other member => settled other (List.mem_cons_of_mem _ member)

end Func

end Checking

section Painting

variable {coloring : Coloring} {f : Func}

theorem mapM_paint_of_colored (name : String) {regs : List Reg}
    (colored : ∀ reg ∈ regs, reg.slot? = none ∧ ∃ color, coloring.color? reg = some color) :
    ∃ others, regs.mapM (paint name coloring.colors) = .ok others := by
  induction regs with
  | nil => exact ⟨[], rfl⟩
  | cons reg rest ih =>
      obtain ⟨others, areOthers⟩ := ih fun other member =>
        colored other (List.mem_cons_of_mem _ member)
      have first : ∃ other, paint name coloring.colors reg = .ok other := by
        obtain ⟨notSpilled, color, isColor⟩ := colored reg List.mem_cons_self
        cases reg with
        | physical phys => exact ⟨_, rfl⟩
        | spilled slot => cases notSpilled
        | virtual number =>
            change coloring.colors.get? (.virtual number) = some color at isColor
            exact ⟨.physical color, by simp only [paint, isColor]⟩
      obtain ⟨other, isOther⟩ := first
      refine ⟨other :: others, ?_⟩
      rw [List.mapM_cons, isOther, areOthers]
      rfl

/-- Replacing the operands by physical registers leaves none that is not. -/
theorem Instr.settled_mapRegs {instr : Instr} {slots : Nat} {change : Reg → Reg}
    (arity : instr.arity = .ok ()) (framed : ∀ slot, instr.slot? = some slot → slot < slots)
    (physical : ∀ reg ∈ instr.operandUses ++ instr.operandDef?.toList,
      (change reg).isPhysical = true) : (instr.mapRegs change).Settled slots where
  arity := by cases instr <;> exact arity
  physical reg mentioned := by
    rcases List.mem_append.mp mentioned with used | defined
    · obtain ⟨fixed, isPhysical, _, members⟩ := instr.exists_fixed_uses
      rw [mapRegs, members] at used
      rcases List.mem_append.mp used with operand | isFixed
      · obtain ⟨old, isOld, rfl⟩ := List.mem_map.mp operand
        exact physical old (List.mem_append_left _ isOld)
      · exact isPhysical reg isFixed
    · obtain ⟨fixed, isPhysical, _, members⟩ := instr.exists_fixed_defs
      rw [mapRegs, members] at defined
      rcases List.mem_append.mp defined with operand | isFixed
      · obtain ⟨old, isOld, rfl⟩ := List.mem_map.mp operand
        exact physical old (List.mem_append_right _ isOld)
      · exact isPhysical reg isFixed
  framed := by
    rw [mapRegs, slot?_mapOperands]
    exact framed

theorem Terminator.physical_mapRegs {term : Terminator} {change : Reg → Reg}
    (physical : ∀ reg ∈ term.operandUses, (change reg).isPhysical = true) :
    ∀ reg ∈ (term.mapRegs change).uses, reg.isPhysical = true := by
  cases term with
  | ret => simp [mapRegs, uses, Reg.isPhysical, Reg.arg]
  | jump target => simp [mapRegs, uses]
  | branch op lhs rhs thenBlock elseBlock => simpa [mapRegs, uses, operandUses] using physical

theorem mem_tidy {frameEmpty : Bool} {instr other : Instr}
    (member : other ∈ (tidy frameEmpty instr).1) : other = instr := by
  unfold tidy at member
  split at member
  · split at member
    · cases member
    · exact List.mem_singleton.mp member
  · split at member
    · cases member
    · exact List.mem_singleton.mp member
  · split at member
    · cases member
    · exact List.mem_singleton.mp member
  · exact List.mem_singleton.mp member

theorem Func.colorInstrs_of_colored {isMerged : Nat → Bool} {frameEmpty : Bool} {instrs : List Instr}
    (arity : ∀ instr ∈ instrs, instr.arity = .ok ())
    (framed : ∀ instr ∈ instrs, ∀ slot, instr.slot? = some slot → slot < f.slots)
    (colored : ∀ instr ∈ instrs, ∀ reg ∈ instr.operandUses ++ instr.operandDef?.toList,
      reg.slot? = none ∧ ∃ color, coloring.color? reg = some color) (index : Nat) :
    ∃ code dropped, f.colorInstrs coloring.colors isMerged frameEmpty index instrs =
      .ok (code, dropped) ∧ ∀ instr ∈ code, instr.Settled f.slots := by
  induction instrs generalizing index with
  | nil => exact ⟨[], 0, rfl, by simp⟩
  | cons instr rest ih =>
      obtain ⟨later, droppedLater, isLater, settledLater⟩ := ih
        (fun other member => arity other (List.mem_cons_of_mem _ member))
        (fun other member => framed other (List.mem_cons_of_mem _ member))
        (fun other member => colored other (List.mem_cons_of_mem _ member)) (index + 1)
      rw [colorInstrs, isLater]
      split
      · exact ⟨later, droppedLater, rfl, settledLater⟩
      · obtain ⟨others, areOthers⟩ := mapM_paint_of_colored f.name (colored instr List.mem_cons_self)
        rw [areOthers]
        refine ⟨_, _, rfl, fun other member => ?_⟩
        rcases List.mem_append.mp member with first | member
        · rw [mem_tidy first]
          refine Instr.settled_mapRegs (arity instr List.mem_cons_self)
            (framed instr List.mem_cons_self) fun reg operand => ?_
          obtain ⟨color, _, isPainted⟩ := paint_ok_of_mapM areOthers reg operand
          rw [isPainted]
          rfl
        · exact settledLater other member

namespace Func

theorem colorBlocks_of_colored {merged : List (Nat × Nat)} {frameEmpty : Bool} {blocks : List Block}
    (arity : ∀ block ∈ blocks, ∀ instr ∈ block.instrs, instr.arity = .ok ())
    (framed : ∀ block ∈ blocks, ∀ instr ∈ block.instrs, ∀ slot, instr.slot? = some slot →
      slot < f.slots)
    (colored : ∀ block ∈ blocks, ∀ reg ∈ block.regs,
      reg.slot? = none ∧ ∃ color, coloring.color? reg = some color) (index : Nat) :
    ∃ out dropped, f.colorBlocks coloring.colors merged frameEmpty index blocks =
      .ok (out, dropped) ∧ ∀ block ∈ out, block.Settled f.slots := by
  induction blocks generalizing index with
  | nil => exact ⟨[], 0, rfl, by simp⟩
  | cons block rest ih =>
      obtain ⟨later, droppedLater, isLater, settledLater⟩ := ih
        (fun other member => arity other (List.mem_cons_of_mem _ member))
        (fun other member => framed other (List.mem_cons_of_mem _ member))
        (fun other member => colored other (List.mem_cons_of_mem _ member)) (index + 1)
      have colored := colored block List.mem_cons_self
      have operands (instr : Instr) (isInstr : instr ∈ block.instrs) (reg : Reg)
          (operand : reg ∈ instr.operandUses ++ instr.operandDef?.toList) :=
        colored reg (List.mem_append_left _ (List.mem_flatMap.mpr
          ⟨instr, isInstr, Instr.mem_regs_of_operand operand⟩))
      obtain ⟨code, dropped, isCode, settled⟩ := colorInstrs_of_colored
        (arity block List.mem_cons_self) (framed block List.mem_cons_self) operands 0
      obtain ⟨others, areOthers⟩ := mapM_paint_of_colored f.name fun reg used =>
        colored reg (List.mem_append_right _ (Terminator.mem_uses_of_mem_operandUses used))
      rw [colorBlocks, isCode, areOthers, isLater]
      refine ⟨_, _, rfl, fun other member => ?_⟩
      rcases List.mem_cons.mp member with rfl | member
      · refine ⟨settled, Terminator.physical_mapRegs fun reg used => ?_⟩
        obtain ⟨color, _, isPainted⟩ := paint_ok_of_mapM areOthers reg used
        rw [isPainted]
        rfl
      · exact settledLater other member

/-- Writing colors into code whose registers all have one succeeds, and the code passes the
check. -/
theorem applyColors_of_colored (proper : f.Proper)
    (framed : ∀ block ∈ f.blocks, ∀ instr ∈ block.instrs, ∀ slot ∈ instr.slot?, slot < f.slots)
    (sized : ∃ size, f.frameSize = .ok size)
    (colored : ∀ reg ∈ f.regSet, reg.slot? = none ∧ ∃ color, coloring.color? reg = some color)
    (merged : List (Nat × Nat)) :
    ∃ out selfMoves, f.applyColors coloring.colors merged = .ok (out, selfMoves) ∧
      out.slots = f.slots ∧ out.checkAllocated = .ok (.ok ()) := by
  obtain ⟨size, isSize⟩ := sized
  have arity (block : Block) (isBlock : block ∈ f.blocks) (instr : Instr)
      (isInstr : instr ∈ block.instrs) : instr.arity = .ok () :=
    forM_eq_ok_iff.mp (forM_eq_ok_iff.mp proper.arity_eq_ok block isBlock) instr isInstr
  have colored (block : Block) (isBlock : block ∈ f.blocks) (reg : Reg)
      (mentioned : reg ∈ block.regs) := colored reg (mem_regSet.mpr ⟨block, isBlock, mentioned⟩)
  obtain ⟨blocks, dropped, areBlocks, settled⟩ := colorBlocks_of_colored arity framed colored 0
  refine ⟨{ f with blocks }, dropped, ?_, rfl, checkAllocated_of_settled settled⟩
  exact bind_eq_ok.mpr ⟨size, isSize, bind_eq_ok.mpr ⟨_, areBlocks, rfl⟩⟩

theorem reserveVirtuals_of_small (proper : f.arity = .ok ())
    (small : ∀ number, Reg.virtual number ∈ f.regSet → number + 1 < Width.w32.bound) :
    ∃ next, f.reserveVirtuals = .ok { f with nextVirtual := next } := by
  have numbers : ∀ number ∈ f.regSet.toList.filterMap Reg.virtual?,
      number + 1 < Width.w32.bound := by
    intro number member
    obtain ⟨reg, mentioned, isNumber⟩ := List.mem_filterMap.mp member
    cases reg <;> cases isNumber
    exact small number (RegSet.mem_toList.mp mentioned)
  have counts : ∃ next, (f.regSet.toList.filterMap Reg.virtual?).foldlM
      (fun next v => do
        let after ← Width.w32.add v 1
        return if next < after then after else next) f.nextVirtual = .ok next := by
    generalize f.nextVirtual = next
    generalize f.regSet.toList.filterMap Reg.virtual? = list at numbers
    induction list generalizing next with
    | nil => exact ⟨next, rfl⟩
    | cons first rest ih =>
        have counted : Width.w32.add first 1 = .ok (first + 1) :=
          Width.add_eq_ok_iff.mpr ⟨rfl, numbers first List.mem_cons_self⟩
        rw [List.foldlM_cons, counted]
        exact ih _ fun number member => numbers number (List.mem_cons_of_mem _ member)
  obtain ⟨next, isNext⟩ := counts
  refine ⟨next, bind_eq_ok.mpr ⟨f.regSet.toList, ?_, bind_eq_ok.mpr ⟨next, isNext, rfl⟩⟩⟩
  exact bind_eq_ok.mpr ⟨(), proper, rfl⟩

end Func

end Painting

namespace Allocator

variable {allocator : Allocator} {f : Func} {liveness : Liveness f.blocks.length}

/-- The operands of the copies of a round are nodes of its graph. -/
theorem operands_movesOf (allocator : Allocator) (found : f.liveness = .ok liveness)
    (move : Fin (allocator.movesOf liveness).length) :
    ((Table.tabulate (allocator.movesOf liveness).get).get move).dest ∈
        (f.interference liveness).nodes ∧
      ((Table.tabulate (allocator.movesOf liveness).get).get move).src ∈
        (f.interference liveness).nodes := by
  rw [Table.get_tabulate]
  exact f.operands_mem_nodes found (mem_moves_of_mem_movesOf (List.get_mem _ _))

/-- A round of a graph that can be simplified never picks a spill candidate and spills nothing. -/
theorem relaxed_steps (found : f.liveness = .ok liveness)
    (simplifiable : (f.interference liveness).Simplifiable allocator.pool.length) (fuel : Nat) :
    Round.Relaxed (f.interference liveness) allocator.pool
      (Table.tabulate (allocator.movesOf liveness).get)
      ((Round.start allocator.pool (f.interference liveness)
        (Table.tabulate (allocator.movesOf liveness).get)).steps fuel) := by
  have operands := allocator.operands_movesOf found
  rw [Round.start_eq_startOn operands]
  exact Round.steps_induct (fun relaxed => relaxed.step)
    (.startOn (Func.undirected_interference liveness) operands simplifiable) fuel

theorem rounds_of_no_spill (distinct : allocator.pool.Nodup)
    (proper : f.Proper) (noSpilled : ∀ slot, Reg.spilled slot ∉ f.regSet)
    (framed : ∀ block ∈ f.blocks, ∀ instr ∈ block.instrs, ∀ slot ∈ instr.slot?, slot < f.slots)
    (sized : ∃ size, f.frameSize = .ok size) (found : f.liveness = .ok liveness)
    (noSpill : (allocator.finished liveness).assignColors.spilled = [])
    (report : AllocationReport) (left : Nat) :
    ∃ allocated final, (allocator.rounds f report (left + 1)).result = .ok (allocated, final) ∧
      final.rounds = report.rounds + 1 ∧ final.spilled = report.spilled ∧
      allocated.slots = f.slots ∧ allocated.checkAllocated = .ok (.ok ()) := by
  obtain ⟨consistent, ended⟩ := allocator.consistent_finished found
  have nodup := consistent.pool ▸ distinct
  have colored : ∀ reg ∈ f.regSet, reg.slot? = none ∧
      ∃ color, (allocator.finished liveness).assignColors.color? reg = some color := by
    intro reg mentioned
    cases reg with
    | physical phys => exact ⟨rfl, phys, rfl⟩
    | spilled slot => exact absurd mentioned (noSpilled slot)
    | virtual number =>
        have node := Func.mem_nodes_interference liveness mentioned rfl
        exact ⟨rfl, Round.colored_of_not_spilled consistent.invariant ended nodup noSpill node⟩
  obtain ⟨allocated, selfMoves, isAllocated, sameSlots, passes⟩ :=
    Func.applyColors_of_colored proper framed sized colored
      (allocator.finished liveness).mergedSites
  refine ⟨allocated, ⟨report.rounds + 1, report.spilled,
    (allocator.finished liveness).mergedSites.length, selfMoves⟩, ?_, rfl, rfl, sameSlots, passes⟩
  rw [rounds_of_colored found noSpill, isAllocated]
  rfl

/-- Merging is conservative.  If the interference graph of a function can be simplified with the
colors of the pool, allocation takes one round, spills nothing and adds no slot, whether copies are
merged or not, and at no time picks a spill candidate. -/
theorem allocate_of_simplifiable (allocator : Allocator) (distinct : allocator.pool.Nodup)
    (enough : 2 ≤ allocator.pool.length) (tries : 1 ≤ allocator.maxRounds) (f : Func)
    (proper : f.Proper) (noSpilled : ∀ slot, Reg.spilled slot ∉ f.regSet)
    (framed : ∀ block ∈ f.blocks, ∀ instr ∈ block.instrs, ∀ slot ∈ instr.slot?, slot < f.slots)
    (small : ∀ number, Reg.virtual number ∈ f.regSet → number + 1 < Width.w32.bound)
    (sized : ∃ size, f.frameSize = .ok size) (liveness : Liveness f.blocks.length)
    (found : f.liveness = .ok liveness)
    (simplifiable : (f.interference liveness).Simplifiable allocator.pool.length) :
    (∃ allocated report, (allocator.allocate f).result = .ok (allocated, report) ∧
      report.rounds = 1 ∧ report.spilled = 0 ∧ allocated.slots = f.slots) ∧
    ∀ fuel, ¬ ((Round.start allocator.pool (f.interference liveness)
      (Table.tabulate (allocator.movesOf liveness).get)).steps fuel).PicksSpill := by
  refine ⟨?_, fun fuel => (relaxed_steps found simplifiable fuel).not_picksSpill⟩
  obtain ⟨next, isReserved⟩ := Func.reserveVirtuals_of_small proper.arity_eq_ok small
  have reservedProper : { f with nextVirtual := next }.Proper := ⟨proper.targets, proper.calls⟩
  obtain ⟨left, isLeft⟩ : ∃ left, allocator.maxRounds = left + 1 := ⟨allocator.maxRounds - 1, by omega⟩
  obtain ⟨allocated, report, isAllocated, oneRound, noneSpilled, sameSlots, passes⟩ :=
    rounds_of_no_spill distinct reservedProper noSpilled framed sized found
      ((relaxed_steps found simplifiable _).spilled_eq_nil distinct) ⟨0, 0, 0, 0⟩ left
  have registers : f.registers = .ok f.regSet.toList :=
    bind_eq_ok.mpr ⟨(), proper.arity_eq_ok, rfl⟩
  have absent : f.regSet.toList.findSome? Reg.slot? = none := by
    rw [List.findSome?_eq_none_iff]
    intro reg mentioned
    cases reg with
    | spilled slot => exact absurd (RegSet.mem_toList.mp mentioned) (noSpilled slot)
    | _ => rfl
  obtain ⟨size, isSize⟩ := sized
  have allocatedSize : allocated.frameSize = .ok size := by
    unfold Func.frameSize
    rw [sameSlots]
    exact isSize
  refine ⟨allocated, report, ?_, oneRound, noneSpilled, sameSlots⟩
  refine Pass.result_bind_eq_ok.mpr ⟨_, registers, ?_⟩
  rw [absent]
  refine Pass.result_bind_eq_ok.mpr ⟨_, isReserved, ?_⟩
  rw [isLeft]
  refine Pass.result_bind_eq_ok.mpr ⟨_, isAllocated, ?_⟩
  refine Pass.result_bind_eq_ok.mpr ⟨_, passes, ?_⟩
  exact Pass.result_bind_eq_ok.mpr ⟨size, allocatedSize, rfl⟩

end Allocator

/-- Adds a number to its argument.  All three copies can be merged, and with three colors one
register starts as a spill candidate. -/
def Func.increasing : Func :=
  { name := "increasing"
    blocks := [⟨"entry",
      [.move (.virtual 0) resultReg, .li (.virtual 1) 7, .move (.virtual 2) (.virtual 0),
        .alu .add (.virtual 3) (.virtual 2) (.virtual 1), .move resultReg (.virtual 3)], .ret⟩]
    slots := 1
    nextVirtual := 4 }

theorem Allocator.allocate_of_simplifiable_increasing :
    ∃ liveness, Func.increasing.liveness = .ok liveness ∧
      (Func.increasing.interference liveness).Simplifiable 3 ∧
      (∃ allocated report,
        (Allocator.allocate ⟨[.arg 0, .arg 1, .arg 2], true, 1⟩ Func.increasing).result =
          .ok (allocated, report) ∧
        report.rounds = 1 ∧ report.spilled = 0 ∧ allocated.slots = 1) ∧
      ∀ fuel, ¬ ((Round.start [.arg 0, .arg 1, .arg 2] (Func.increasing.interference liveness)
        (Table.tabulate (Allocator.movesOf ⟨[.arg 0, .arg 1, .arg 2], true, 1⟩
          liveness).get)).steps fuel).PicksSpill := by
  have proper : Func.increasing.Proper := by
    refine ⟨by decide, fun block isBlock callee argc isCall => ?_⟩
    rw [List.mem_singleton.mp isBlock] at isCall
    simp at isCall
  have simplifiable : (Func.increasing.interference (Func.increasing.livenessAlong
      (.ofSuccs Func.increasing.flow.targets))).Simplifiable 3 := by
    refine ⟨[.virtual 3, .virtual 2, .virtual 1, .virtual 0], ?_, by decide⟩
    refine .cons (.cons (.cons (.cons .nil ?_ ?_ ?_ ?_) ?_ ?_ ?_ ?_) ?_ ?_ ?_ ?_) ?_ ?_ ?_ ?_
    all_goals decide
  have mentioned (reg : Reg) (member : reg ∈ Func.increasing.regSet) :
      reg ∈ [Reg.virtual 0, .virtual 1, .virtual 2, .virtual 3, .physical .ra, .arg 0] := by
    have listed := RegSet.mem_toList.mpr member
    exact listed
  refine ⟨_, proper.liveness_eq_ok, simplifiable, Allocator.allocate_of_simplifiable
    ⟨[.arg 0, .arg 1, .arg 2], true, 1⟩ (by decide) (by decide) (by decide) _ proper ?_ (by decide)
    ?_ ⟨16, rfl⟩ _ proper.liveness_eq_ok simplifiable⟩
  · intro slot member
    have listed := mentioned _ member
    simp [Reg.arg] at listed
  · intro number member
    have listed := mentioned _ member
    simp [Reg.arg] at listed
    simp only [Width.bound]
    omega

/-- Copies a number, with a frame too large for its size to be computed. -/
def Func.spacious : Func :=
  { name := "spacious"
    blocks := [⟨"entry", [.li (.virtual 0) 1, .move resultReg (.virtual 0)], .ret⟩]
    slots := 18446744073709551615
    nextVirtual := 1 }

/-- Allocation may stop at the size of the frame, however few registers there are. -/
theorem Allocator.allocate_overflows_spacious :
    Func.spacious.Proper ∧ Func.spacious.Fits ∧
      (∃ liveness, Func.spacious.liveness = .ok liveness ∧
        (Func.spacious.interference liveness).Simplifiable 2) ∧
      (Allocator.allocate ⟨[.arg 0, .arg 1], true, 1⟩ Func.spacious).result =
        .error .addOverflow := by
  have proper : Func.spacious.Proper := by
    refine ⟨by decide, fun block isBlock callee argc isCall => ?_⟩
    rw [List.mem_singleton.mp isBlock] at isCall
    simp at isCall
  refine ⟨proper, by decide, ⟨_, proper.liveness_eq_ok, [.virtual 0], ?_, by decide⟩, by cbv⟩
  exact .cons .nil (by decide) (by decide) (by decide) (by decide)

end Lowering.Machine
