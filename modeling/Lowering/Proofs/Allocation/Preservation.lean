import Lowering.Proofs.Allocation.Painting
import Lowering.Proofs.Allocation.SpillSteps
import Mathlib

/-!
# Allocation preserves meaning

A round that needs no spill gives colors that are sound for the function it ran on, and merges
copies between registers of the same color only.  Spill code keeps the meaning between rounds, so
the code that comes out of the last round refines the code that went into the first.
-/

namespace Lowering.Machine

/-- The copies found by liveness are where they say. -/
theorem Func.getElem?_of_mem_moves {f : Func} {edges : Edges f.blocks.length} {site : MoveSite}
    (member : site ∈ (f.livenessAlong edges).moves) :
    ∃ block, f.blocks[site.block]? = some block ∧
      block.instrs[site.index]? = some (.move site.dest site.src) ∧
      site.dest.isTracked = true ∧ site.src.isTracked = true := by
  obtain ⟨row, isRow, inRow⟩ := List.mem_flatten.mp member
  obtain ⟨number, isBlock, rfl⟩ := List.mem_mapIdx.mp isRow
  unfold Block.moves at inRow
  obtain ⟨cell, isCell, inCell⟩ := List.mem_flatten.mp inRow
  obtain ⟨index, isInstr, rfl⟩ := List.mem_mapIdx.mp isCell
  split at inCell
  · next dest src isCopy =>
      split at inCell
      · next tracked =>
          cases List.mem_singleton.mp inCell
          rw [Bool.and_eq_true] at tracked
          refine ⟨f.blocks[number], List.getElem?_eq_getElem isBlock, ?_, tracked⟩
          rw [List.getElem?_eq_getElem isInstr, isCopy]
      · cases inCell
  · cases inCell

namespace Round

variable {m : Nat} {round : Round m} {origin : InterferenceGraph}

/-- Registers that are not physical have colors of the pool. -/
def Pooled (round : Round m) (coloring : Coloring) : Prop :=
  ∀ (reg : Reg) (color : PhysReg), reg.isPhysical = false → coloring.colors[reg]? = some color →
    color ∈ round.pool

theorem Pooled.insert {coloring : Coloring} (pooled : round.Pooled coloring) {key : Reg}
    {first : PhysReg} (inPool : key.isPhysical = false → first ∈ round.pool) :
    round.Pooled { coloring with colors := coloring.colors.insert key first } := by
  intro reg color notPhysical found
  dsimp only at found
  rw [Coloring.getElem?_insert] at found
  split at found
  · next same =>
      subst same
      cases found
      exact inPool notPhysical
  · exact pooled reg color notPhysical found

theorem Pooled.foldl_assign (stack : List Reg) {coloring : Coloring} (pooled : round.Pooled coloring) :
    round.Pooled (stack.foldl round.assign coloring) := by
  induction stack generalizing coloring with
  | nil => exact pooled
  | cons reg rest ih =>
      apply ih
      unfold assign
      dsimp only
      split
      · next color found => exact pooled.insert fun _ => List.mem_of_getElem? found
      · exact pooled

theorem Pooled.foldl_share (invariant : Invariant origin round) (keys : List Reg)
    {coloring : Coloring} (pooled : round.Pooled coloring) :
    round.Pooled (keys.foldl round.share coloring) := by
  induction keys generalizing coloring with
  | nil => exact pooled
  | cons key rest ih =>
      apply ih
      unfold share
      split
      · next color found =>
          refine pooled.insert fun notPhysical => ?_
          cases kind : (round.representative key).isPhysical with
          | true =>
              obtain ⟨phys, isPhys, own⟩ := @Coloring.color?_of_physical coloring _ kind
              rw [own] at found
              cases found
              refine invariant.mem_pool_of_representative isPhys ?_
              rintro rfl
              cases notPhysical
          | false =>
              rw [Coloring.color?_of_not_physical kind] at found
              exact pooled _ color kind found
      · exact pooled

/-- Registers that are not physical are colored from the pool. -/
theorem Invariant.color_mem_pool (invariant : Invariant origin round) {reg : Reg}
    (notPhysical : reg.isPhysical = false) {color : PhysReg}
    (isColor : round.assignColors.color? reg = some color) : color ∈ round.pool := by
  have blank : round.Pooled ⟨∅, []⟩ := by
    intro reg color _ found
    simp at found
  have pooled : round.Pooled round.assignColors :=
    (blank.foldl_assign round.stack).foldl_share invariant round.merged.keys
  rw [Coloring.color?_of_not_physical notPhysical] at isColor
  exact pooled reg color notPhysical isColor

end Round

namespace Allocator

variable {allocator : Allocator} {f : Func} {liveness : Liveness f.blocks.length}

theorem mem_moves_of_mem_movesOf {site : MoveSite} (member : site ∈ allocator.movesOf liveness) :
    site ∈ liveness.moves := by
  unfold movesOf at member
  split at member
  · exact member
  · cases member

/-- The finished round of an attempt. -/
def finished (allocator : Allocator) (liveness : Liveness f.blocks.length) :
    Round (allocator.movesOf liveness).length :=
  (Round.start allocator.pool (f.interference liveness)
    (Table.tabulate (allocator.movesOf liveness).get)).run

theorem attempt_eq (allocator : Allocator) (liveness : Liveness f.blocks.length) :
    allocator.attempt (f.interference liveness) (allocator.movesOf liveness) =
      ⟨(allocator.finished liveness).assignColors, (allocator.finished liveness).mergedSites⟩ := rfl

theorem consistent_finished (allocator : Allocator) (found : f.liveness = .ok liveness) :
    Round.Consistent (f.interference liveness) allocator.pool
        (Table.tabulate (allocator.movesOf liveness).get) (allocator.finished liveness) ∧
      ∀ reg, ¬ (allocator.finished liveness).Listed reg :=
  f.consistent_run found allocator.pool fun _ member => mem_moves_of_mem_movesOf member

theorem sound_finished (distinct : allocator.pool.Nodup) (noZero : .zero ∉ allocator.pool)
    (noSp : .sp ∉ allocator.pool) (found : f.liveness = .ok liveness) :
    (allocator.finished liveness).assignColors.Sound (f.interference liveness) := by
  obtain ⟨consistent, ended⟩ := allocator.consistent_finished found
  have nodup := distinct
  rw [← consistent.pool] at nodup noZero noSp
  refine ⟨fun reg color tracked isColor => ?_, fun a b edge color isColor =>
    Round.color?_ne_of_hasEdge consistent.invariant ended nodup edge isColor⟩
  cases kind : reg.isPhysical with
  | true =>
      cases reg <;> cases kind
      cases isColor
      simpa [Reg.isTracked] using tracked
  | false =>
      have pooled := consistent.invariant.color_mem_pool kind isColor
      cases color with
      | zero => exact absurd pooled noZero
      | sp => exact absurd pooled noSp
      | _ => rfl

/-- An attempt without spills merges copies between registers of the same color. -/
theorem sameColors_finished (distinct : allocator.pool.Nodup) (found : f.liveness = .ok liveness)
    (noSpill : (allocator.finished liveness).assignColors.spilled = [])
    (block : Fin f.blocks.length) :
    Func.SameColors (allocator.finished liveness).assignColors (f.blocks.get block) fun index =>
      (allocator.finished liveness).mergedSites.contains (block.val, index) := by
  obtain ⟨consistent, ended⟩ := allocator.consistent_finished found
  have invariant := consistent.invariant
  have nodup := distinct
  rw [← consistent.pool] at nodup
  intro index merged
  rw [List.contains_iff_mem] at merged
  obtain ⟨move, isCoalesced, isSite⟩ := List.mem_map.mp merged
  have coalesced : (allocator.finished liveness).moveStates.get move = .coalesced := by
    unfold Round.movesIn at isCoalesced
    simpa using isCoalesced
  have alike := consistent.alike move coalesced
  rw [consistent.moves, Table.get_tabulate] at alike isSite
  have member : (allocator.movesOf liveness).get move ∈ liveness.moves :=
    mem_moves_of_mem_movesOf (List.get_mem _ _)
  generalize (allocator.movesOf liveness).get move = site at alike isSite member
  obtain ⟨sameBlock, rfl⟩ := Prod.mk.inj isSite
  obtain ⟨color, isColor⟩ := Round.colored_of_not_spilled invariant ended nodup noSpill
    (f.operands_mem_nodes found member).1
  have along := member
  rw [(Func.liveness_eq_ok found).2.2] at along
  obtain ⟨code, isCode, isMove, trackedDest, trackedSrc⟩ := Func.getElem?_of_mem_moves along
  have isBlock : code = f.blocks.get block := by
    rw [sameBlock, List.getElem?_eq_getElem block.isLt] at isCode
    exact (Option.some.inj isCode).symm
  refine ⟨site.dest, site.src, color, isBlock ▸ isMove, trackedDest, trackedSrc, isColor, ?_⟩
  rw [← isColor, invariant.color?_assignColors nodup, invariant.color?_assignColors nodup, alike]

variable {allocated : Func} {report final : AllocationReport}

theorem round_eq_ok {attempt : Attempt} (ok : (allocator.round f).result = .ok attempt) :
    ∃ liveness, f.liveness = .ok liveness ∧
      attempt = allocator.attempt (f.interference liveness) (allocator.movesOf liveness) := by
  obtain ⟨liveness, found, ok⟩ := Pass.result_bind_eq_ok.mp ok
  obtain ⟨_, _, ok⟩ := Pass.result_bind_eq_ok.mp ok
  cases ok
  exact ⟨liveness, found, rfl⟩

theorem round_of_liveness (allocator : Allocator) (found : f.liveness = .ok liveness) :
    (allocator.round f).result =
      .ok (allocator.attempt (f.interference liveness) (allocator.movesOf liveness)) :=
  Pass.result_bind_eq_ok.mpr ⟨liveness, found, rfl⟩

theorem rounds_of_colored (found : f.liveness = .ok liveness)
    (noSpill : (allocator.finished liveness).assignColors.spilled = []) (report : AllocationReport)
    (left : Nat) :
    (allocator.rounds f report (left + 1)).result =
      (f.applyColors (allocator.finished liveness).assignColors.colors
        (allocator.finished liveness).mergedSites).bind fun done => .ok (done.1,
          { report with
            rounds := report.rounds + 1
            coalesced := (allocator.finished liveness).mergedSites.length
            selfMoves := done.2 }) := by
  rw [rounds, Pass.result_bind, allocator.round_of_liveness found]
  dsimp only [Except.bind]
  rw [attempt_eq, if_pos (by rw [noSpill]; rfl), Pass.result_bind]
  rfl

/-- A round with spills is followed by the rounds of the relieved function. -/
theorem rounds_of_spill (found : f.liveness = .ok liveness)
    (spills : (allocator.finished liveness).assignColors.spilled ≠ []) (report : AllocationReport)
    (left : Nat) :
    (allocator.rounds f report (left + 1)).result =
      (f.spill (allocator.finished liveness).assignColors.spilled).result.bind fun relieved =>
        (allocator.rounds relieved.1
          { report with
            rounds := report.rounds + 1
            spilled := report.spilled +
              (allocator.finished liveness).assignColors.spilled.length } left).result := by
  rw [rounds, Pass.result_bind, allocator.round_of_liveness found]
  dsimp only [Except.bind]
  rw [attempt_eq, if_neg (by simpa using spills)]
  simp only [Pass.result_bind, Pass.result_note]
  rfl

/-- The last round writes its colors into the code, and any other spills and goes on. -/
theorem rounds_succ_eq_ok {left : Nat}
    (ok : (allocator.rounds f report (left + 1)).result = .ok (allocated, final)) :
    ∃ liveness, f.liveness = .ok liveness ∧
      (((allocator.finished liveness).assignColors.spilled = [] ∧ final.spilled = report.spilled ∧
        ∃ selfMoves, f.applyColors (allocator.finished liveness).assignColors.colors
          (allocator.finished liveness).mergedSites = .ok (allocated, selfMoves)) ∨
      ((allocator.finished liveness).assignColors.spilled ≠ [] ∧ ∃ relieved fresh next,
        (f.spill (allocator.finished liveness).assignColors.spilled).result = .ok (relieved, fresh) ∧
        next.spilled =
          report.spilled + (allocator.finished liveness).assignColors.spilled.length ∧
        (allocator.rounds relieved next left).result = .ok (allocated, final))) := by
  obtain ⟨attempt, isAttempt, _⟩ := Pass.result_bind_eq_ok.mp ok
  obtain ⟨liveness, found, _⟩ := round_eq_ok isAttempt
  refine ⟨liveness, found, ?_⟩
  by_cases noSpill : (allocator.finished liveness).assignColors.spilled = []
  · rw [rounds_of_colored found noSpill] at ok
    obtain ⟨⟨colored, selfMoves⟩, isColored, ok⟩ := bind_eq_ok.mp ok
    cases ok
    exact .inl ⟨noSpill, rfl, selfMoves, isColored⟩
  · rw [rounds_of_spill found noSpill] at ok
    obtain ⟨⟨relieved, fresh⟩, isRelieved, ok⟩ := bind_eq_ok.mp ok
    exact .inr ⟨noSpill, relieved, fresh, _, isRelieved, rfl, ok⟩

/-- What comes out of the rounds refines what went in. -/
theorem refines_rounds (distinct : allocator.pool.Nodup) (noZero : .zero ∉ allocator.pool)
    (noSp : .sp ∉ allocator.pool) {left : Nat} (fits : f.Fits)
    (ok : (allocator.rounds f report left).result = .ok (allocated, final)) :
    f.Refines allocated := by
  induction left generalizing f report with
  | zero => cases ok
  | succ left ih =>
      obtain ⟨liveness, found, ⟨noSpill, _, _, isColored⟩ | ⟨_, _, _, _, isRelieved, _, ok⟩⟩ :=
        rounds_succ_eq_ok ok
      · exact Func.refines_applyColors found (sound_finished distinct noZero noSp found)
          (sameColors_finished distinct found noSpill) isColored
      · obtain ⟨fitsRelieved, grows, refines⟩ := Func.spill_sound fits isRelieved
        exact refines.trans (ih fitsRelieved ok) grows

end Allocator

namespace Func

variable {f reserved : Func}

/-- Reserving moves the counter past the virtual registers of a function. -/
theorem mem_virtuals (f : Func) {number : Nat} :
    number ∈ f.regSet.toList.filterMap Reg.virtual? ↔ Reg.virtual number ∈ f.regSet := by
  rw [List.mem_filterMap, ← RegSet.mem_toList]
  constructor
  · rintro ⟨reg, mentioned, isNumber⟩
    cases reg <;> cases isNumber
    exact mentioned
  · exact fun mentioned => ⟨_, mentioned, rfl⟩

theorem reserveVirtuals_eq_ok (ok : f.reserveVirtuals = .ok reserved) :
    reserved.blocks = f.blocks ∧ reserved.slots = f.slots ∧
      ∀ number, Reg.virtual number ∈ f.regSet → number < reserved.nextVirtual := by
  obtain ⟨regs, areRegs, ok⟩ := bind_eq_ok.mp ok
  obtain ⟨next, isNext, ok⟩ := bind_eq_ok.mp ok
  obtain ⟨_, _, areRegs⟩ := bind_eq_ok.mp areRegs
  cases ok
  cases areRegs
  refine ⟨rfl, rfl, fun number mentioned => ?_⟩
  exact ((foldlM_reserve isNext).2.1 number (f.mem_virtuals.mpr mentioned)).1

theorem mem_regSet_of_operand {block : Block} {instr : Instr} {reg : Reg}
    (isBlock : block ∈ f.blocks) (isInstr : instr ∈ block.instrs)
    (operand : reg ∈ instr.operandUses ++ instr.operandDef?.toList) : reg ∈ f.regSet := by
  rw [mem_regSet]
  exact ⟨block, isBlock, List.mem_append_left _ (List.mem_flatMap.mpr
    ⟨instr, isInstr, Instr.mem_regs_of_operand operand⟩)⟩

/-- Code whose registers are below a counter and none spilled fits, with its slots in a frame. -/
theorem fits_of_mem_regSet {bound slots : Nat} (noSpilled : ∀ slot, Reg.spilled slot ∉ f.regSet)
    (below : ∀ number, Reg.virtual number ∈ f.regSet → number < bound)
    (framed : ∀ block ∈ f.blocks, ∀ instr ∈ block.instrs, ∀ slot ∈ instr.slot?, slot < slots) :
    ∀ block ∈ f.blocks, block.Fits bound slots := by
  have plain {reg : Reg} (mentioned : reg ∈ f.regSet) : reg.Plain bound := by
    cases reg with
    | virtual number => exact below number mentioned
    | physical phys => trivial
    | spilled slot => exact noSpilled slot mentioned
  intro block isBlock
  refine ⟨fun instr isInstr => ⟨fun reg used => ?_, fun reg defined => ?_, framed block isBlock instr
    isInstr⟩, fun reg used => ?_⟩
  · exact plain (mem_regSet_of_operand isBlock isInstr (List.mem_append_left _ used))
  · exact plain (mem_regSet_of_operand isBlock isInstr (by simp [defined]))
  · apply plain
    rw [mem_regSet]
    exact ⟨block, isBlock, List.mem_append_right _ (Terminator.mem_uses_of_mem_operandUses used)⟩

/-- A function fits once its virtual registers are reserved, unless it refers to a spilled register
or to a slot outside its frame. -/
theorem fits_reserved (ok : f.reserveVirtuals = .ok reserved)
    (noSpilled : ∀ slot, Reg.spilled slot ∉ f.regSet)
    (framed : ∀ block ∈ f.blocks, ∀ instr ∈ block.instrs, ∀ slot ∈ instr.slot?, slot < f.slots) :
    reserved.Fits := by
  obtain ⟨sameBlocks, sameSlots, below⟩ := reserveVirtuals_eq_ok ok
  unfold Func.Fits
  rw [sameBlocks, sameSlots]
  exact fits_of_mem_regSet noSpilled below framed

end Func

/-- Allocation preserves meaning: with a pool of different registers other than zero and the stack
pointer, the code it returns refines the code it was given. -/
theorem Allocator.allocate_refines (allocator : Allocator) (distinct : allocator.pool.Nodup)
    (noZero : .zero ∉ allocator.pool) (noSp : .sp ∉ allocator.pool) (f allocated : Func)
    (report : AllocationReport)
    (framed : ∀ block ∈ f.blocks, ∀ instr ∈ block.instrs, ∀ slot ∈ instr.slot?, slot < f.slots)
    (done : (allocator.allocate f).result = .ok (allocated, report)) : f.Refines allocated := by
  obtain ⟨regs, areRegs, done⟩ := Pass.result_bind_eq_ok.mp done
  obtain ⟨_, _, areRegs⟩ := bind_eq_ok.mp areRegs
  cases areRegs
  split at done
  · cases done
  · next noneSpilled =>
      have noSpilled (slot : Nat) : Reg.spilled slot ∉ f.regSet := by
        intro mentioned
        have absent := List.findSome?_eq_none_iff.mp noneSpilled _ (RegSet.mem_toList.mpr mentioned)
        cases absent
      obtain ⟨reserved, isReserved, done⟩ := Pass.result_bind_eq_ok.mp done
      obtain ⟨⟨code, final⟩, isCode, done⟩ := Pass.result_bind_eq_ok.mp done
      obtain ⟨verdict, _, done⟩ := Pass.result_bind_eq_ok.mp done
      have isAllocated : code = allocated := by
        cases verdict with
        | error objection => cases done
        | ok passed =>
            obtain ⟨frame, _, done⟩ := Pass.result_bind_eq_ok.mp done
            obtain ⟨_, _, done⟩ := Pass.result_bind_eq_ok.mp done
            cases done
            rfl
      subst isAllocated
      obtain ⟨sameBlocks, sameSlots, _⟩ := Func.reserveVirtuals_eq_ok isReserved
      have fits := Func.fits_reserved isReserved noSpilled framed
      exact (refines_rounds distinct noZero noSp fits isCode).congr sameBlocks sameSlots

/-- Adds three numbers that are live at once. -/
def Func.summing : Func :=
  { name := "summing"
    blocks := [⟨"entry",
      [.li (.virtual 0) 1, .li (.virtual 1) 20, .li (.virtual 2) 300,
        .alu .add (.virtual 1) (.virtual 1) (.virtual 2),
        .alu .add (.virtual 0) (.virtual 0) (.virtual 1), .store (.virtual 0) (.slot 0)], .ret⟩]
    slots := 1
    nextVirtual := 3 }

theorem Allocator.allocate_refines_summing :
    ∃ allocated report,
      (Allocator.allocate ⟨[.temp 0, .temp 1], true, 3⟩ Func.summing).result =
        .ok (allocated, report) ∧
      report.spilled = 1 ∧ Func.summing.Refines allocated := by
  have evaluated : (Allocator.allocate ⟨[.temp 0, .temp 1], true, 3⟩ Func.summing).result.map
      Prod.snd = .ok ⟨2, 1, 0, 0⟩ := by cbv
  cases done : (Allocator.allocate ⟨[.temp 0, .temp 1], true, 3⟩ Func.summing).result with
  | error fault =>
      rw [done] at evaluated
      cases evaluated
  | ok result =>
      obtain ⟨allocated, report⟩ := result
      rw [done] at evaluated
      cases evaluated
      exact ⟨allocated, _, rfl, rfl, Allocator.allocate_refines _ (by decide) (by decide)
        (by decide) _ _ _ (by decide) done⟩

end Lowering.Machine
