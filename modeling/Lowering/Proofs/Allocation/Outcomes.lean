import Lowering.Proofs.Allocation.OneRound
import Lowering.Proofs.Allocation.Sheltering

/-!
# How allocation can end

Spill code keeps a function proper, so every round finds live sets, colors or spills every virtual
register, and spills virtual registers only.  A round without spills gives code that passes its check.
Allocation therefore returns, reaches its limit of rounds, or stops because a counter or the size of the
frame leaves its range.
-/

namespace Lowering.Machine

/-! ## Spill code and proper functions -/

section Relief

variable {gone temps : List Reg} {dest src : Reg} {callee : String} {argc : Nat} {instr : Instr}
  {code : List Instr}

/-- What is neither a load nor a store among the code of an instruction is the instruction itself, on
other operands unless it is a copy. -/
theorem Instr.Eased.eq_mapOperands {other : Instr} (eased : instr.Eased gone temps code)
    (member : other ∈ code) (notLoad : ∀ reg address, other ≠ .load reg address)
    (notStore : ∀ reg address, other ≠ .store reg address) :
    ∃ use definition, other = instr.mapOperands use definition ∧
      (instr.isMove = true → other = instr) := by
  cases eased with
  | @body _ use definition loaded stored kept uses defines =>
      rcases List.mem_append.mp member with isLoad | member
      · obtain ⟨pair, _, isLoad⟩ := List.mem_map.mp isLoad
        exact absurd isLoad.symm (notLoad _ _)
      · rcases List.mem_cons.mp member with isBody | isStore
        · refine ⟨use, definition, isBody, fun isMove => isBody.trans (mapOperands_eq_self ?_ ?_)⟩
          · exact fun reg used => uses.kept reg used (kept isMove reg (List.mem_append_left _ used))
          · exact fun reg made => defines.kept reg made (kept isMove reg (List.mem_append_right _ made))
        · obtain ⟨pair, _, isStore⟩ := List.mem_map.mp isStore
          exact absurd isStore.symm (notStore _ _)
  | fetch => exact absurd (List.mem_singleton.mp member) (notLoad _ _)
  | save => exact absurd (List.mem_singleton.mp member) (notStore _ _)
  | pass =>
      rcases List.mem_cons.mp member with isLoad | member
      · exact absurd isLoad (notLoad _ _)
      · exact absurd (List.mem_singleton.mp member) (notStore _ _)
  | drop => cases member

theorem Instr.Eased.eq_call (eased : instr.Eased gone temps code)
    (member : .call callee argc ∈ code) : instr = .call callee argc := by
  obtain ⟨use, definition, isCall, _⟩ := eased.eq_mapOperands member nofun nofun
  cases instr <;> cases isCall
  rfl

/-- Instructions that spill code never adds stem from the code it was added to. -/
theorem EasedCode.mem_of_mem {instrs : List Instr} (eased : EasedCode gone instrs temps code)
    (own : ∀ {source : Instr} {temps : List Reg} {piece : List Instr},
      source.Eased gone temps piece → instr ∈ piece → source = instr) (member : instr ∈ code) :
    instr ∈ instrs := by
  induction eased with
  | nil => exact member
  | cons first _ ih =>
      rcases List.mem_append.mp member with here | later
      · exact own first here ▸ List.mem_cons_self
      · exact List.mem_cons_of_mem _ (ih later)

theorem Block.Eased.mem_of_mem {block relieved : Block} (eased : block.Eased gone temps relieved)
    (notLoad : ∀ reg address, instr ≠ .load reg address)
    (own : ∀ {source : Instr} {temps : List Reg} {piece : List Instr},
      source.Eased gone temps piece → instr ∈ piece → source = instr)
    (member : instr ∈ relieved.instrs) : instr ∈ block.instrs := by
  cases eased with
  | mk code _ =>
      rcases List.mem_append.mp member with inCode | isLoad
      · exact code.mem_of_mem own inCode
      · obtain ⟨pair, _, isLoad⟩ := List.mem_map.mp isLoad
        exact absurd isLoad.symm (notLoad _ _)

theorem Block.Eased.targets_eq {block relieved : Block} (eased : block.Eased gone temps relieved) :
    relieved.term.targets = block.term.targets := by
  cases eased with
  | @mk label instrs code term => cases term <;> rfl

end Relief

namespace Func

variable {f g : Func} {gone temps spilled : List Reg}

/-- Every block of a function that was eased stems from a block of the function. -/
theorem Eased.exists_block (eased : f.Eased gone temps g) {relieved : Block}
    (isBlock : relieved ∈ g.blocks) :
    ∃ block ∈ f.blocks, ∃ part, part ⊆ temps ∧ block.Eased gone part relieved := by
  obtain ⟨i, inG, rfl⟩ := List.mem_iff_getElem.mp isBlock
  have inF : i < f.blocks.length := eased.length_eq ▸ inG
  obtain ⟨part, areEased, parts, _, _⟩ := eased.exists_part
  exact ⟨f.blocks[i], List.getElem_mem inF, part i, (parts i).2, areEased i inF inG⟩

theorem Eased.proper (eased : f.Eased gone temps g) (proper : f.Proper) : g.Proper where
  targets relieved isBlock target isTarget := by
    obtain ⟨block, isSource, _, _, easedBlock⟩ := eased.exists_block isBlock
    rw [eased.length_eq]
    exact proper.targets block isSource target (easedBlock.targets_eq ▸ isTarget)
  calls relieved isBlock callee argc isCall := by
    obtain ⟨block, isSource, _, _, easedBlock⟩ := eased.exists_block isBlock
    exact proper.calls block isSource callee argc
      (easedBlock.mem_of_mem (by simp) (fun eased => eased.eq_call) isCall)

/-- What holds of a function in every round. -/
structure Ready (f : Func) : Prop where
  proper : f.Proper
  fits : f.Fits

theorem Ready.liveness_eq_ok (ready : f.Ready) : f.liveness = .ok f.liveSets :=
  ready.proper.liveness_eq_ok

theorem Ready.not_spilled (ready : f.Ready) (slot : Nat) : Reg.spilled slot ∉ f.regSet :=
  fun mentioned => ready.fits.plain_of_mem_regSet mentioned

theorem Ready.framed (ready : f.Ready) :
    ∀ block ∈ f.blocks, ∀ instr ∈ block.instrs, ∀ slot ∈ instr.slot?, slot < f.slots :=
  fun block isBlock instr isInstr => ((ready.fits block isBlock).instrs instr isInstr).slot

theorem Ready.of_reserved {reserved : Func} (proper : f.Proper)
    (noSpilled : ∀ slot, Reg.spilled slot ∉ f.regSet)
    (framed : ∀ block ∈ f.blocks, ∀ instr ∈ block.instrs, ∀ slot ∈ instr.slot?, slot < f.slots)
    (ok : f.reserveVirtuals = .ok reserved) : reserved.Ready := by
  obtain ⟨sameBlocks, _, _⟩ := reserveVirtuals_eq_ok ok
  refine ⟨⟨?_, ?_⟩, fits_reserved ok noSpilled framed⟩
  · rw [sameBlocks]
    exact proper.targets
  · rw [sameBlocks]
    exact proper.calls

theorem Ready.spill {relieved : Func} {fresh : List Reg} (ready : f.Ready)
    (originals : VirtualsBelow f.nextVirtual spilled)
    (ok : (f.spill spilled).result = .ok (relieved, fresh)) : relieved.Ready := by
  obtain ⟨new, eased⟩ := (Eased.refl ready.fits).spill ready.fits originals ok
  exact ⟨eased.proper ready.proper, eased.fits⟩

theorem name_spill {fresh : List Reg} (ok : (f.spill spilled).result = .ok (g, fresh)) :
    g.name = f.name := by
  obtain ⟨_, _, _, _, isGrown, _, _, _, rfl⟩ := spill_eq_ok ok
  rw [grown_of_assignSlots isGrown]

/-- The size of a frame is known, or a sum or a product leaves its range. -/
theorem frameSize_cases (f : Func) : (∃ size, f.frameSize = .ok size) ∨
    f.frameSize = .error .addOverflow ∨ f.frameSize = .error .mulOverflow := by
  unfold frameSize
  dsimp only
  cases rounded : Width.w64.add f.slots (stackAlign / wordSize) with
  | error fault => exact .inr (.inl (congrArg Except.error (OnlyOverflows.add _ _ _ fault rounded)))
  | ok slots =>
      show (∃ size, Width.mul _ _ _ = .ok size) ∨ Width.mul _ _ _ = _ ∨ Width.mul _ _ _ = _
      unfold Width.mul
      split
      · exact .inl ⟨_, rfl⟩
      · exact .inr (.inr rfl)

theorem reserveVirtuals_onlyOverflows (proper : f.arity = .ok ()) :
    OnlyOverflows f.reserveVirtuals := by
  have registers : OnlyOverflows f.registers := by
    refine OnlyOverflows.bind ?_ fun _ _ => .ok _
    rw [proper]
    exact .ok ()
  exact registers.bind fun regs _ => (onlyOverflows_reserve _ _).bind fun _ _ => .ok _

theorem name_reserveVirtuals {reserved : Func} (ok : f.reserveVirtuals = .ok reserved) :
    reserved.name = f.name := by
  obtain ⟨_, _, ok⟩ := bind_eq_ok.mp ok
  obtain ⟨_, _, ok⟩ := bind_eq_ok.mp ok
  cases ok
  rfl

end Func

namespace Allocator

variable {allocator : Allocator} {f g : Func} {liveness : Liveness f.blocks.length}

/-- The registers a round spills are virtual registers of the function, each once. -/
theorem mem_spilled_finished (distinct : allocator.pool.Nodup) (ready : f.Ready) {reg : Reg}
    (spilled : reg ∈ (allocator.finished f.liveSets).assignColors.spilled) :
    reg ∈ f.regSet ∧ ∃ number, reg = .virtual number ∧ number < f.nextVirtual := by
  obtain ⟨consistent, _⟩ := allocator.consistent_finished ready.liveness_eq_ok
  have invariant := consistent.invariant
  have nodup := consistent.pool ▸ distinct
  rw [Round.spilled_assignColors] at spilled
  have stacked := (invariant.colored nodup).spilled.subset spilled
  obtain ⟨notPhysical, node⟩ := (invariant.own reg).mp (.inr (.inl stacked))
  have mentioned := Func.mem_regSet_of_mem_nodes node
  refine ⟨mentioned, ?_⟩
  have plain := ready.fits.plain_of_mem_regSet mentioned
  cases reg with
  | virtual number => exact ⟨number, rfl, plain⟩
  | physical phys => cases notPhysical
  | spilled slot => cases plain

theorem virtualsBelow_spilled (distinct : allocator.pool.Nodup) (ready : f.Ready) :
    VirtualsBelow f.nextVirtual (allocator.finished f.liveSets).assignColors.spilled :=
  fun _ spilled => (mem_spilled_finished distinct ready spilled).2

/-- A round without spills stops if the size of the frame is out of range. -/
theorem rounds_of_frameSize_error {fault : Fault} (found : f.liveness = .ok liveness)
    (noSpill : (allocator.finished liveness).assignColors.spilled = [])
    (oversized : f.frameSize = .error fault) (report : AllocationReport) (left : Nat) :
    (allocator.rounds f report (left + 1)).result = .error fault := by
  rw [rounds_of_colored found noSpill, Func.applyColors, oversized]
  rfl

/-- Rounds with spills lead from a function to another one. -/
inductive Reaches (allocator : Allocator) : Func → Func → Prop where
  | refl (f : Func) : Reaches allocator f f
  | spill {f relieved g : Func} {attempt : Attempt} {fresh : List Reg} :
      (allocator.round f).result = .ok attempt → attempt.coloring.spilled ≠ [] →
      (f.spill attempt.coloring.spilled).result = .ok (relieved, fresh) →
      Reaches allocator relieved g → Reaches allocator f g

/-- A counter or the size of the frame leaves its range in a round of a function. -/
inductive Exceeds (allocator : Allocator) (f : Func) : Prop where
  | counter {attempt : Attempt} : (allocator.round f).result = .ok attempt →
      (f.spill attempt.coloring.spilled).result = .error .addOverflow → Exceeds allocator f
  | frame : (∀ size, f.frameSize ≠ .ok size) → Exceeds allocator f

/-- A counter or the size of the frame leaves its range on the way through the rounds. -/
def Overflows (allocator : Allocator) (f : Func) : Prop :=
  f.reserveVirtuals = .error .addOverflow ∨
    ∃ reserved g, f.reserveVirtuals = .ok reserved ∧ allocator.Reaches reserved g ∧
      allocator.Exceeds g

theorem Reaches.ready (reaches : allocator.Reaches f g) (distinct : allocator.pool.Nodup)
    (ready : f.Ready) : g.Ready := by
  induction reaches with
  | refl => exact ready
  | spill attempted _ relieves _ ih =>
      obtain ⟨_, found, rfl⟩ := round_eq_ok attempted
      rw [ready.liveness_eq_ok] at found
      cases found
      exact ih (ready.spill (virtualsBelow_spilled distinct ready) relieves)

/-- The rounds of a function end in code that passes the check, at their limit, or on overflow. -/
theorem rounds_cases (distinct : allocator.pool.Nodup) (ready : f.Ready) (report : AllocationReport)
    (left : Nat) :
    (∃ allocated final, (allocator.rounds f report left).result = .ok (allocated, final) ∧
      allocated.checkAllocated = .ok (.ok ()) ∧ ∃ size, allocated.frameSize = .ok size) ∨
    (allocator.rounds f report left).result =
      .error (.noColoring f.name allocator.pool.length allocator.maxRounds) ∨
    ∃ g fault, allocator.Reaches f g ∧ allocator.Exceeds g ∧ Fault.IsOverflow fault ∧
      (allocator.rounds f report left).result = .error fault := by
  induction left generalizing f report with
  | zero => exact .inr (.inl rfl)
  | succ left ih =>
      have found := ready.liveness_eq_ok
      by_cases noSpill : (allocator.finished f.liveSets).assignColors.spilled = []
      · rcases f.frameSize_cases with ⟨size, sized⟩ | oversized | oversized
        · obtain ⟨allocated, final, isAllocated, _, _, sameSlots, passes⟩ :=
            rounds_of_no_spill distinct ready.proper ready.not_spilled ready.framed ⟨size, sized⟩
              found noSpill report left
          have sameSize : allocated.frameSize = f.frameSize := by
            unfold Func.frameSize
            rw [sameSlots]
          exact .inl ⟨allocated, final, isAllocated, passes, size, sameSize.trans sized⟩
        · exact .inr (.inr ⟨f, _, .refl f, .frame (by simp [oversized]), .inl rfl,
            rounds_of_frameSize_error found noSpill oversized report left⟩)
        · exact .inr (.inr ⟨f, _, .refl f, .frame (by simp [oversized]), .inr rfl,
            rounds_of_frameSize_error found noSpill oversized report left⟩)
      · have attempted := allocator.round_of_liveness found
        have originals := virtualsBelow_spilled distinct ready
        have only := f.spill_onlyOverflows fun reg member => by
          obtain ⟨number, rfl, _⟩ := originals reg member
          rfl
        rw [rounds_of_spill found noSpill]
        cases relieves : (f.spill (allocator.finished f.liveSets).assignColors.spilled).result with
        | error fault =>
            cases only fault relieves
            exact .inr (.inr ⟨f, _, .refl f, .counter attempted relieves, .inl rfl, rfl⟩)
        | ok spilled =>
            obtain ⟨relieved, fresh⟩ := spilled
            rw [← Func.name_spill relieves]
            refine (ih (ready.spill originals relieves) _).imp_right
              (.imp_right ?_)
            rintro ⟨g, fault, reaches, rest⟩
            exact ⟨g, fault, .spill attempted noSpill relieves reaches, rest⟩

/-- Allocation starts by reserving the registers of a function. -/
theorem result_allocate (allocator : Allocator) (proper : f.Proper)
    (noSpilled : ∀ slot, Reg.spilled slot ∉ f.regSet) :
    (∀ fault, f.reserveVirtuals = .error fault → (allocator.allocate f).result = .error fault) ∧
    ∀ reserved, f.reserveVirtuals = .ok reserved →
      (∀ fault, (allocator.rounds reserved ⟨0, 0, 0, 0⟩ allocator.maxRounds).result = .error fault →
        (allocator.allocate f).result = .error fault) ∧
      ∀ allocated report, (allocator.rounds reserved ⟨0, 0, 0, 0⟩ allocator.maxRounds).result =
          .ok (allocated, report) → allocated.checkAllocated = .ok (.ok ()) →
        (∃ size, allocated.frameSize = .ok size) →
        (allocator.allocate f).result = .ok (allocated, report) := by
  have registers : (liftM f.registers : Pass (List Reg)).result = .ok f.regSet.toList :=
    bind_eq_ok.mpr ⟨(), proper.arity_eq_ok, rfl⟩
  have absent : f.regSet.toList.findSome? Reg.slot? = none := by
    rw [List.findSome?_eq_none_iff]
    intro reg mentioned
    cases reg with
    | spilled slot => exact absurd (RegSet.mem_toList.mp mentioned) (noSpilled slot)
    | _ => rfl
  unfold allocate
  rw [Pass.result_bind_of_ok registers, absent]
  refine ⟨fun fault stopped => Pass.result_bind_of_error stopped, fun reserved isReserved => ?_⟩
  replace isReserved : (liftM f.reserveVirtuals : Pass Func).result = .ok reserved := isReserved
  dsimp only
  rw [Pass.result_bind_of_ok isReserved]
  refine ⟨fun fault stopped => Pass.result_bind_of_error stopped,
    fun allocated report done passes ⟨size, sized⟩ => ?_⟩
  replace passes : (liftM allocated.checkAllocated : Pass Verdict).result = .ok (.ok ()) := passes
  replace sized : (liftM allocated.frameSize : Pass Nat).result = .ok size := sized
  rw [Pass.result_bind_of_ok done]
  dsimp only
  rw [Pass.result_bind_of_ok passes]
  dsimp only
  rw [Pass.result_bind_of_ok sized]
  rfl

/-- Allocation does what its rounds do, unless the registers cannot be reserved. -/
theorem allocate_cases (distinct : allocator.pool.Nodup) (proper : f.Proper)
    (noSpilled : ∀ slot, Reg.spilled slot ∉ f.regSet)
    (framed : ∀ block ∈ f.blocks, ∀ instr ∈ block.instrs, ∀ slot ∈ instr.slot?, slot < f.slots) :
    (∃ reserved, f.reserveVirtuals = .ok reserved ∧
      (allocator.allocate f).result =
        (allocator.rounds reserved ⟨0, 0, 0, 0⟩ allocator.maxRounds).result ∧
      ((∃ allocated report, (allocator.allocate f).result = .ok (allocated, report)) ∨
        (allocator.allocate f).result =
          .error (.noColoring f.name allocator.pool.length allocator.maxRounds))) ∨
    allocator.Overflows f ∧ ∃ fault, Fault.IsOverflow fault ∧
      (allocator.allocate f).result = .error fault := by
  obtain ⟨unreserved, opened⟩ := allocator.result_allocate proper noSpilled
  cases isReserved : f.reserveVirtuals with
  | error fault =>
      cases Func.reserveVirtuals_onlyOverflows proper.arity_eq_ok fault isReserved
      exact .inr ⟨.inl isReserved, _, .inl rfl, unreserved _ isReserved⟩
  | ok reserved =>
      obtain ⟨stopped, done⟩ := opened reserved isReserved
      have ready := Func.Ready.of_reserved proper noSpilled framed isReserved
      rcases rounds_cases distinct ready ⟨0, 0, 0, 0⟩ allocator.maxRounds with
        ⟨allocated, report, isAllocated, passes, sized⟩ | limit | ⟨g, fault, reaches, exceeds, rest⟩
      · have isDone := done allocated report isAllocated passes sized
        exact .inl ⟨reserved, rfl, isDone.trans isAllocated.symm, .inl ⟨allocated, report, isDone⟩⟩
      · refine .inl ⟨reserved, rfl, (stopped _ limit).trans limit.symm, .inr ?_⟩
        rw [stopped _ limit, Func.name_reserveVirtuals isReserved]
      · exact .inr ⟨.inr ⟨reserved, g, isReserved, reaches, exceeds⟩, fault, rest.1,
          stopped fault rest.2⟩

theorem consistent_steps (allocator : Allocator) (found : f.liveness = .ok liveness) (fuel : Nat) :
    Round.Consistent (f.interference liveness) allocator.pool
      (Table.tabulate (allocator.movesOf liveness).get)
      ((Round.start allocator.pool (f.interference liveness)
        (Table.tabulate (allocator.movesOf liveness).get)).steps fuel) := by
  have operands := allocator.operands_movesOf found
  rw [Round.start_eq_startOn operands]
  exact Round.steps_induct (fun consistent stepped => (consistent.step stepped).1)
    (.startOn (Func.undirected_interference liveness) operands) fuel

/-- With a pool of different registers, allocation of a proper function returns or reaches its limit of
rounds, unless a counter or the size of the frame leaves its range.  In every round the function is
proper, at every step merges can be followed to an end, and in the end every virtual register has a
color of the pool or is represented by a register that is spilled, which is a virtual one. -/
theorem allocate_outcome (allocator : Allocator) (distinct : allocator.pool.Nodup) (f : Func)
    (proper : f.Proper) (noSpilled : ∀ slot, Reg.spilled slot ∉ f.regSet)
    (framed : ∀ block ∈ f.blocks, ∀ instr ∈ block.instrs, ∀ slot ∈ instr.slot?, slot < f.slots) :
    ((∃ allocated report, (allocator.allocate f).result = .ok (allocated, report)) ∨
      (allocator.allocate f).result =
        .error (.noColoring f.name allocator.pool.length allocator.maxRounds) ∨
      allocator.Overflows f ∧ ∃ fault, Fault.IsOverflow fault ∧
        (allocator.allocate f).result = .error fault) ∧
    ∀ reserved g, f.reserveVirtuals = .ok reserved → allocator.Reaches reserved g →
      g.Proper ∧ g.Fits ∧ ∃ liveness, g.liveness = .ok liveness ∧
        (∀ fuel reg, ((Round.start allocator.pool (g.interference liveness)
            (Table.tabulate (allocator.movesOf liveness).get)).steps fuel).representative reg ∉
          ((Round.start allocator.pool (g.interference liveness)
            (Table.tabulate (allocator.movesOf liveness).get)).steps fuel).merged) ∧
        (∀ reg ∈ g.regSet, reg.isPhysical = false →
          (∃ color ∈ allocator.pool,
            (allocator.finished liveness).assignColors.color? reg = some color) ∨
          (allocator.finished liveness).representative reg ∈
            (allocator.finished liveness).assignColors.spilled) ∧
        ∀ reg ∈ (allocator.finished liveness).assignColors.spilled, ∃ number, reg = .virtual number := by
  refine ⟨?_, fun reserved g isReserved reaches => ?_⟩
  · rcases allocate_cases distinct proper noSpilled framed with
      ⟨_, _, _, returned | limit⟩ | overflows
    · exact .inl returned
    · exact .inr (.inl limit)
    · exact .inr (.inr overflows)
  · have ready := reaches.ready distinct (.of_reserved proper noSpilled framed isReserved)
    have found := ready.liveness_eq_ok
    obtain ⟨consistent, ended⟩ := allocator.consistent_finished found
    refine ⟨ready.proper, ready.fits, g.liveSets, found, fun fuel reg => ?_,
      fun reg mentioned notPhysical => ?_, fun reg spilled => ?_⟩
    · exact (allocator.consistent_steps found fuel).invariant.rooted reg
    · have node := Func.mem_nodes_interference g.liveSets mentioned
        (Reg.isTracked_of_not_physical notPhysical)
      have outcome := Round.colored_or_spilled consistent.invariant ended
        (consistent.pool ▸ distinct) node notPhysical
      rwa [consistent.pool] at outcome
    · obtain ⟨number, isVirtual, _⟩ := (mem_spilled_finished distinct ready spilled).2
      exact ⟨number, isVirtual⟩

end Allocator

/-- Counts the calls until one gives the right answer. -/
def Func.polling : Func :=
  { name := "polling"
    blocks := [⟨"entry", [.li (.virtual 0) 0, .li (.virtual 1) 7], .jump 1⟩,
      ⟨"loop", [.move resultReg (.virtual 0), .call "poll" 1, .aluImm .addi (.virtual 0) (.virtual 0) 1],
        .branch .bne resultReg (.virtual 1) 1 2⟩,
      ⟨"exit", [.store (.virtual 0) (.slot 0)], .ret⟩]
    slots := 1
    nextVirtual := 2 }

theorem Allocator.allocate_outcome_polling :
    Func.polling.Proper ∧ Func.polling.Fits ∧
      ((∃ allocated report,
        (Allocator.allocate ⟨[.temp 0, .temp 1], true, 3⟩ Func.polling).result =
          .ok (allocated, report)) ∨
      (Allocator.allocate ⟨[.temp 0, .temp 1], true, 3⟩ Func.polling).result =
        .error (.noColoring "polling" 2 3) ∨
      Allocator.Overflows ⟨[.temp 0, .temp 1], true, 3⟩ Func.polling ∧
        ∃ fault, Fault.IsOverflow fault ∧
          (Allocator.allocate ⟨[.temp 0, .temp 1], true, 3⟩ Func.polling).result = .error fault) := by
  have proper : Func.polling.Proper := by
    refine ⟨by decide, fun block isBlock callee argc isCall => ?_⟩
    simp only [Func.polling, List.mem_cons, List.not_mem_nil, or_false] at isBlock
    rcases isBlock with rfl | rfl | rfl <;> simp at isCall
    omega
  have fits : Func.polling.Fits := by decide
  have ready : Func.polling.Ready := ⟨proper, fits⟩
  exact ⟨proper, fits, (Allocator.allocate_outcome ⟨[.temp 0, .temp 1], true, 3⟩ (by decide) _ proper
    ready.not_spilled ready.framed).1⟩

/-- Copies a number in a frame of many slots. -/
def Func.towering : Func :=
  { name := "towering"
    blocks := [⟨"entry", [.li (.virtual 0) 1, .move resultReg (.virtual 0)], .ret⟩]
    slots := 4611686018427387904
    nextVirtual := 1 }

/-- No register is spilled and no counter is near its limit, and still allocation stops: the bytes of
the frame are too many. -/
theorem Allocator.allocate_stops_towering :
    Func.towering.Proper ∧ Func.towering.Fits ∧
      Func.towering.reserveVirtuals = .ok Func.towering ∧ Func.towering.slots + 1 < Width.w64.bound ∧
      ((Allocator.round ⟨[.arg 0, .arg 1], true, 1⟩ Func.towering).result.map
        fun attempt => attempt.coloring.spilled) = .ok [] ∧
      (Allocator.allocate ⟨[.arg 0, .arg 1], true, 1⟩ Func.towering).result = .error .mulOverflow := by
  refine ⟨⟨by decide, fun block isBlock callee argc isCall => ?_⟩, by decide, by cbv, by decide,
    by cbv, by cbv⟩
  rw [List.mem_singleton.mp isBlock] at isCall
  simp at isCall

end Lowering.Machine
