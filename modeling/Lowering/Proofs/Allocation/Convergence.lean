import Lowering.Proofs.Allocation.Outcomes

/-!
# Allocation converges

In a function with room for spill code whose live registers interfere, the registers of spill code are
never spilled.  Every round that spills therefore moves a further virtual register of the function itself
into the frame, and there is at most one round more than there are such registers.
-/

namespace Lowering.Machine

namespace Func

variable {f g : Func} {gone temps : List Reg} {dest src : Reg}

end Func

namespace Allocator

variable {allocator : Allocator} {f g : Func} {gone temps : List Reg}

end Allocator

section Deciding

variable {f : Func} {liveness : Liveness f.blocks.length} {pool : List PhysReg}

theorem forall_split_iff {α : Type} {list : List α} {P : List α → Prop} :
    (∀ earlier later, list = earlier ++ later → P later) ↔ ∀ later ∈ list.tails, P later := by
  refine ⟨fun holds later member => ?_, fun holds earlier later split => ?_⟩
  · obtain ⟨earlier, split⟩ := (List.mem_tails _ _).mp member
    exact holds earlier later split.symm
  · exact holds later ((List.mem_tails _ _).mpr ⟨earlier, split.symm⟩)

instance : Decidable (f.LiveTogether liveness) :=
  decidable_of_iff (∀ block, ∀ later ∈ (f.blocks.get block).instrs.tails,
    ∀ a ∈ (later.foldr Instr.liveBefore
      ((f.blocks.get block).liveEnd (liveness.liveOut.get block))).toList,
    ∀ b ∈ (later.foldr Instr.liveBefore
      ((f.blocks.get block).liveEnd (liveness.liveOut.get block))).toList,
    a.isPhysical = false → a ≠ b → (f.interference liveness).hasEdge a b = true) <| by
  simp only [RegSet.mem_toList]
  exact forall_congr' fun block => forall_split_iff.symm

instance : Decidable (f.Roomy liveness pool) :=
  decidable_of_iff (
    (∀ block, ∀ rest ∈ (f.blocks.get block).instrs.tails, ∀ instr ∈ rest.head?,
      occupied pool (rest.foldr Instr.liveBefore
          ((f.blocks.get block).liveEnd (liveness.liveOut.get block))) +
        (virtualsOf instr.operandUses).length ≤ pool.length ∧
      (((instr.operandDef?.bind Reg.virtual?).isSome = true) →
        occupied pool (rest.tail.foldr Instr.liveBefore
          ((f.blocks.get block).liveEnd (liveness.liveOut.get block))) + 1 ≤ pool.length)) ∧
    ∀ block, occupied pool ((f.blocks.get block).liveEnd (liveness.liveOut.get block)) +
      (virtualsOf (f.blocks.get block).term.operandUses).length ≤ pool.length) <| by
  constructor
  · rintro ⟨inside, last⟩
    have split {block : Fin f.blocks.length} {earlier later : List Instr} {instr : Instr}
        (split : (f.blocks.get block).instrs = earlier ++ instr :: later) :=
      inside block (instr :: later) ((List.mem_tails _ _).mpr ⟨earlier, split.symm⟩) instr rfl
    refine ⟨fun _ _ _ _ isSplit => (split isSplit).1, fun _ _ _ _ isSplit number written => ?_, last⟩
    exact (split isSplit).2 (by rw [written]; rfl)
  · rintro ⟨before, behind, last⟩
    refine ⟨fun block rest member instr isHead => ?_, last⟩
    obtain ⟨earlier, split⟩ := (List.mem_tails _ _).mp member
    obtain ⟨later, rfl⟩ := List.head?_eq_some_iff.mp isHead
    refine ⟨before block earlier instr later split.symm, fun isVirtual => ?_⟩
    obtain ⟨number, isNumber⟩ := Option.isSome_iff_exists.mp isVirtual
    obtain ⟨reg, written, isNumber⟩ := Option.bind_eq_some_iff.mp isNumber
    cases reg <;> cases isNumber
    exact behind block earlier instr later split.symm number written

end Deciding

end Lowering.Machine
