import Lowering.Proofs.Allocation.Outcomes
import Lowering.Proofs.Allocation.TwinSpills
import Lowering.Proofs.RelatedLists
import Mathlib

/-!
# Colored twins

A round without spills colors every register of its function, whatever the pool.  Twins get the same
color, so nothing tells them apart once the colors are written into the code.
-/

namespace Lowering.Machine

/-- A register keeps having a color while registers are colored. -/
theorem Coloring.exists_color?_insert {coloring : Coloring} {key reg : Reg} (color : PhysReg)
    (known : key = reg ∨ ∃ color, coloring.color? reg = some color) :
    ∃ found, Coloring.color? { coloring with colors := coloring.colors.insert key color } reg =
      some found := by
  cases kind : reg.isPhysical with
  | true =>
      obtain ⟨phys, _, isColor⟩ := color?_of_physical kind
      exact ⟨phys, isColor⟩
  | false =>
      rw [color?_of_not_physical kind, getElem?_insert]
      split
      · exact ⟨color, rfl⟩
      · next different =>
          rw [color?_of_not_physical kind] at known
          exact known.resolve_left different

namespace Round

variable {m : Nat} {round : Round m} {coloring : Coloring} {reg : Reg}

theorem exists_color?_share (key : Reg) (known : ∃ color, coloring.color? reg = some color) :
    ∃ color, (round.share coloring key).color? reg = some color := by
  unfold share
  split
  · exact Coloring.exists_color?_insert _ (.inr known)
  · exact known

/-- A register whose representative is colored gets its color when it is its turn. -/
theorem exists_color?_foldl_share (keys : List Reg) (coloring : Coloring)
    (known : (∃ color, coloring.color? reg = some color) ∨
      reg ∈ keys ∧ ∃ color, coloring.color? (round.representative reg) = some color) :
    ∃ color, (keys.foldl round.share coloring).color? reg = some color := by
  induction keys generalizing coloring with
  | nil => exact known.resolve_right fun ⟨member, _⟩ => by cases member
  | cons key rest ih =>
      refine ih _ ?_
      rcases known with known | ⟨member, color, isColor⟩
      · exact .inl (exists_color?_share key known)
      · rcases List.mem_cons.mp member with rfl | later
        · unfold share
          rw [isColor]
          exact .inl (Coloring.exists_color?_insert color (.inl rfl))
        · exact .inr ⟨later, exists_color?_share key ⟨color, isColor⟩⟩

theorem colored_or_spilled_of_stacked (stack : List Reg) (coloring : Coloring)
    (known : reg ∈ stack ∨ (∃ color, coloring.color? reg = some color) ∨ reg ∈ coloring.spilled) :
    (∃ color, (stack.foldl round.assign coloring).color? reg = some color) ∨
      reg ∈ (stack.foldl round.assign coloring).spilled := by
  induction stack generalizing coloring with
  | nil => exact known.resolve_left fun member => by cases member
  | cons key rest ih =>
      refine ih _ (or_iff_not_imp_left.mpr fun notLater => ?_)
      rw [List.mem_cons, or_iff_left notLater, eq_comm] at known
      rcases round.assign_eq coloring key with ⟨color, _, assigned⟩ | assigned
      · rw [assigned]
        exact (or_assoc.mpr known).imp_left (Coloring.exists_color?_insert color)
      · rw [assigned]
        rcases known with rfl | colored | spilled
        · exact .inr (List.mem_append_right _ List.mem_cons_self)
        · exact .inl colored
        · exact .inr (List.mem_append_left _ spilled)

/-- In a finished round without spills every node has a color, whatever the pool. -/
theorem exists_color?_of_no_spill {origin : InterferenceGraph} (invariant : Invariant origin round)
    (ended : ∀ reg, ¬ round.Listed reg) (noSpill : round.assignColors.spilled = [])
    (node : reg ∈ origin.nodes) : ∃ color, round.assignColors.color? reg = some color := by
  have represented : ∃ color, round.stackColors.color? (round.representative reg) = some color := by
    rcases representative_finished invariant ended node with physical | stacked
    · obtain ⟨phys, _, isColor⟩ := Coloring.color?_of_physical physical
      exact ⟨phys, isColor⟩
    · refine (colored_or_spilled_of_stacked round.stack ⟨∅, []⟩ (.inl stacked)).resolve_right ?_
      intro spilled
      rw [spilled_assignColors] at noSpill
      have member : round.representative reg ∈ round.stackColors.spilled := spilled
      rw [noSpill] at member
      cases member
  refine exists_color?_foldl_share round.merged.keys round.stackColors ?_
  by_cases merged : reg ∈ round.merged
  · exact .inr ⟨Std.TreeMap.mem_keys.mpr merged, represented⟩
  · rw [representative_of_not_merged merged] at represented
    exact .inl represented

end Round

/-- Functions of the same code, whatever their counters. -/
structure Func.SameCode (f g : Func) : Prop where
  name : f.name = g.name
  blocks : f.blocks = g.blocks
  slots : f.slots = g.slots

theorem Func.frameSize_congr {f g : Func} (same : f.slots = g.slots) :
    f.frameSize = g.frameSize := by
  unfold frameSize
  rw [same]

namespace Pairing

variable {p : Pairing} {a b a' b' : Reg}

/-- The pairs of some numbers only. -/
def only (p : Pairing) (chosen : Nat → Prop) : Pairing where
  pairs a b := p.pairs a b ∧ chosen a
  lt_iff_lt first second := p.lt_iff_lt first.1 second.1

/-- No numbers at all: registers that are their own twins. -/
def fixed : Pairing := ⟨fun _ _ => False, fun first _ => first.elim⟩

theorem eq_of_fixed (twins : fixed.Twins a a') : a = a' := by
  cases twins with
  | virtual paired => exact paired.elim
  | physical reg => rfl
  | spilled slot => rfl

section Code

variable {q : Pairing}

theorem Instrs.imp {instr other : Instr} (instrs : p.Instrs instr other)
    (twins : ∀ {a a' : Reg}, a ∈ instr.uses ++ instr.defs → p.Twins a a' → q.Twins a a') :
    q.Instrs instr other := by
  cases instrs with
  | li imm dest => exact .li imm (twins (by simp [Instr.defs]) dest)
  | la symbol dest => exact .la symbol (twins (by simp [Instr.defs]) dest)
  | load dest addr =>
      cases addr with
      | based offset base =>
          exact .load (twins (by simp [Instr.defs]) dest)
            (.based offset (twins (by simp [Instr.uses, Address.uses]) base))
      | slot slot => exact .load (twins (by simp [Instr.defs]) dest) (.slot slot)
  | store src addr =>
      cases addr with
      | based offset base =>
          exact .store (twins (by simp [Instr.uses]) src)
            (.based offset (twins (by simp [Instr.uses, Address.uses]) base))
      | slot slot => exact .store (twins (by simp [Instr.uses]) src) (.slot slot)
  | move dest src =>
      exact .move (twins (by simp [Instr.defs]) dest) (twins (by simp [Instr.uses]) src)
  | alu op dest lhs rhs =>
      exact .alu op (twins (by simp [Instr.defs]) dest) (twins (by simp [Instr.uses]) lhs)
        (twins (by simp [Instr.uses]) rhs)
  | aluImm op imm dest lhs =>
      exact .aluImm op imm (twins (by simp [Instr.defs]) dest) (twins (by simp [Instr.uses]) lhs)
  | cmpZero op dest src =>
      exact .cmpZero op (twins (by simp [Instr.defs]) dest) (twins (by simp [Instr.uses]) src)
  | call callee argc => exact .call callee argc
  | spGrow => exact .spGrow
  | spRecover => exact .spRecover

theorem Terms.imp {term other : Terminator} (terms : p.Terms term other)
    (twins : ∀ {a a' : Reg}, a ∈ term.uses → p.Twins a a' → q.Twins a a') : q.Terms term other := by
  cases terms with
  | ret => exact .ret
  | jump target => exact .jump target
  | branch op thenBlock elseBlock lhs rhs =>
      exact .branch op thenBlock elseBlock (twins (by simp [Terminator.uses]) lhs)
        (twins (by simp [Terminator.uses]) rhs)

theorem Blocks.imp {block other : Block} (blocks : p.Blocks block other)
    (twins : ∀ {a a' : Reg}, a ∈ block.regs → p.Twins a a' → q.Twins a a') :
    q.Blocks block other where
  label := blocks.label
  instrs := forall₂_imp_mem blocks.instrs fun instr isInstr _ instrs =>
    instrs.imp fun member => twins
      (List.mem_append_left _ (List.mem_flatMap.mpr ⟨instr, isInstr, member⟩))
  term := blocks.term.imp fun member => twins (List.mem_append_right _ member)

theorem Funcs.imp {f g : Func} (funcs : p.Funcs f g)
    (twins : ∀ {a a' : Reg}, a ∈ f.regSet → p.Twins a a' → q.Twins a a') : q.Funcs f g :=
  { funcs with
    blocks := forall₂_imp_mem funcs.blocks fun block isBlock _ blocks =>
      blocks.imp fun member => twins (Func.mem_regSet.mpr ⟨block, isBlock, member⟩) }

theorem eq_of_fixed_instrs {instr other : Instr} (instrs : fixed.Instrs instr other) :
    instr = other := by
  have address {addr addr' : Address} (addresses : fixed.Addresses addr addr') : addr = addr' := by
    cases addresses with
    | based offset base => rw [eq_of_fixed base]
    | slot slot => rfl
  cases instrs with
  | li imm dest => rw [eq_of_fixed dest]
  | la symbol dest => rw [eq_of_fixed dest]
  | load dest addr => rw [eq_of_fixed dest, address addr]
  | store src addr => rw [eq_of_fixed src, address addr]
  | move dest src => rw [eq_of_fixed dest, eq_of_fixed src]
  | alu op dest lhs rhs => rw [eq_of_fixed dest, eq_of_fixed lhs, eq_of_fixed rhs]
  | aluImm op imm dest lhs => rw [eq_of_fixed dest, eq_of_fixed lhs]
  | cmpZero op dest src => rw [eq_of_fixed dest, eq_of_fixed src]
  | call callee argc => rfl
  | spGrow => rfl
  | spRecover => rfl

theorem eq_of_fixed_terms {term other : Terminator} (terms : fixed.Terms term other) :
    term = other := by
  cases terms with
  | ret => rfl
  | jump target => rfl
  | branch op thenBlock elseBlock lhs rhs => rw [eq_of_fixed lhs, eq_of_fixed rhs]

end Code

section Painting

variable {colors otherColors : RegMap PhysReg}
  (colored : ∀ {a b : Nat}, p.pairs a b → ∃ color,
    colors.get? (.virtual a) = some color ∧ otherColors.get? (.virtual b) = some color)

include colored

theorem fixed_painted (twins : p.Twins a a') :
    fixed.Twins (painted colors a) (painted otherColors a') := by
  cases twins with
  | virtual paired =>
      obtain ⟨color, isColor, isOther⟩ := colored paired
      rw [painted, painted, isColor, isOther]
      exact .physical color
  | physical reg => exact .physical reg
  | spilled slot => exact .spilled slot

theorem paint_eq (name : String) (twins : p.Twins a a') :
    paint name colors a = paint name otherColors a' := by
  cases twins with
  | virtual paired =>
      obtain ⟨color, isColor, isOther⟩ := colored paired
      rw [paint, paint, isColor, isOther]
  | physical reg => rfl
  | spilled slot => rfl

theorem mapM_paint_eq (name : String) {regs others : List Reg}
    (paired : List.Forall₂ p.Twins regs others) :
    regs.mapM (paint name colors) = others.mapM (paint name otherColors) := by
  induction paired with
  | nil => rfl
  | cons first _ ih =>
      rw [List.mapM_cons, List.mapM_cons, ih, paint_eq colored name first]

variable {f g : Func}

theorem colorInstrs_eq (sameName : f.name = g.name) (isMerged : Nat → Bool) (frameEmpty : Bool)
    (index : Nat) {instrs others : List Instr} (paired : List.Forall₂ p.Instrs instrs others) :
    f.colorInstrs colors isMerged frameEmpty index instrs =
      g.colorInstrs otherColors isMerged frameEmpty index others := by
  induction paired generalizing index with
  | nil => rfl
  | @cons instr other _ _ first _ ih =>
      have operands : List.Forall₂ p.Twins (instr.operandUses ++ instr.operandDef?.toList)
          (other.operandUses ++ other.operandDef?.toList) := by
        refine List.rel_append first.operandUses ?_
        have defs := first.operandDef?
        generalize instr.operandDef? = definition at defs
        generalize other.operandDef? = otherDefinition at defs
        cases defs with
        | none => exact .nil
        | some twins => exact .cons twins .nil
      have same : instr.mapRegs (painted colors) = other.mapRegs (painted otherColors) :=
        eq_of_fixed_instrs (first.mapOperands (fixed_painted colored) (fixed_painted colored))
      rw [Func.colorInstrs, Func.colorInstrs, ih, sameName,
        mapM_paint_eq colored g.name operands, same]

theorem colorBlocks_eq (sameName : f.name = g.name) (merged : List (Nat × Nat)) (frameEmpty : Bool)
    (index : Nat) {blocks others : List Block} (paired : List.Forall₂ p.Blocks blocks others) :
    f.colorBlocks colors merged frameEmpty index blocks =
      g.colorBlocks otherColors merged frameEmpty index others := by
  induction paired generalizing index with
  | nil => rfl
  | @cons block other _ _ first _ ih =>
      have same : block.term.mapRegs (painted colors) = other.term.mapRegs (painted otherColors) :=
        eq_of_fixed_terms (first.term.mapRegs (fixed_painted colored))
      rw [Func.colorBlocks, Func.colorBlocks, ih,
        colorInstrs_eq colored sameName _ _ _ first.instrs, sameName,
        mapM_paint_eq colored g.name first.term.operandUses, same, first.label]

end Painting

/-- Twins in the same colors are allocated to the same code. -/
theorem Funcs.applyColors {f g : Func} {coloring other : Coloring} (funcs : p.Funcs f g)
    (colorings : p.Colorings coloring other)
    (colored : ∀ reg ∈ f.regSet, reg.isTracked = true → ∃ color, coloring.color? reg = some color)
    (merged : List (Nat × Nat)) :
    Alike p.Raises p.Lowers (fun done otherDone => done.1.SameCode otherDone.1 ∧ done.2 = otherDone.2)
      (f.applyColors coloring.colors merged) (g.applyColors other.colors merged) := by
  let q := p.only fun number => Reg.virtual number ∈ f.regSet
  have within : q.Funcs f g := funcs.imp fun mentioned twins => by
    cases twins with
    | virtual paired => exact .virtual ⟨paired, mentioned⟩
    | physical reg => exact .physical reg
    | spilled slot => exact .spilled slot
  have sameColor {a b : Nat} (paired : q.pairs a b) : ∃ color,
      coloring.colors.get? (.virtual a) = some color ∧
        other.colors.get? (.virtual b) = some color := by
    obtain ⟨color, isColor⟩ := colored (.virtual a) paired.2 rfl
    exact ⟨color, isColor, (Rounds.color?_eq colorings (.virtual paired.1)).symm.trans isColor⟩
  unfold Func.applyColors
  rw [Func.frameSize_congr funcs.slots]
  refine (Alike.refl g.frameSize).bind fun frame _ same => ?_
  subst same
  rw [colorBlocks_eq sameColor funcs.name merged _ 0 within.blocks]
  refine (Alike.refl _).bind fun painted _ same => ?_
  subst same
  exact .ok ⟨⟨funcs.name, rfl, funcs.slots⟩, rfl⟩

end Pairing

end Lowering.Machine
