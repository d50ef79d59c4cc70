import Lowering.Proofs.Allocation.Outcomes
import Lowering.Proofs.Allocation.SpillSlots
import Lowering.Proofs.RelatedLists
import Mathlib

/-!
# What allocation may change

Every instruction becomes a piece of code: slot accesses around the instruction with other registers,
and for a copy perhaps accesses only.  Adjustments of the stack pointer stay as they are, or all go if
the frame is empty.  A spilling round makes such pieces, the coloring of the last round does, and pieces
of pieces are pieces again.
-/

namespace Lowering.Machine

/-! ## Pieces of code -/

/-- Moves the stack pointer over the frame. -/
def Instr.isAdjustment : Instr → Bool
  | .spGrow | .spRecover => true
  | _ => false

/-- Of the physical registers, only those of a list, those of the pool and the stack pointer are
mentioned. -/
def Within (pool : List PhysReg) (regs mentioned : List Reg) : Prop :=
  ∀ phys, .physical phys ∈ mentioned → .physical phys ∈ regs ∨ phys ∈ pool ∨ phys = .sp

/-- Loads and stores of slots. -/
def Accesses (pool : List PhysReg) (regs : List Reg) (code : List Instr) : Prop :=
  ∀ instr ∈ code, instr.slot?.isSome = true ∧ Within pool regs (instr.uses ++ instr.defs)

/-- What allocation may make of an instruction. -/
inductive Instr.Yields (pool : List PhysReg) (frameEmpty : Bool) : Instr → List Instr → Prop where
  | body {instr : Instr} {before after : List Instr} {use definition : Reg → Reg} :
      instr.isAdjustment = false → Accesses pool [] before → Accesses pool [] after →
      Within pool (instr.uses ++ instr.defs)
        ((instr.mapOperands use definition).uses ++ (instr.mapOperands use definition).defs) →
      Yields pool frameEmpty instr (before ++ instr.mapOperands use definition :: after)
  | copy {instr : Instr} {piece : List Instr} : instr.isMove = true →
      Accesses pool (instr.uses ++ instr.defs) piece → Yields pool frameEmpty instr piece
  | adjust {instr : Instr} : instr.isAdjustment = true →
      Yields pool frameEmpty instr (if frameEmpty then [] else [instr])

/-- What allocation may make of a block: a piece for every instruction and accesses behind them, with
the same label and a terminator of the same kind with the same targets. -/
structure Block.Yields (pool : List PhysReg) (frameEmpty : Bool) (old new : Block) : Prop where
  label : new.label = old.label
  code : ∃ pieces loads, new.instrs = pieces.flatten ++ loads ∧
    List.Forall₂ (Instr.Yields pool frameEmpty) old.instrs pieces ∧ Accesses pool [] loads
  term : ∃ use, new.term = old.term.mapRegs use
  termRegs : Within pool old.term.uses new.term.uses

section Pieces

variable {pool : List PhysReg} {frameEmpty : Bool} {regs others mentioned : List Reg}
  {instr : Instr} {code piece : List Instr} {pieces finer : List (List Instr)} {old new : Block}

theorem Within.refl (pool : List PhysReg) (regs : List Reg) : Within pool regs regs :=
  fun _ member => .inl member

theorem Within.trans (first : Within pool regs others) (later : Within pool others mentioned) :
    Within pool regs mentioned := by
  intro phys member
  rcases later phys member with inOthers | allowed
  · exact first phys inOthers
  · exact .inr allowed

theorem Within.of_nil (within : Within pool [] mentioned) : Within pool regs mentioned :=
  fun phys member => .inr ((within phys member).resolve_left List.not_mem_nil)

namespace Accesses

theorem nil : Accesses pool regs [] := fun _ member => absurd member List.not_mem_nil

theorem append {front back : List Instr} (isFront : Accesses pool regs front)
    (isBack : Accesses pool regs back) : Accesses pool regs (front ++ back) :=
  fun instr member => (List.mem_append.mp member).elim (isFront instr) (isBack instr)

theorem widen (accesses : Accesses pool others code) (within : Within pool regs others) :
    Accesses pool regs code :=
  fun instr member => ⟨(accesses instr member).1, within.trans (accesses instr member).2⟩

theorem of_nil (accesses : Accesses pool [] code) : Accesses pool regs code :=
  fun instr member => ⟨(accesses instr member).1, (accesses instr member).2.of_nil⟩

end Accesses

@[simp] theorem Instr.isAdjustment_mapOperands {use definition : Reg → Reg} :
    (instr.mapOperands use definition).isAdjustment = instr.isAdjustment := by
  cases instr <;> rfl

theorem Instr.isAdjustment_of_slot? (access : instr.slot?.isSome = true) :
    instr.isAdjustment = false ∧ instr.isMove = false := by
  cases instr with
  | load | store => exact ⟨rfl, rfl⟩
  | _ => cases access

theorem Accesses.yields (accesses : Accesses pool regs code)
    (yields : List.Forall₂ (Instr.Yields pool frameEmpty) code pieces) :
    Accesses pool regs pieces.flatten := by
  induction yields with
  | nil => exact .nil
  | @cons access piece rest pieces first _ ih =>
      rw [List.flatten_cons]
      refine append ?_ (ih fun other later => accesses other (List.mem_cons_of_mem _ later))
      obtain ⟨isAccess, within⟩ := accesses access List.mem_cons_self
      obtain ⟨notAdjustment, notMove⟩ := Instr.isAdjustment_of_slot? isAccess
      cases first with
      | body _ before after kept =>
          refine before.of_nil.append fun other member => ?_
          rcases List.mem_cons.mp member with rfl | isAfter
          · exact ⟨by rwa [Instr.slot?_mapOperands], within.trans kept⟩
          · exact after.of_nil other isAfter
      | copy isMove =>
          rw [notMove] at isMove
          cases isMove
      | adjust isAdjustment =>
          rw [notAdjustment] at isAdjustment
          cases isAdjustment

/-- A piece whose instructions become pieces in turn is one. -/
theorem Instr.Yields.trans (first : instr.Yields pool false piece)
    (later : List.Forall₂ (Instr.Yields pool frameEmpty) piece pieces) :
    instr.Yields pool frameEmpty pieces.flatten := by
  cases first with
  | @body before after use definition notAdjustment isBefore isAfter within =>
      obtain ⟨front, rest, rfl, areFront, areRest⟩ := forall₂_append_left later
      cases areRest with
      | @cons _ middle _ back isMiddle areBack =>
          have earlier := isBefore.yields areFront
          have behind := isAfter.yields areBack
          rw [List.flatten_append, List.flatten_cons]
          generalize renamed : instr.mapOperands use definition = target at isMiddle within
          cases isMiddle with
          | body _ isBefore isAfter kept =>
              subst renamed
              rw [Instr.mapOperands_mapOperands] at kept ⊢
              rw [List.append_assoc, List.cons_append, ← List.append_assoc]
              exact .body notAdjustment (earlier.append isBefore) (isAfter.append behind)
                (within.trans kept)
          | copy isMove accesses =>
              subst renamed
              rw [Instr.isMove_mapOperands] at isMove
              exact .copy isMove (earlier.of_nil.append ((accesses.widen within).append behind.of_nil))
          | adjust isAdjustment =>
              subst renamed
              rw [Instr.isAdjustment_mapOperands, notAdjustment] at isAdjustment
              cases isAdjustment
  | copy isMove accesses => exact .copy isMove (accesses.yields later)
  | adjust =>
      cases later with
      | cons here none =>
          cases none
          rwa [List.flatten_cons, List.flatten_nil, List.append_nil]

theorem yields_trans {instrs : List Instr}
    (first : List.Forall₂ (Instr.Yields pool false) instrs pieces)
    (later : List.Forall₂ (Instr.Yields pool frameEmpty) pieces.flatten finer) :
    ∃ whole, List.Forall₂ (Instr.Yields pool frameEmpty) instrs whole ∧
      whole.flatten = finer.flatten := by
  induction first generalizing finer with
  | nil =>
      cases later
      exact ⟨[], .nil, rfl⟩
  | cons here _ ih =>
      obtain ⟨front, back, rfl, areFront, areBack⟩ := forall₂_append_left later
      obtain ⟨whole, areWhole, same⟩ := ih areBack
      refine ⟨front.flatten :: whole, .cons (here.trans areFront) areWhole, ?_⟩
      rw [List.flatten_cons, same, List.flatten_append]

theorem Block.Yields.trans {middle : Block} (first : old.Yields pool false middle)
    (later : middle.Yields pool frameEmpty new) : old.Yields pool frameEmpty new where
  label := later.label.trans first.label
  code := by
    obtain ⟨pieces, loads, isMiddle, arePieces, areLoads⟩ := first.code
    obtain ⟨finer, behind, isNew, areFiner, areBehind⟩ := later.code
    rw [isMiddle] at areFiner
    obtain ⟨front, back, rfl, areFront, areBack⟩ := forall₂_append_left areFiner
    obtain ⟨whole, areWhole, same⟩ := yields_trans arePieces areFront
    refine ⟨whole, back.flatten ++ behind, ?_, areWhole, (areLoads.yields areBack).append areBehind⟩
    rw [isNew, same, List.flatten_append, List.append_assoc]
  term := by
    obtain ⟨use, isMiddle⟩ := first.term
    obtain ⟨other, isNew⟩ := later.term
    exact ⟨other ∘ use, by rw [isNew, isMiddle, Terminator.mapRegs_mapRegs]⟩
  termRegs := first.termRegs.trans later.termRegs

theorem Accesses.filter_eq_nil (accesses : Accesses pool regs code) :
    code.filter Instr.isAdjustment = [] := by
  refine List.filter_eq_nil_iff.mpr fun instr member => ?_
  rw [(Instr.isAdjustment_of_slot? (accesses instr member).1).1]
  exact Bool.false_ne_true

theorem Instr.Yields.filter_eq (yields : instr.Yields pool frameEmpty piece) :
    piece.filter Instr.isAdjustment = if frameEmpty then [] else [instr].filter Instr.isAdjustment := by
  cases yields with
  | body notAdjustment before after _ =>
      simp [before.filter_eq_nil, after.filter_eq_nil, notAdjustment]
  | copy isMove accesses =>
      rw [accesses.filter_eq_nil]
      cases instr <;> cases isMove
      cases frameEmpty <;> rfl
  | adjust isAdjustment => cases frameEmpty <;> simp [isAdjustment]

theorem filter_flatten_eq {instrs : List Instr}
    (yields : List.Forall₂ (Instr.Yields pool frameEmpty) instrs pieces) :
    pieces.flatten.filter Instr.isAdjustment =
      if frameEmpty then [] else instrs.filter Instr.isAdjustment := by
  induction yields with
  | nil => cases frameEmpty <;> rfl
  | @cons instr piece rest pieces here _ ih =>
      rw [List.flatten_cons, List.filter_append, here.filter_eq, ih]
      cases frameEmpty with
      | true => rfl
      | false => exact (List.filter_append [instr] rest).symm

/-- The adjustments of a block all go or all stay, in order. -/
theorem Block.Yields.filter_eq (yields : old.Yields pool frameEmpty new) :
    new.instrs.filter Instr.isAdjustment =
      if frameEmpty then [] else old.instrs.filter Instr.isAdjustment := by
  obtain ⟨pieces, loads, isNew, arePieces, areLoads⟩ := yields.code
  rw [isNew, List.filter_append, areLoads.filter_eq_nil, List.append_nil, filter_flatten_eq arePieces]

theorem Instr.Yields.within (yields : instr.Yields pool frameEmpty piece) {other : Instr}
    (member : other ∈ piece) : Within pool (instr.uses ++ instr.defs) (other.uses ++ other.defs) := by
  cases yields with
  | body _ before after kept =>
      rcases List.mem_append.mp member with isBefore | member
      · exact (before other isBefore).2.of_nil
      rcases List.mem_cons.mp member with rfl | isAfter
      · exact kept
      · exact (after other isAfter).2.of_nil
  | copy _ accesses => exact (accesses other member).2
  | adjust =>
      split at member
      · cases member
      · obtain rfl := List.mem_singleton.mp member
        exact .refl _ _

theorem Block.Yields.within (yields : old.Yields pool frameEmpty new) :
    Within pool old.regs new.regs := by
  intro phys mentioned
  rcases List.mem_append.mp mentioned with inInstrs | used
  · obtain ⟨pieces, loads, isNew, arePieces, areLoads⟩ := yields.code
    obtain ⟨other, member, inOther⟩ := List.mem_flatMap.mp inInstrs
    rw [isNew] at member
    rcases List.mem_append.mp member with inPieces | isLoad
    · obtain ⟨piece, isPiece, inPiece⟩ := List.mem_flatten.mp inPieces
      obtain ⟨instr, isInstr, here⟩ := exists_of_forall₂_right arePieces isPiece
      refine (here.within inPiece phys inOther).imp_left fun inInstr => ?_
      exact List.mem_append_left _ (List.mem_flatMap.mpr ⟨instr, isInstr, inInstr⟩)
    · exact (areLoads other isLoad).2.of_nil phys inOther
  · exact (yields.termRegs phys used).imp_left (List.mem_append_right _)

end Pieces

/-! ## Spill code -/

section Spilling

variable {pool : List PhysReg} {instr : Instr} {use definition : Reg → Reg} {next last : Nat}

/-- Renamings that make no physical registers but those of the pool. -/
def Recolors (pool : List PhysReg) (change : Reg → Reg) : Prop :=
  ∀ reg phys, change reg = .physical phys → reg = .physical phys ∨ phys ∈ pool

theorem Recolors.comp {first second : Reg → Reg} (isFirst : Recolors pool first)
    (isSecond : Recolors pool second) : Recolors pool (second ∘ first) := by
  intro reg phys isPhys
  rcases isSecond _ phys isPhys with same | pooled
  · exact isFirst reg phys same
  · exact .inr pooled

theorem Recolors.mem_map {operands : List Reg} {change : Reg → Reg} (recolors : Recolors pool change)
    {phys : PhysReg} (member : .physical phys ∈ operands.map change) :
    .physical phys ∈ operands ∨ phys ∈ pool := by
  obtain ⟨reg, operand, isPhys⟩ := List.mem_map.mp member
  rcases recolors reg phys isPhys with rfl | pooled
  · exact .inl operand
  · exact .inr pooled

theorem Instr.within_mapOperands (uses : Recolors pool use) (defs : Recolors pool definition)
    (instr : Instr) : Within pool (instr.uses ++ instr.defs)
      ((instr.mapOperands use definition).uses ++ (instr.mapOperands use definition).defs) := by
  intro phys mentioned
  rcases List.mem_append.mp mentioned with used | defined
  · obtain ⟨fixed, _, same, members⟩ := instr.exists_fixed_uses
    rw [members] at used
    rw [same]
    rcases List.mem_append.mp used with operand | isFixed
    · rcases uses.mem_map operand with old | pooled
      · exact .inl (List.mem_append_left _ (List.mem_append_left _ old))
      · exact .inr (.inl pooled)
    · exact .inl (List.mem_append_left _ (List.mem_append_right _ isFixed))
  · obtain ⟨fixed, _, same, members⟩ := instr.exists_fixed_defs
    rw [members] at defined
    rw [same]
    rcases List.mem_append.mp defined with operand | isFixed
    · rcases defs.mem_map operand with old | pooled
      · exact .inl (List.mem_append_right _ (List.mem_append_left _ old))
      · exact .inr (.inl pooled)
    · exact .inl (List.mem_append_right _ (List.mem_append_right _ isFixed))

theorem Terminator.within_mapRegs (uses : Recolors pool use) (term : Terminator) :
    Within pool term.uses (term.mapRegs use).uses := by
  intro phys used
  cases term with
  | ret => exact .inl used
  | jump target => cases used
  | branch op lhs rhs thenBlock elseBlock =>
      exact (uses.mem_map used).imp_right .inl

theorem recolors_markSpilled (pool : List PhysReg) (slotOf : RegMap Nat) :
    Recolors pool (markSpilled slotOf) := by
  intro reg phys isPhys
  unfold markSpilled at isPhys
  split at isPhys
  · cases isPhys
  · exact .inl isPhys

theorem recolors_replaceSpilled (pool : List PhysReg) (temps : List (Nat × Nat)) :
    Recolors pool (replaceSpilled temps) := by
  intro reg phys isPhys
  cases reg with
  | spilled slot =>
      cases found : temps.lookup slot <;> simp [replaceSpilled, found] at isPhys
  | _ => exact .inl isPhys

theorem accesses_loadsOf (pool : List PhysReg) (temps : List (Nat × Nat)) :
    Accesses pool [] (loadsOf temps) := by
  intro instr member
  obtain ⟨pair, _, rfl⟩ := List.mem_map.mp member
  refine ⟨rfl, fun phys mentioned => .inr (.inr ?_)⟩
  simpa [Instr.uses, Instr.defs, Address.uses, Reg.sp] using mentioned

theorem accesses_storesOf (pool : List PhysReg) (temps : List (Nat × Nat)) :
    Accesses pool [] (Spills.storesOf temps) := by
  intro instr member
  obtain ⟨pair, _, rfl⟩ := List.mem_map.mp member
  refine ⟨rfl, fun phys mentioned => .inr (.inr ?_)⟩
  simpa [Instr.uses, Instr.defs, Address.uses, Reg.sp] using mentioned

variable (mark : Recolors pool use) {code : SpillCode}
include mark

theorem Instr.yields_spillPlain (notAdjustment : instr.isAdjustment = false)
    (ok : (instr.mapRegs use).spillPlain next = .ok code) :
    instr.Yields pool false code.instrs := by
  obtain ⟨⟨loaded, _⟩, _, ok⟩ := bind_eq_ok.mp ok
  obtain ⟨⟨stored, _⟩, _, ok⟩ := bind_eq_ok.mp ok
  cases ok
  dsimp only
  rw [Instr.mapRegs, Instr.mapOperands_mapOperands]
  exact .body notAdjustment (accesses_loadsOf pool _) (accesses_storesOf pool stored)
    (instr.within_mapOperands (mark.comp (recolors_replaceSpilled pool _))
      (mark.comp (recolors_replaceSpilled pool _)))

/-- Spill code for a copy, with the operands that are marked. -/
theorem Instr.yields_spill_move {dest src : Reg}
    (ok : (Instr.move (use dest) (use src)).spill next = .ok code) :
    (Instr.move dest src).Yields pool false code.instrs := by
  have operand {reg : Reg} {phys : PhysReg} (isPhys : .physical phys = use reg) (member : reg ∈ [src, dest]) :
      .physical phys ∈ [src, dest] ∨ phys ∈ pool ∨ phys = .sp := by
    rcases mark reg phys isPhys.symm with rfl | pooled
    · exact .inl member
    · exact .inr (.inl pooled)
  have pointer {phys : PhysReg} (isPhys : .physical phys = Reg.sp) :
      .physical phys ∈ [src, dest] ∨ phys ∈ pool ∨ phys = .sp := .inr (.inr (Reg.physical.inj isPhys))
  unfold Instr.spill at ok
  split at ok
  · split at ok
    · cases ok
      exact .copy rfl .nil
    · obtain ⟨_, _, ok⟩ := bind_eq_ok.mp ok
      cases ok
      exact .copy rfl ((accesses_loadsOf pool [(_, next)]).append (accesses_storesOf pool [(_, next)])).of_nil
  · next _ isMove =>
      cases ok
      obtain ⟨_, rfl⟩ := Instr.move.inj isMove
      refine .copy rfl fun other member => ?_
      obtain rfl := List.mem_singleton.mp member
      refine ⟨rfl, fun phys mentioned => ?_⟩
      rcases List.mem_cons.mp mentioned with isPhys | isPhys
      · exact operand isPhys List.mem_cons_self
      · exact pointer (List.mem_singleton.mp isPhys)
  · next _ isMove =>
      cases ok
      obtain ⟨rfl, _⟩ := Instr.move.inj isMove
      refine .copy rfl fun other member => ?_
      obtain rfl := List.mem_singleton.mp member
      refine ⟨rfl, fun phys mentioned => ?_⟩
      rcases List.mem_cons.mp mentioned with isPhys | isPhys
      · exact pointer isPhys
      · exact operand (List.mem_singleton.mp isPhys) (List.mem_cons_of_mem _ List.mem_cons_self)
  · next isMove =>
      cases ok
      cases isMove
      exact .body rfl .nil .nil ((Instr.move dest src).within_mapOperands mark mark)
  · next other =>
      exact absurd rfl (other _ _)

theorem Instr.yields_spill
    (ok : (instr.mapRegs use).spill next = .ok code) : instr.Yields pool false code.instrs := by
  cases instr with
  | move dest src => exact yields_spill_move mark ok
  | spGrow =>
      cases ok
      exact .adjust rfl
  | spRecover =>
      cases ok
      exact .adjust rfl
  | _ => exact yields_spillPlain mark rfl ok

theorem yields_spillInstrs {instrs : List Instr}
    (ok : spillInstrs next (instrs.map (Instr.mapRegs use)) = .ok code) :
    ∃ pieces, List.Forall₂ (Instr.Yields pool false) instrs pieces ∧ code.instrs = pieces.flatten := by
  obtain ⟨pieces, same, related⟩ := spillInstrs_pieces ok
  refine ⟨pieces, (List.forall₂_map_left_iff.mp related).imp ?_, same⟩
  rintro instr piece ⟨start, out, _, isOut, _, rfl⟩
  exact Instr.yields_spill mark isOut

theorem Block.yields_spill {block relieved : Block} {fresh : List Reg}
    (ok : (block.mapRegs use).spill next = .ok (relieved, fresh, last)) :
    block.Yields pool false relieved := by
  obtain ⟨code, isCode, ok⟩ := bind_eq_ok.mp ok
  obtain ⟨⟨loaded, _⟩, _, ok⟩ := bind_eq_ok.mp ok
  cases ok
  obtain ⟨pieces, arePieces, same⟩ := yields_spillInstrs mark isCode
  have isTerm : (block.mapRegs use).term.mapRegs (replaceSpilled loaded) =
      block.term.mapRegs (replaceSpilled loaded ∘ use) := Terminator.mapRegs_mapRegs
  refine ⟨rfl, ⟨pieces, _, congrArg (· ++ _) same, arePieces, accesses_loadsOf pool _⟩,
    ⟨_, isTerm⟩, ?_⟩
  dsimp only
  rw [isTerm]
  exact Terminator.within_mapRegs (mark.comp (recolors_replaceSpilled pool _)) block.term

theorem yields_spillBlocks {blocks relieved : List Block} {fresh : List Reg}
    (ok : spillBlocks next (blocks.map (Block.mapRegs use)) = .ok (relieved, fresh, last)) :
    List.Forall₂ (Block.Yields pool false) blocks relieved := by
  refine (List.forall₂_map_left_iff.mp (spillBlocks_pieces ok)).imp ?_
  rintro block other ⟨start, handed, finish, _, isOther, _⟩
  exact Block.yields_spill mark isOther

namespace Func

variable {f relieved : Func} {spilled fresh : List Reg}

omit mark in
theorem yields_spill (pool : List PhysReg) (ok : (f.spill spilled).result = .ok (relieved, fresh)) :
    List.Forall₂ (Block.Yields pool false) f.blocks relieved.blocks ∧
      relieved.slots = f.slots + spilled.length := by
  obtain ⟨grown, slotOf, blocks, nextVirtual, isGrown, _, _, areSpilled, rfl⟩ := spill_eq_ok ok
  have grows := f.slots_assignSlots isGrown
  exact ⟨yields_spillBlocks (recolors_markSpilled pool slotOf) areSpilled, grows⟩

end Func

end Spilling

/-! ## Colored code -/

section Coloring

variable {pool : List PhysReg} {colors : RegMap PhysReg} {frameEmpty : Bool} {f : Func}

theorem recolors_painted (pooled : ∀ (number : Nat) (color : PhysReg),
    colors[Reg.virtual number]? = some color → color ∈ pool) : Recolors pool (painted colors) := by
  intro reg phys isPhys
  cases reg with
  | virtual number =>
      unfold painted at isPhys
      rw [Std.TreeMap.get?_eq_getElem?] at isPhys
      cases found : colors[Reg.virtual number]? with
      | none =>
          rw [found] at isPhys
          cases isPhys
      | some color =>
          rw [found] at isPhys
          cases isPhys
          exact .inr (pooled number phys found)
  | _ => exact .inl isPhys

theorem Instr.yields_tidy {change : Reg → Reg} (recolors : Recolors pool change) (frameEmpty : Bool)
    (instr : Instr) : instr.Yields pool frameEmpty (tidy frameEmpty (instr.mapRegs change)).1 := by
  have whole (notAdjustment : instr.isAdjustment = false) :
      instr.Yields pool frameEmpty [instr.mapRegs change] :=
    .body notAdjustment .nil .nil (instr.within_mapOperands recolors recolors)
  cases instr with
  | move dest src =>
      unfold tidy
      dsimp only [Instr.mapRegs, Instr.mapOperands]
      split
      · exact .copy rfl .nil
      · exact whole rfl
  | spGrow => exact .adjust rfl
  | spRecover => exact .adjust rfl
  | _ => exact whole rfl

theorem move_self_notMem_tidy {instr : Instr} (reg : Reg) :
    .move reg reg ∉ (tidy frameEmpty instr).1 := by
  intro member
  obtain rfl := mem_tidy member
  simp [tidy] at member

namespace Func

/-- Coloring makes a piece of every instruction and drops the copies of a register to itself. -/
theorem yields_colorInstrs (recolors : Recolors pool (painted colors)) {isMerged : Nat → Bool}
    {index dropped : Nat} {instrs code : List Instr}
    (merged : ∀ i instr, instrs[i]? = some instr → isMerged (index + i) = true → instr.isMove = true)
    (ok : f.colorInstrs colors isMerged frameEmpty index instrs = .ok (code, dropped)) :
    (∃ pieces, List.Forall₂ (Instr.Yields pool frameEmpty) instrs pieces ∧ code = pieces.flatten) ∧
      ∀ reg, .move reg reg ∉ code := by
  induction instrs generalizing index code dropped with
  | nil =>
      cases ok
      exact ⟨⟨[], .nil, rfl⟩, fun _ => List.not_mem_nil⟩
  | cons instr rest ih =>
      have mergedRest : ∀ i instr, rest[i]? = some instr → isMerged (index + 1 + i) = true →
          instr.isMove = true := by
        intro i other found isMergedHere
        rw [Nat.add_right_comm] at isMergedHere
        exact merged (i + 1) other found isMergedHere
      rcases colorInstrs_cons ok with ⟨isMergedHere, okRest⟩ | ⟨_, later, _, _, okRest, rfl⟩
      · obtain ⟨⟨pieces, arePieces, isCode⟩, noSelfMove⟩ := ih mergedRest okRest
        exact ⟨⟨[] :: pieces, .cons (.copy (merged 0 instr rfl isMergedHere) .nil) arePieces, isCode⟩,
          noSelfMove⟩
      · obtain ⟨⟨pieces, arePieces, rfl⟩, noSelfMove⟩ := ih mergedRest okRest
        refine ⟨⟨_ :: pieces, .cons (instr.yields_tidy recolors frameEmpty) arePieces, rfl⟩,
          fun reg member => ?_⟩
        rcases List.mem_append.mp member with first | later
        · exact move_self_notMem_tidy reg first
        · exact noSelfMove reg later

theorem yields_colorBlocks (recolors : Recolors pool (painted colors)) {sites : List (Nat × Nat)}
    {index dropped : Nat} {blocks out : List Block}
    (merged : ∀ b block, blocks[b]? = some block → ∀ i instr, block.instrs[i]? = some instr →
      (index + b, i) ∈ sites → instr.isMove = true)
    (ok : f.colorBlocks colors sites frameEmpty index blocks = .ok (out, dropped)) :
    List.Forall₂ (Block.Yields pool frameEmpty) blocks out ∧
      ∀ block ∈ out, ∀ reg, .move reg reg ∉ block.instrs := by
  induction blocks generalizing index out dropped with
  | nil =>
      cases ok
      exact ⟨.nil, fun _ member => absurd member List.not_mem_nil⟩
  | cons block rest ih =>
      obtain ⟨⟨instrs, droppedHere⟩, isHere, ok⟩ := bind_eq_ok.mp ok
      obtain ⟨_, _, ok⟩ := bind_eq_ok.mp ok
      obtain ⟨⟨later, droppedLater⟩, isLater, ok⟩ := bind_eq_ok.mp ok
      cases ok
      obtain ⟨⟨pieces, arePieces, rfl⟩, noSelfMove⟩ := yields_colorInstrs recolors
        (fun i instr isInstr isMerged => by
          rw [Nat.zero_add, List.contains_iff_mem] at isMerged
          exact merged 0 block rfl i instr isInstr isMerged) isHere
      obtain ⟨areLater, noSelfMoveLater⟩ := ih
        (fun b other isOther i instr isInstr site => by
          rw [Nat.add_right_comm] at site
          exact merged (b + 1) other isOther i instr isInstr site) isLater
      refine ⟨.cons ⟨rfl, ⟨pieces, [], (List.append_nil _).symm, arePieces, .nil⟩, ⟨_, rfl⟩,
        Terminator.within_mapRegs recolors block.term⟩ areLater, fun other member => ?_⟩
      rcases List.mem_cons.mp member with rfl | inLater
      · exact noSelfMove
      · exact noSelfMoveLater other inLater

end Func

end Coloring

/-! ## Rounds -/

/-- What allocation may change in a function: the code by pieces, and the frame by the slots it adds. -/
structure Func.AllocatedTo (pool : List PhysReg) (spilled : Nat) (f allocated : Func) : Prop where
  name : allocated.name = f.name
  slots : allocated.slots = f.slots + spilled
  blocks : ∃ frame, allocated.frameSize = .ok frame ∧
    List.Forall₂ (Block.Yields pool (frame == 0)) f.blocks allocated.blocks
  noSelfMove : ∀ block ∈ allocated.blocks, ∀ reg, .move reg reg ∉ block.instrs

namespace Allocator

variable {allocator : Allocator} {f allocated : Func} {report final : AllocationReport}
  {liveness : Liveness f.blocks.length}

theorem recolors_finished (found : f.liveness = .ok liveness) :
    Recolors allocator.pool (painted (allocator.finished liveness).assignColors.colors) := by
  obtain ⟨consistent, _⟩ := allocator.consistent_finished found
  refine recolors_painted fun number color isColor => ?_
  have notPhysical : (Reg.virtual number).isPhysical = false := rfl
  rw [← consistent.pool]
  apply consistent.invariant.color_mem_pool notPhysical
  rw [Coloring.color?_of_not_physical notPhysical, isColor]

theorem allocatedTo_rounds {left : Nat}
    (ok : (allocator.rounds f report left).result = .ok (allocated, final)) :
    ∃ count, final.spilled = report.spilled + count ∧ f.AllocatedTo allocator.pool count allocated := by
  induction left generalizing f report with
  | zero => cases ok
  | succ left ih =>
      obtain ⟨liveness, found, ⟨_, counted, _, isColored⟩ |
        ⟨_, relieved, _, _, isRelieved, spills, ok⟩⟩ := rounds_succ_eq_ok ok
      · obtain ⟨frame, isFrame, isColored⟩ := bind_eq_ok.mp isColored
        obtain ⟨⟨blocks, dropped⟩, areBlocks, isColored⟩ := bind_eq_ok.mp isColored
        cases isColored
        obtain ⟨yields, noSelfMove⟩ := Func.yields_colorBlocks (recolors_finished found)
          (fun b block isBlock i instr isInstr site => by
            rw [Nat.zero_add] at site
            exact isMove_of_mergedSites found isBlock isInstr site) areBlocks
        exact ⟨0, counted, rfl, rfl, ⟨frame, isFrame, yields⟩, noSelfMove⟩
      · obtain ⟨yields, grows⟩ := Func.yields_spill allocator.pool isRelieved
        obtain ⟨count, counted, later⟩ := ih ok
        obtain ⟨frame, isFrame, yieldsLater⟩ := later.blocks
        have composed := forall₂_comp yields yieldsLater fun _ _ _ here there => here.trans there
        rw [spills, Nat.add_assoc] at counted
        refine ⟨_, counted, later.name.trans (Func.name_spill isRelieved), ?_,
          ⟨frame, isFrame, composed⟩, later.noSelfMove⟩
        rw [later.slots, grows, Nat.add_assoc]

end Allocator

namespace Func.AllocatedTo

variable {pool : List PhysReg} {spilled : Nat} {f allocated : Func}
  (allocatedTo : f.AllocatedTo pool spilled allocated)
include allocatedTo

theorem within : ∀ phys, .physical phys ∈ allocated.regSet →
    .physical phys ∈ f.regSet ∨ phys ∈ pool ∨ phys = .sp := by
  intro phys mentioned
  obtain ⟨block, isBlock, inBlock⟩ := mem_regSet.mp mentioned
  obtain ⟨frame, _, yields⟩ := allocatedTo.blocks
  obtain ⟨old, isOld, here⟩ := exists_of_forall₂_right yields isBlock
  exact (here.within phys inBlock).imp_left fun inOld => mem_regSet.mpr ⟨old, isOld, inOld⟩

/-- The adjustments of the stack pointer all go with the frame, or all stay. -/
theorem adjustments {frame : Nat} (isFrame : allocated.frameSize = .ok frame) :
    List.Forall₂ (fun old new => new.instrs.filter Instr.isAdjustment =
      if frame = 0 then [] else old.instrs.filter Instr.isAdjustment) f.blocks allocated.blocks := by
  obtain ⟨_, isSame, yields⟩ := allocatedTo.blocks
  obtain rfl := Except.ok.inj (isFrame.symm.trans isSame)
  refine yields.imp fun old new here => ?_
  rw [here.filter_eq]
  simp

end Func.AllocatedTo

theorem Block.Settled.exists_physical {slots : Nat} {block : Block} (settled : block.Settled slots)
    {reg : Reg} (mentioned : reg ∈ block.regs) : ∃ phys, reg = .physical phys := by
  have physical : reg.isPhysical = true := by
    rcases List.mem_append.mp mentioned with inInstrs | used
    · obtain ⟨instr, isInstr, inInstr⟩ := List.mem_flatMap.mp inInstrs
      exact (settled.instrs instr isInstr).physical reg inInstr
    · exact settled.term reg used
  cases reg with
  | physical phys => exact ⟨phys, rfl⟩
  | _ => cases physical

/-- What an allocation that returns may have changed, for every pool: its code has physical registers
only, which are those of the pool, those the function had and the stack pointer; the code is that of the
function by pieces; the frame has grown by the registers spilled; no copy of a register to itself is left;
and the adjustments of the stack pointer are kept in place unless the frame is empty. -/
theorem Allocator.allocate_frame (allocator : Allocator) (f allocated : Func)
    (report : AllocationReport) (done : (allocator.allocate f).result = .ok (allocated, report)) :
    f.AllocatedTo allocator.pool report.spilled allocated ∧
      (∀ reg ∈ allocated.regSet, ∃ phys, reg = .physical phys ∧
        (.physical phys ∈ f.regSet ∨ phys ∈ allocator.pool ∨ phys = .sp)) ∧
      ∀ frame, allocated.frameSize = .ok frame →
        List.Forall₂ (fun old new => new.instrs.filter Instr.isAdjustment =
          if frame = 0 then [] else old.instrs.filter Instr.isAdjustment) f.blocks allocated.blocks := by
  obtain ⟨reserved, isReserved, isCode, passes⟩ := allocate_eq_ok done
  obtain ⟨sameBlocks, sameSlots, _⟩ := Func.reserveVirtuals_eq_ok isReserved
  obtain ⟨count, counted, fromReserved⟩ := allocatedTo_rounds isCode
  rw [Nat.zero_add] at counted
  have allocatedTo : f.AllocatedTo allocator.pool report.spilled allocated := by
    refine ⟨fromReserved.name.trans (Func.name_reserveVirtuals isReserved), ?_, ?_,
      fromReserved.noSelfMove⟩
    · rw [counted, fromReserved.slots, sameSlots]
    · rw [← sameBlocks]
      exact fromReserved.blocks
  refine ⟨allocatedTo, fun reg mentioned => ?_, fun frame => allocatedTo.adjustments⟩
  obtain ⟨block, isBlock, inBlock⟩ := Func.mem_regSet.mp mentioned
  obtain ⟨phys, rfl⟩ := (settled_of_checkBlocks passes block isBlock).exists_physical inBlock
  exact ⟨phys, rfl, allocatedTo.within phys mentioned⟩

/-- Grows the frame for the time in which it adds two numbers and stores a third one at their sum. -/
def Func.framing : Func :=
  { name := "framing"
    blocks := [⟨"entry",
      [.spGrow, .li (.virtual 0) 1, .li (.virtual 1) 20, .li (.virtual 2) 300,
        .alu .add (.virtual 3) (.virtual 1) (.virtual 2), .move (.virtual 4) (.virtual 3),
        .store (.virtual 0) (.based (.virtual 4) 0), .spRecover], .ret⟩]
    slots := 0
    nextVirtual := 0 }

theorem Allocator.allocate_frame_framing :
    ∃ allocated report,
      (Allocator.allocate ⟨[.temp 0, .temp 1], true, 2⟩ Func.framing).result = .ok (allocated, report) ∧
      Func.framing.AllocatedTo [.temp 0, .temp 1] 1 allocated ∧
      allocated.blocks.map (fun block => block.instrs.filter Instr.isAdjustment) =
        [[.spGrow, .spRecover]] := by
  have evaluated : (Allocator.allocate ⟨[.temp 0, .temp 1], true, 2⟩ Func.framing).result.map Prod.snd =
      .ok ⟨2, 1, 0, 0⟩ := by cbv
  cases done : (Allocator.allocate ⟨[.temp 0, .temp 1], true, 2⟩ Func.framing).result with
  | error fault =>
      rw [done] at evaluated
      cases evaluated
  | ok result =>
      obtain ⟨allocated, report⟩ := result
      rw [done] at evaluated
      cases evaluated
      obtain ⟨allocatedTo, _, adjustments⟩ := Allocator.allocate_frame _ _ _ _ done
      have isFrame : allocated.frameSize = .ok 16 := by
        unfold Func.frameSize
        rw [allocatedTo.slots]
        rfl
      have kept := adjustments 16 isFrame
      refine ⟨allocated, _, rfl, allocatedTo, ?_⟩
      generalize allocated.blocks = blocks at kept
      cases kept with
      | cons here none =>
          cases none
          rw [List.map_singleton, here]
          rfl

end Lowering.Machine
