import Lowering.Proofs.Allocation.LiveRanges
import Lowering.Proofs.Allocation.Relief
import Lowering.Proofs.Allocation.Shelter

/-!
# Live ranges of spill code

Code from which registers have gone has the live sets it had, without those registers.  The registers
handed out for spill code live from a load to the instruction behind it, or from an instruction to the
store behind it, so only what is live there is beside them.
-/

namespace Lowering.Machine

/-! ## Operands that have gone -/

section Operands

variable {gone temps operands : List Reg} {base slots : Nat} {reg : Reg} {use definition : Reg → Reg}

theorem VirtualsBelow.not_physical (below : VirtualsBelow base gone) (member : reg ∈ gone) :
    reg.isPhysical = false := by
  obtain ⟨number, rfl, _⟩ := below reg member
  rfl

theorem VirtualsFrom.not_plain (fresh : VirtualsFrom base temps) (member : reg ∈ temps) :
    ¬ reg.Plain base := by
  obtain ⟨number, rfl, above⟩ := fresh reg member
  exact Nat.not_lt.mpr above

theorem VirtualsFrom.isTracked (fresh : VirtualsFrom base temps) (member : reg ∈ temps) :
    reg.isTracked = true := by
  obtain ⟨number, rfl, _⟩ := fresh reg member
  rfl

theorem VirtualsFrom.mono {more : List Reg} (fresh : VirtualsFrom base temps) (le : more ⊆ temps) :
    VirtualsFrom base more := fun reg member => fresh reg (le member)

theorem Served.mem_map {change : Reg → Reg} (served : Served gone operands change temps) :
    reg ∈ operands.map change ↔ reg ∈ operands ∧ reg ∉ gone ∨ reg ∈ temps := by
  rw [List.mem_map]
  constructor
  · rintro ⟨operand, isOperand, rfl⟩
    by_cases lost : operand ∈ gone
    · exact .inr (served.moved operand isOperand lost)
    · rw [served.kept operand isOperand lost]
      exact .inl ⟨isOperand, lost⟩
  · rintro (⟨isOperand, kept⟩ | isTemp)
    · exact ⟨reg, isOperand, served.kept reg isOperand kept⟩
    · obtain ⟨operand, isOperand, _, same⟩ := served.used reg isTemp
      exact ⟨operand, isOperand, same⟩

/-- Fixed physical registers stay where operands are replaced. -/
theorem Served.mem_all {change : Reg → Reg} (served : Served gone operands change temps)
    (lost : VirtualsBelow base gone) {fixed : List Reg} (physical : ∀ reg ∈ fixed, reg.isPhysical = true) :
    reg ∈ operands.map change ∨ reg ∈ fixed ↔
      (reg ∈ operands ∨ reg ∈ fixed) ∧ reg ∉ gone ∨ reg ∈ temps := by
  have stays (isFixed : reg ∈ fixed) : reg ∉ gone := fun member => by
    have notPhysical := lost.not_physical member
    rw [physical reg isFixed] at notPhysical
    cases notPhysical
  rw [served.mem_map]
  grind

theorem Served.mem_uses {instr : Instr} (served : Served gone instr.operandUses use temps)
    (lost : VirtualsBelow base gone) :
    reg ∈ (instr.mapOperands use definition).uses ↔ reg ∈ instr.uses ∧ reg ∉ gone ∨ reg ∈ temps := by
  obtain ⟨fixed, physical, same, members⟩ := instr.exists_fixed_uses
  rw [members, same, List.mem_append, List.mem_append, served.mem_all lost physical]

theorem Served.mem_defs {instr : Instr} (served : Served gone instr.operandDef?.toList definition temps)
    (lost : VirtualsBelow base gone) :
    reg ∈ (instr.mapOperands use definition).defs ↔ reg ∈ instr.defs ∧ reg ∉ gone ∨ reg ∈ temps := by
  obtain ⟨fixed, physical, same, members⟩ := instr.exists_fixed_defs
  rw [members, same, List.mem_append, List.mem_append, served.mem_all lost physical]

theorem Served.mem_termUses {term : Terminator} (served : Served gone term.operandUses use temps)
    (lost : VirtualsBelow base gone) :
    reg ∈ (term.mapRegs use).uses ↔ reg ∈ term.uses ∧ reg ∉ gone ∨ reg ∈ temps := by
  cases term with
  | ret =>
      have physical : ∀ reg ∈ Terminator.ret.uses, reg.isPhysical = true := by
        simp [Terminator.uses, Reg.isPhysical, Reg.arg]
      have all : reg ∈ Terminator.ret.operandUses.map use ∨ reg ∈ Terminator.ret.uses ↔ _ :=
        served.mem_all lost physical
      simpa [Terminator.operandUses, Terminator.mapRegs] using all
  | jump target => simpa [Terminator.operandUses, Terminator.mapRegs, Terminator.uses] using served.mem_map
  | branch op lhs rhs thenBlock elseBlock => exact served.mem_map

theorem plain_of_physical (physical : reg.isPhysical = true) : reg.Plain base := by
  cases reg with
  | physical phys => trivial
  | _ => cases physical

theorem Instr.Fits.plain_uses {instr : Instr} (fits : instr.Fits base slots) (used : reg ∈ instr.uses) :
    reg.Plain base := by
  obtain ⟨fixed, physical, same, _⟩ := instr.exists_fixed_uses
  rw [same, List.mem_append] at used
  exact used.elim (fits.uses reg) fun isFixed => plain_of_physical (physical reg isFixed)

theorem Instr.Fits.plain_defs {instr : Instr} (fits : instr.Fits base slots)
    (defined : reg ∈ instr.defs) : reg.Plain base := by
  obtain ⟨fixed, physical, same, _⟩ := instr.exists_fixed_defs
  rw [same, List.mem_append] at defined
  exact defined.elim (fun operand => fits.definition reg (Option.mem_toList.mp operand))
    fun isFixed => plain_of_physical (physical reg isFixed)

end Operands

/-! ## Live sets -/

section Live

variable {gone temps : List Reg} {base slots : Nat} {a b reg : Reg} {use definition : Reg → Reg}
  {live rest : RegSet} {instr : Instr} {instrs code : List Instr} {loaded stored : List (Nat × Nat)}

theorem tempRegs_cons (pair : Nat × Nat) (temps : List (Nat × Nat)) :
    tempRegs (pair :: temps) = .virtual pair.2 :: tempRegs temps := rfl

theorem mem_foldr_loadsOf : reg ∈ (loadsOf loaded).foldr Instr.liveBefore live ↔
    reg ∈ live ∧ reg ∉ tempRegs loaded := by
  induction loaded with
  | nil => simp [loadsOf, tempRegs]
  | cons pair others ih =>
      have here : reg ∈ (loadsOf (pair :: others)).foldr Instr.liveBefore live ↔
          reg ∈ (loadsOf others).foldr Instr.liveBefore live ∧ reg ≠ .virtual pair.2 := by
        change reg ∈ (Instr.load (.virtual pair.2) (.slot pair.1)).liveBefore _ ↔ _
        rw [Instr.mem_liveBefore]
        simp only [Instr.uses, Address.uses, Instr.defs, List.mem_singleton]
        refine or_iff_right ?_
        rintro ⟨rfl, tracked⟩
        cases tracked
      rw [here, ih, tempRegs_cons, List.mem_cons, not_or, and_assoc]
      exact and_congr_right fun _ => and_comm

theorem mem_foldr_storesOf : reg ∈ (Spills.storesOf stored).foldr Instr.liveBefore live ↔
    reg ∈ tempRegs stored ∨ reg ∈ live := by
  induction stored with
  | nil => simp [Spills.storesOf, tempRegs]
  | cons pair others ih =>
      have here : reg ∈ (Spills.storesOf (pair :: others)).foldr Instr.liveBefore live ↔
          reg = .virtual pair.2 ∨ reg ∈ (Spills.storesOf others).foldr Instr.liveBefore live := by
        change reg ∈ (Instr.store (.virtual pair.2) (.slot pair.1)).liveBefore _ ↔ _
        rw [Instr.mem_liveBefore]
        simp only [Instr.uses, Address.uses, Instr.defs, List.mem_cons, List.not_mem_nil, or_false,
          not_false_eq_true, and_true]
        refine or_congr_left ⟨?_, ?_⟩
        · rintro ⟨isTemp | rfl, tracked⟩
          · exact isTemp
          · cases tracked
        · rintro rfl
          exact ⟨.inl rfl, rfl⟩
      rw [here, ih, tempRegs_cons, List.mem_cons, or_assoc]

/-- A live set without the registers that have gone. -/
def Without (gone : List Reg) (live rest : RegSet) : Prop :=
  ∀ reg, reg ∈ rest ↔ reg ∈ live ∧ reg ∉ gone

/-- What is live right before an instruction whose operands have been replaced. -/
theorem Without.mem_body (without : Without gone live rest)
    (uses : Served gone instr.operandUses use (tempRegs loaded))
    (defs : Served gone instr.operandDef?.toList definition (tempRegs stored))
    (lost : VirtualsBelow base gone) (freshLoaded : VirtualsFrom base (tempRegs loaded))
    (freshStored : VirtualsFrom base (tempRegs stored)) (plain : ∀ reg ∈ live, reg.Plain base) :
    reg ∈ (instr.mapOperands use definition).liveBefore
        ((Spills.storesOf stored).foldr Instr.liveBefore rest) ↔
      reg ∈ instr.liveBefore live ∧ reg ∉ gone ∨ reg ∈ tempRegs loaded := by
  rw [Instr.mem_liveBefore, Instr.mem_liveBefore, mem_foldr_storesOf, uses.mem_uses lost,
    defs.mem_defs lost, without]
  have tracked (isTemp : reg ∈ tempRegs loaded) : reg.isTracked = true := freshLoaded.isTracked isTemp
  have other (isTemp : reg ∈ tempRegs stored) : reg ∉ live := fun isLive =>
    freshStored.not_plain isTemp (plain reg isLive)
  grind

/-- Before the code of an instruction, the same registers are live as before the instruction, without
those that have gone. -/
theorem Instr.Eased.without (eased : instr.Eased gone temps code) (without : Without gone live rest)
    (fits : instr.Fits base slots) (lost : VirtualsBelow base gone) (fresh : VirtualsFrom base temps)
    (plain : ∀ reg ∈ live, reg.Plain base) :
    Without gone (instr.liveBefore live) (code.foldr Instr.liveBefore rest) := by
  intro reg
  cases eased with
  | @body _ use definition loaded stored _ uses defs =>
      have freshLoaded := fresh.mono (List.subset_append_left (tempRegs loaded) (tempRegs stored))
      have freshStored := fresh.mono (List.subset_append_right (tempRegs loaded) (tempRegs stored))
      rw [List.foldr_append, List.foldr_cons, mem_foldr_loadsOf,
        without.mem_body uses defs lost freshLoaded freshStored plain]
      have other (isTemp : reg ∈ tempRegs loaded) : reg ∉ instr.liveBefore live := fun isLive => by
        have notPlain := freshLoaded.not_plain isTemp
        rcases Instr.mem_liveBefore.mp isLive with ⟨used, _⟩ | ⟨later, _⟩
        · exact notPlain (fits.plain_uses used)
        · exact notPlain (plain reg later)
      grind
  | @fetch dest src slot kept goes =>
      have virtual := lost.not_physical goes
      simp only [List.foldr_cons, List.foldr_nil, Instr.mem_liveBefore, Instr.uses, Instr.defs,
        Address.uses, List.mem_singleton, without reg]
      have untracked : reg = .sp → reg.isTracked = false := by rintro rfl; rfl
      grind
  | @save dest src slot goes kept =>
      simp only [List.foldr_cons, List.foldr_nil, Instr.mem_liveBefore, Instr.uses, Instr.defs,
        Address.uses, List.mem_cons, List.not_mem_nil, without reg]
      have untracked : reg = .sp → reg.isTracked = false := by rintro rfl; rfl
      grind
  | @pass dest src temp source target goes gone =>
      have notPlain := fresh.not_plain List.mem_cons_self
      have other : reg = .virtual temp → reg ∉ live := by
        rintro rfl isLive
        exact notPlain (plain _ isLive)
      have untracked : reg = .sp → reg.isTracked = false := by rintro rfl; rfl
      simp only [List.foldr_cons, List.foldr_nil, Instr.mem_liveBefore, Instr.uses, Instr.defs,
        Address.uses, List.mem_cons, List.not_mem_nil, without reg]
      grind
  | @drop same goes =>
      simp only [List.foldr_nil, Instr.mem_liveBefore, Instr.uses, Instr.defs, List.mem_singleton,
        without reg]
      grind

theorem Instr.Fits.plain_liveBefore (fits : instr.Fits base slots)
    (plain : ∀ reg ∈ live, reg.Plain base) : ∀ reg ∈ instr.liveBefore live, reg.Plain base := by
  intro reg isLive
  rcases Instr.mem_liveBefore.mp isLive with ⟨used, _⟩ | ⟨later, _⟩
  · exact fits.plain_uses used
  · exact plain reg later

theorem plain_foldr_liveBefore (fits : ∀ instr ∈ instrs, instr.Fits base slots)
    (plain : ∀ reg ∈ live, reg.Plain base) :
    ∀ reg ∈ instrs.foldr Instr.liveBefore live, reg.Plain base := by
  induction instrs with
  | nil => exact plain
  | cons instr rest ih =>
      exact (fits instr List.mem_cons_self).plain_liveBefore
        (ih fun other member => fits other (List.mem_cons_of_mem _ member))

theorem EasedCode.without (eased : EasedCode gone instrs temps code) (without : Without gone live rest)
    (fits : ∀ instr ∈ instrs, instr.Fits base slots) (lost : VirtualsBelow base gone)
    (fresh : VirtualsFrom base temps) (plain : ∀ reg ∈ live, reg.Plain base) :
    Without gone (instrs.foldr Instr.liveBefore live) (code.foldr Instr.liveBefore rest) := by
  induction eased with
  | nil => exact without
  | cons first later ih =>
      rw [List.foldr_append, List.foldr_cons]
      have fitsLater := fun instr member => fits instr (List.mem_cons_of_mem _ member)
      exact first.without
        (ih fitsLater (fresh.mono (List.subset_append_right _ _)))
        (fits _ List.mem_cons_self) lost (fresh.mono (List.subset_append_left _ _))
        (plain_foldr_liveBefore fitsLater plain)

end Live

/-! ## Edges -/

section Edges

variable {gone temps : List Reg} {base slots : Nat} {a b reg temp : Reg} {use definition : Reg → Reg}
  {live rest : RegSet} {instr : Instr} {instrs code : List Instr} {loaded stored : List (Nat × Nat)}

/-- A load joins what it loads with what is live behind the loads. -/
theorem of_joined_loadsOf (joined : Joined (loadsOf loaded) live a b) :
    a ≠ b ∧ a ∈ tempRegs loaded ∧ b ∈ live := by
  induction loaded with
  | nil => exact joined.elim
  | cons pair others ih =>
      rcases joined with ⟨different, ⟨defined, _⟩, beside⟩ | later
      · have isTemp : a = .virtual pair.2 := List.mem_singleton.mp defined
        refine ⟨different, isTemp ▸ List.mem_cons_self, ?_⟩
        rcases beside with ⟨definedToo, _⟩ | ⟨isLive, _⟩
        · exact absurd (isTemp.trans (List.mem_singleton.mp definedToo).symm) different
        · exact (mem_foldr_loadsOf.mp isLive).1
      · obtain ⟨different, isTemp, isLive⟩ := ih later
        exact ⟨different, List.mem_cons_of_mem _ isTemp, isLive⟩

theorem joined_loadsOf (isTemp : a ∈ tempRegs loaded) (isLive : b ∈ live)
    (other : b ∉ tempRegs loaded) : Joined (loadsOf loaded) live a b := by
  induction loaded with
  | nil => cases isTemp
  | cons pair others ih =>
      rw [tempRegs_cons] at isTemp other
      obtain ⟨different, other⟩ := not_or.mp (List.mem_cons.not.mp other)
      rcases List.mem_cons.mp isTemp with rfl | later
      · refine .inl ⟨Ne.symm different, ⟨List.mem_cons_self, rfl⟩, .inr ⟨?_, nofun⟩⟩
        exact mem_foldr_loadsOf.mpr ⟨isLive, other⟩
      · exact .inr (ih later other)

theorem not_joined_storesOf : ¬ Joined (Spills.storesOf stored) live a b := by
  induction stored with
  | nil => exact id
  | cons pair others ih =>
      rintro (⟨_, ⟨defined, _⟩, _⟩ | later)
      · cases defined
      · exact ih later

/-- The registers that straight code mentions. -/
def mentions (code : List Instr) : List Reg := code.flatMap fun instr => instr.uses ++ instr.defs

theorem Joined.mentioned (joined : Joined code live a b) :
    a ∈ mentions code ∧ (b ∈ mentions code ∨ b ∈ live) := by
  induction code with
  | nil => exact joined.elim
  | cons instr rest ih =>
      have later {reg : Reg} (member : reg ∈ mentions rest) : reg ∈ mentions (instr :: rest) :=
        List.mem_append_right _ member
      have here {reg : Reg} (defined : reg ∈ instr.defs) : reg ∈ mentions (instr :: rest) :=
        List.mem_append_left _ (List.mem_append_right _ defined)
      rcases joined with ⟨_, ⟨defined, _⟩, ⟨definedToo, _⟩ | ⟨isLive, _⟩⟩ | joined
      · exact ⟨here defined, .inl (here definedToo)⟩
      · exact ⟨here defined,
          (Func.mentioned_of_mem_foldr isLive).imp_left fun needed => later needed.1⟩
      · obtain ⟨isMentioned, other⟩ := ih joined
        exact ⟨later isMentioned, other.imp_left later⟩

/-- Code of an instruction mentions registers handed out for it and what is left of the
instruction. -/
theorem Instr.Eased.mentioned (eased : instr.Eased gone temps code) (lost : VirtualsBelow base gone)
    (member : reg ∈ mentions code) :
    reg ∈ temps ∨ reg.isPhysical = true ∨ reg ∈ instr.uses ++ instr.defs ∧ reg ∉ gone := by
  cases eased with
  | @body _ use definition loaded stored _ uses defs =>
      unfold mentions at member
      rw [List.flatMap_append, List.flatMap_cons] at member
      simp only [List.mem_append, List.mem_flatMap, loadsOf, Spills.storesOf, List.mem_map] at member
      rcases member with ⟨_, ⟨pair, isPair, rfl⟩, isReg⟩ | isReg | ⟨_, ⟨pair, isPair, rfl⟩, isReg⟩
      · simp only [Instr.uses, Address.uses, Instr.defs, List.mem_singleton] at isReg
        rcases isReg with rfl | rfl
        · exact .inr (.inl rfl)
        · exact .inl (List.mem_append_left _ (List.mem_map_of_mem isPair))
      · rw [uses.mem_uses lost, defs.mem_defs lost] at isReg
        rw [List.mem_append, List.mem_append]
        grind
      · simp only [Instr.uses, Address.uses, Instr.defs, List.mem_cons, List.not_mem_nil,
          or_false] at isReg
        rcases isReg with rfl | rfl
        · exact .inl (List.mem_append_right _ (List.mem_map_of_mem isPair))
        · exact .inr (.inl rfl)
  | @fetch dest src slot kept goes =>
      simp only [mentions, List.flatMap_cons, List.flatMap_nil, Instr.uses, Address.uses, Instr.defs,
        List.mem_append, List.mem_singleton, List.not_mem_nil, or_false] at member
      rcases member with rfl | rfl
      · exact .inr (.inl rfl)
      · exact .inr (.inr ⟨by simp [Instr.uses, Instr.defs], kept⟩)
  | @save dest src slot goes kept =>
      simp only [mentions, List.flatMap_cons, List.flatMap_nil, Instr.uses, Address.uses, Instr.defs,
        List.mem_append, List.mem_cons, List.not_mem_nil, or_false] at member
      rcases member with rfl | rfl
      · exact .inr (.inr ⟨by simp [Instr.uses, Instr.defs], kept⟩)
      · exact .inr (.inl rfl)
  | @pass dest src temp source target goes lost =>
      simp only [mentions, List.flatMap_cons, List.flatMap_nil, Instr.uses, Address.uses, Instr.defs,
        List.mem_append, List.mem_cons, List.not_mem_nil, or_false] at member
      rcases member with (rfl | rfl) | rfl | rfl
      · exact .inr (.inl rfl)
      · exact .inl List.mem_cons_self
      · exact .inl List.mem_cons_self
      · exact .inr (.inl rfl)
  | drop goes => cases member

theorem EasedCode.mentioned (eased : EasedCode gone instrs temps code) (lost : VirtualsBelow base gone)
    (member : reg ∈ mentions code) :
    reg ∈ temps ∨ reg.isPhysical = true ∨ reg ∈ mentions instrs ∧ reg ∉ gone := by
  induction eased with
  | nil => cases member
  | cons first later ih =>
      unfold mentions at member
      rw [List.flatMap_append] at member
      rcases List.mem_append.mp member with here | there
      · rcases first.mentioned lost here with isTemp | physical | ⟨old, kept⟩
        · exact .inl (List.mem_append_left _ isTemp)
        · exact .inr (.inl physical)
        · exact .inr (.inr ⟨List.mem_append_left _ old, kept⟩)
      · rcases ih there with isTemp | physical | ⟨old, kept⟩
        · exact .inl (List.mem_append_right _ isTemp)
        · exact .inr (.inl physical)
        · exact .inr (.inr ⟨List.mem_append_right _ old, kept⟩)

/-- Code mentions no registers handed out for other code. -/
theorem EasedCode.not_mentioned (eased : EasedCode gone instrs temps code)
    (fits : ∀ instr ∈ instrs, instr.Fits base slots) (lost : VirtualsBelow base gone)
    (notPlain : ¬ temp.Plain base) (notTemp : temp ∉ temps) : temp ∉ mentions code := by
  intro member
  rcases eased.mentioned lost member with isTemp | physical | ⟨old, _⟩
  · exact notTemp isTemp
  · exact notPlain (plain_of_physical physical)
  · obtain ⟨instr, isInstr, isOld⟩ := List.mem_flatMap.mp old
    exact notPlain ((List.mem_append.mp isOld).elim (fits instr isInstr).plain_uses
      (fits instr isInstr).plain_defs)

theorem not_joined_of_not_mentioned (notMentioned : temp ∉ mentions code) (notLive : temp ∉ live)
    (other : Reg) : ¬ (Joined code live temp other ∨ Joined code live other temp) := by
  rintro (joined | joined)
  · exact notMentioned joined.mentioned.1
  · exact joined.mentioned.2.elim notMentioned notLive

theorem Instr.Eased.joined (eased : instr.Eased gone temps code) (without : Without gone live rest)
    (lost : VirtualsBelow base gone) (fresh : VirtualsFrom base temps)
    (plain : ∀ reg ∈ live, reg.Plain base) (joins : instr.Joins live a b) (keptA : a ∉ gone)
    (keptB : b ∉ gone) : Joined code rest a b := by
  obtain ⟨different, ⟨defined, tracked⟩, beside⟩ := joins
  cases eased with
  | @body _ use definition loaded stored _ uses defs =>
      refine joined_append.mpr (.inr (.inl ⟨different, ⟨?_, tracked⟩, ?_⟩))
      · exact (defs.mem_defs lost).mpr (.inl ⟨defined, keptA⟩)
      · refine beside.imp (.imp_left fun isDefined => (defs.mem_defs lost).mpr (.inl ⟨isDefined, keptB⟩))
          fun ⟨isLive, notCopied⟩ => ⟨mem_foldr_storesOf.mpr (.inr ((without b).mpr ⟨isLive, keptB⟩)), ?_⟩
        rw [Instr.isMove_mapOperands, uses.mem_uses lost]
        rintro ⟨isMove, ⟨isUsed, _⟩ | isTemp⟩
        · exact notCopied ⟨isMove, isUsed⟩
        · exact fresh.not_plain (List.mem_append_left _ isTemp) (plain b isLive)
  | @fetch dest src slot kept goes =>
      have isDest : a = dest := List.mem_singleton.mp defined
      refine .inl ⟨different, ⟨List.mem_singleton.mpr isDest, tracked⟩, .inr ⟨?_, nofun⟩⟩
      rcases beside with ⟨definedToo, _⟩ | ⟨isLive, _⟩
      · exact absurd (isDest.trans (List.mem_singleton.mp definedToo).symm) different
      · exact (without b).mpr ⟨isLive, keptB⟩
  | save goes _ => exact absurd (List.mem_singleton.mp defined ▸ goes) keptA
  | pass goes _ => exact absurd (List.mem_singleton.mp defined ▸ goes) keptA
  | drop goes => exact absurd (List.mem_singleton.mp defined ▸ goes) keptA

theorem EasedCode.joined (eased : EasedCode gone instrs temps code) (without : Without gone live rest)
    (fits : ∀ instr ∈ instrs, instr.Fits base slots) (lost : VirtualsBelow base gone)
    (fresh : VirtualsFrom base temps) (plain : ∀ reg ∈ live, reg.Plain base)
    (joined : Joined instrs live a b) (keptA : a ∉ gone) (keptB : b ∉ gone) : Joined code rest a b := by
  induction eased with
  | nil => exact joined
  | cons first later ih =>
      have fitsLater := fun instr member => fits instr (List.mem_cons_of_mem _ member)
      have freshLater := fresh.mono (List.subset_append_right _ _)
      rw [joined_append]
      rcases joined with here | there
      · exact .inl (first.joined (later.without without fitsLater lost freshLater plain) lost
          (fresh.mono (List.subset_append_left _ _)) (plain_foldr_liveBefore fitsLater plain) here keptA
          keptB)
      · exact .inr (ih fitsLater freshLater there)

end Edges

/-! ## Homes -/

/-- The numbers of the virtual registers among some registers, each once. -/
def virtualsOf (regs : List Reg) : List Nat := (regs.filterMap Reg.virtual?).dedup

/-- How many registers of a pool are live. -/
def occupied (pool : List PhysReg) (live : RegSet) : Nat :=
  (pool.filter fun phys => live.contains (.physical phys)).length

/-- A live set with room in the pool for some more registers.  Its registers interfere, except that
physical ones may stand beside each other. -/
structure Hosts (graph : InterferenceGraph) (pool : List PhysReg) (live : RegSet) (count : Nat) :
    Prop where
  room : occupied pool live + count ≤ pool.length
  together : ∀ a ∈ live, ∀ b ∈ live, a.isPhysical = false → a ≠ b → graph.hasEdge a b = true

theorem Hosts.mono {graph : InterferenceGraph} {pool : List PhysReg} {live : RegSet}
    {count fewer : Nat} (hosts : Hosts graph pool live count) (le : fewer ≤ count) :
    Hosts graph pool live fewer :=
  ⟨(Nat.add_le_add_left le _).trans hosts.room, hosts.together⟩

/-- The surroundings of a register handed out for spill code: a live set of the code that is eased, and
registers handed out for the same instruction. -/
structure Home (graph : InterferenceGraph) (pool : List PhysReg) (base : Nat) (gone temps : List Reg)
    (code : List Instr) (rest : RegSet) (temp : Reg) (host : RegSet) (mates : List Reg) : Prop where
  hosts : Hosts graph pool host mates.length
  plain : ∀ reg ∈ host, reg.Plain base
  handed : mates ⊆ temps
  member : temp ∈ mates
  near : ∀ other, Joined code rest temp other ∨ Joined code rest other temp →
    other ∈ host ∧ other ∉ gone ∨ other ∈ mates
  joined : ∀ mate ∈ mates, ∀ other ∈ host, other ∉ gone → Joined code rest mate other

section Homes

variable {graph : InterferenceGraph} {pool : List PhysReg} {gone temps mates : List Reg}
  {base slots : Nat} {a b reg temp : Reg} {live rest host : RegSet} {instr : Instr}
  {instrs code : List Instr}

/-- More code around it changes nothing about a home, unless it joins the register with others. -/
theorem Home.extend (home : Home graph pool base gone temps code rest temp host mates)
    {more : List Reg} {longer : List Instr} {behind : RegSet} (le : temps ⊆ more)
    (keeps : ∀ a b, Joined code rest a b → Joined longer behind a b)
    (same : ∀ other, Joined longer behind temp other ∨ Joined longer behind other temp →
      Joined code rest temp other ∨ Joined code rest other temp) :
    Home graph pool base gone more longer behind temp host mates where
  hosts := home.hosts
  plain := home.plain
  handed := List.Subset.trans home.handed le
  member := home.member
  near other joined := home.near other (same other joined)
  joined mate isMate other isLive kept := keeps _ _ (home.joined mate isMate other isLive kept)

theorem Served.length_le {operands : List Reg} {change : Reg → Reg}
    (served : Served gone operands change temps) (nodup : temps.Nodup)
    (lost : VirtualsBelow base gone) : temps.length ≤ (virtualsOf operands).length := by
  have listed : temps ⊆ (virtualsOf operands).map (change ∘ Reg.virtual) := by
    intro temp isTemp
    obtain ⟨reg, isOperand, isGone, rfl⟩ := served.used temp isTemp
    obtain ⟨number, rfl, _⟩ := lost reg isGone
    refine List.mem_map.mpr ⟨number, List.mem_dedup.mpr (List.mem_filterMap.mpr ⟨_, isOperand, rfl⟩), rfl⟩
  have shorter := (nodup.subperm listed).length_le
  rwa [List.length_map] at shorter

/-- The registers that are loaded for an instruction or a terminator are at home before it. -/
theorem Home.loads {loaded : List (Nat × Nat)}
    (hosts : Hosts graph pool host (tempRegs loaded).length) (plain : ∀ reg ∈ host, reg.Plain base)
    (fresh : VirtualsFrom base (tempRegs loaded))
    (before : ∀ reg, reg ∈ live ↔ reg ∈ host ∧ reg ∉ gone ∨ reg ∈ tempRegs loaded)
    (isTemp : temp ∈ tempRegs loaded) :
    Home graph pool base gone (tempRegs loaded) (loadsOf loaded) live temp host (tempRegs loaded) where
  hosts := hosts
  plain := plain
  handed := List.Subset.refl _
  member := isTemp
  near other joined := by
    rcases joined with joined | joined
    · exact (before other).mp (of_joined_loadsOf joined).2.2
    · exact .inr (of_joined_loadsOf joined).2.1
  joined mate isMate other isLive kept :=
    joined_loadsOf isMate ((before other).mpr (.inl ⟨isLive, kept⟩)) fun isTemp =>
      fresh.not_plain isTemp (plain other isLive)

theorem Instr.defs_of_operandDef? (operand : instr.operandDef? = some reg) : instr.defs = [reg] := by
  cases instr <;> cases operand <;> rfl

section Body

variable {use definition : Reg → Reg} {loaded stored : List (Nat × Nat)}
  (uses : Served gone instr.operandUses use (tempRegs loaded))
  (defs : Served gone instr.operandDef?.toList definition (tempRegs stored))
  (without : Without gone live rest) (fits : instr.Fits base slots) (lost : VirtualsBelow base gone)
  (fresh : VirtualsFrom base (tempRegs loaded ++ tempRegs stored))
  (nodup : (tempRegs loaded ++ tempRegs stored).Nodup) (plain : ∀ reg ∈ live, reg.Plain base)

include uses defs without fits lost fresh nodup plain

theorem home_of_loaded
    (hosts : Hosts graph pool (instr.liveBefore live) (virtualsOf instr.operandUses).length)
    (isLoaded : temp ∈ tempRegs loaded) :
    Home graph pool base gone (tempRegs loaded ++ tempRegs stored)
      (loadsOf loaded ++ instr.mapOperands use definition :: Spills.storesOf stored) rest temp
      (instr.liveBefore live) (tempRegs loaded) := by
  have freshLoaded := fresh.mono (List.subset_append_left _ _)
  have apart := List.disjoint_of_nodup_append nodup
  have notPlain := freshLoaded.not_plain isLoaded
  have notDefined : temp ∉ (instr.mapOperands use definition).defs := by
    rw [defs.mem_defs lost]
    rintro (⟨defined, _⟩ | isStored)
    · exact notPlain (fits.plain_defs defined)
    · exact apart isLoaded isStored
  have notLive : temp ∉ (Spills.storesOf stored).foldr Instr.liveBefore rest := by
    rw [mem_foldr_storesOf]
    rintro (isStored | isLive)
    · exact apart isLoaded isStored
    · exact notPlain (plain temp ((without temp).mp isLive).1)
  have home := Home.loads (hosts.mono (uses.length_le nodup.of_append_left lost))
    (fits.plain_liveBefore plain) freshLoaded (fun reg => without.mem_body uses defs lost freshLoaded
      (fresh.mono (List.subset_append_right _ _)) plain) isLoaded
  refine home.extend (List.subset_append_left _ _)
    (fun _ _ joined => joined_append.mpr (.inl joined)) fun other joined => ?_
  -- the register is dead behind the instruction, and neither it nor a store defines it
  rw [joined_append, joined_append] at joined
  rcases joined with (here | ⟨_, ⟨defined, _⟩, _⟩ | later) |
    here | ⟨_, _, ⟨defined, _⟩ | ⟨isLive, _⟩⟩ | later
  · exact .inl here
  · exact absurd defined notDefined
  · exact absurd later not_joined_storesOf
  · exact .inr here
  · exact absurd defined notDefined
  · exact absurd isLive notLive
  · exact absurd later not_joined_storesOf

theorem home_of_stored
    (still : instr.isMove = true → ∀ reg ∈ instr.operandUses ++ instr.operandDef?.toList, reg ∉ gone)
    (hosts : ∀ number, instr.operandDef? = some (.virtual number) → Hosts graph pool live 1)
    (isStored : temp ∈ tempRegs stored) :
    Home graph pool base gone (tempRegs loaded ++ tempRegs stored)
      (loadsOf loaded ++ instr.mapOperands use definition :: Spills.storesOf stored) rest temp
      live [temp] := by
  have freshStored := fresh.mono (List.subset_append_right _ _)
  have notPlain := freshStored.not_plain isStored
  have notLoaded : temp ∉ tempRegs loaded := fun isLoaded =>
    List.disjoint_of_nodup_append nodup isLoaded isStored
  obtain ⟨reg, isOperand, isGone, isDefined⟩ := defs.used temp isStored
  obtain ⟨number, rfl, _⟩ := lost reg isGone
  have operand := Option.mem_toList.mp isOperand
  have only {other : Reg} (defined : other ∈ (instr.mapOperands use definition).defs) :
      other = temp := by
    rcases (defs.mem_defs lost).mp defined with ⟨old, kept⟩ | isStored
    · rw [instr.defs_of_operandDef? operand, List.mem_singleton] at old
      exact absurd (old ▸ isGone) kept
    · obtain ⟨same, isSame, _, rfl⟩ := defs.used other isStored
      have equal := Option.some.inj (operand.symm.trans (Option.mem_toList.mp isSame))
      rw [← equal, isDefined]
  refine ⟨hosts number operand, plain, ?_, List.mem_singleton.mpr rfl, fun other joined => ?_, ?_⟩
  · exact List.cons_subset.mpr ⟨List.mem_append_right _ isStored, List.nil_subset _⟩
  · rw [joined_append, joined_append] at joined
    rcases joined with (here | ⟨different, _, ⟨defined, _⟩ | ⟨isLive, _⟩⟩ | later) |
      here | ⟨different, ⟨defined, _⟩, _⟩ | later
    · exact absurd (of_joined_loadsOf here).2.1 notLoaded
    · exact absurd (only defined).symm different
    · rcases mem_foldr_storesOf.mp isLive with isStored | isLive
      · exact .inr (List.mem_singleton.mpr (only ((defs.mem_defs lost).mpr (.inr isStored))))
      · exact .inl ((without other).mp isLive)
    · exact absurd later not_joined_storesOf
    · have before := (without.mem_body uses defs lost (fresh.mono (List.subset_append_left _ _))
        freshStored plain).mp (of_joined_loadsOf here).2.2
      rcases before with ⟨isLive, _⟩ | isLoaded
      · exact absurd (fits.plain_liveBefore plain temp isLive) notPlain
      · exact absurd isLoaded notLoaded
    · exact absurd (only defined) different
    · exact absurd later not_joined_storesOf
  · intro mate isMate other isLive kept
    rw [List.mem_singleton.mp isMate]
    refine joined_append.mpr (.inr (.inl ⟨?_, ⟨?_, freshStored.isTracked isStored⟩, .inr ⟨?_, ?_⟩⟩))
    · rintro rfl
      exact notPlain (plain _ isLive)
    · exact (defs.mem_defs lost).mpr (.inr isStored)
    · exact mem_foldr_storesOf.mpr (.inr ((without other).mpr ⟨isLive, kept⟩))
    · rw [Instr.isMove_mapOperands]
      exact fun copied => still copied.1 _ (List.mem_append_right _ isOperand) isGone

end Body

/-- Every register handed out for an instruction has a home before or behind it. -/
theorem Instr.Eased.home (eased : instr.Eased gone temps code) (without : Without gone live rest)
    (fits : instr.Fits base slots) (lost : VirtualsBelow base gone) (fresh : VirtualsFrom base temps)
    (nodup : temps.Nodup) (plain : ∀ reg ∈ live, reg.Plain base)
    (before : Hosts graph pool (instr.liveBefore live) (virtualsOf instr.operandUses).length)
    (after : ∀ number, instr.operandDef? = some (.virtual number) → Hosts graph pool live 1)
    (isTemp : temp ∈ temps) :
    ∃ host mates, Home graph pool base gone temps code rest temp host mates := by
  cases eased with
  | body still uses defs =>
      rcases List.mem_append.mp isTemp with isLoaded | isStored
      · exact ⟨_, _, home_of_loaded uses defs without fits lost fresh nodup plain before isLoaded⟩
      · exact ⟨_, _, home_of_stored uses defs without fits lost fresh nodup plain still after isStored⟩
  | fetch => cases isTemp
  | save => cases isTemp
  | @pass dest src number source target goes _ =>
      obtain ⟨old, rfl, _⟩ := lost dest goes
      have home : Home graph pool base gone (tempRegs [(source, number)]) (loadsOf [(source, number)])
          ((Spills.storesOf [(target, number)]).foldr Instr.liveBefore rest) temp live
          (tempRegs [(source, number)]) :=
        .loads (after old rfl) plain fresh (fun reg => by
          rw [mem_foldr_storesOf, without reg, or_comm]
          rfl) isTemp
      have only {a b : Reg} (joined : Joined (loadsOf [(source, number)] ++
          Spills.storesOf [(target, number)]) rest a b) : Joined (loadsOf [(source, number)])
          ((Spills.storesOf [(target, number)]).foldr Instr.liveBefore rest) a b :=
        (joined_append.mp joined).resolve_right not_joined_storesOf
      exact ⟨_, _, home.extend (List.Subset.refl _)
        (fun _ _ joined => joined_append.mpr (.inl joined)) fun other joined => joined.imp only only⟩
  | drop => cases isTemp

theorem EasedCode.home (eased : EasedCode gone instrs temps code) (without : Without gone live rest)
    (fits : ∀ instr ∈ instrs, instr.Fits base slots) (lost : VirtualsBelow base gone)
    (fresh : VirtualsFrom base temps) (nodup : temps.Nodup) (plain : ∀ reg ∈ live, reg.Plain base)
    (before : ∀ earlier instr later, instrs = earlier ++ instr :: later →
      Hosts graph pool ((instr :: later).foldr Instr.liveBefore live)
        (virtualsOf instr.operandUses).length)
    (after : ∀ earlier instr later, instrs = earlier ++ instr :: later →
      ∀ number, instr.operandDef? = some (.virtual number) →
        Hosts graph pool (later.foldr Instr.liveBefore live) 1)
    (isTemp : temp ∈ temps) :
    ∃ host mates, Home graph pool base gone temps code rest temp host mates := by
  induction eased with
  | nil => cases isTemp
  | @cons instr others temps laterTemps piece code first later ih =>
      have fitsLater := fun instr member => fits instr (List.mem_cons_of_mem _ member)
      have freshFirst := fresh.mono (List.subset_append_left temps laterTemps)
      have freshLater := fresh.mono (List.subset_append_right temps laterTemps)
      have apart := List.disjoint_of_nodup_append nodup
      have withoutLater := later.without without fitsLater lost freshLater plain
      have plainLater := plain_foldr_liveBefore fitsLater plain
      have single : EasedCode gone [instr] (temps ++ []) (piece ++ []) := .cons first .nil
      rw [List.append_nil, List.append_nil] at single
      have notPlain := fresh.not_plain isTemp
      rcases List.mem_append.mp isTemp with here | there
      · obtain ⟨host, mates, home⟩ := first.home withoutLater (fits _ List.mem_cons_self) lost freshFirst
          nodup.of_append_left plainLater (before [] instr others rfl) (after [] instr others rfl) here
        refine ⟨host, mates, home.extend (List.subset_append_left _ _)
          (fun _ _ joined => joined_append.mpr (.inl joined)) fun other joined => ?_⟩
        have notLive : temp ∉ rest := fun isLive => notPlain (plain temp ((without temp).mp isLive).1)
        rw [joined_append, joined_append, or_or_or_comm] at joined
        exact joined.resolve_right (not_joined_of_not_mentioned
          (later.not_mentioned fitsLater lost notPlain (apart here)) notLive other)
      · obtain ⟨host, mates, home⟩ := ih fitsLater freshLater nodup.of_append_right
          (fun earlier other behind split => before (instr :: earlier) other behind (by rw [split]; rfl))
          (fun earlier other behind split => after (instr :: earlier) other behind (by rw [split]; rfl))
          there
        refine ⟨host, mates, home.extend (List.subset_append_right _ _)
          (fun _ _ joined => joined_append.mpr (.inr joined)) fun other joined => ?_⟩
        have notLive : temp ∉ code.foldr Instr.liveBefore rest := fun isLive =>
          notPlain (plainLater temp ((withoutLater temp).mp isLive).1)
        rw [joined_append, joined_append, or_or_or_comm] at joined
        exact joined.resolve_left (not_joined_of_not_mentioned
          (single.not_mentioned (List.forall_mem_singleton.mpr (fits _ List.mem_cons_self)) lost notPlain
            fun isHere => apart isHere there) notLive other)

end Homes

/-! ## Blocks -/

section Blocks

variable {graph : InterferenceGraph} {pool : List PhysReg} {gone temps : List Reg} {base slots : Nat}
  {a b reg temp : Reg} {block relieved : Block} {liveOut restOut : RegSet}

theorem Block.Fits.plain_termUses (fits : block.Fits base slots) (used : reg ∈ block.term.uses) :
    reg.Plain base := by
  rcases block with ⟨label, instrs, term⟩
  cases term with
  | branch op lhs rhs thenBlock elseBlock => exact fits.term reg used
  | jump target => cases used
  | ret =>
      refine plain_of_physical ?_
      rcases List.mem_cons.mp used with rfl | used
      · rfl
      · rw [List.mem_singleton.mp used]
        rfl

theorem Block.Fits.plain_liveEnd (fits : block.Fits base slots)
    (plain : ∀ reg ∈ liveOut, reg.Plain base) : ∀ reg ∈ block.liveEnd liveOut, reg.Plain base :=
  fun reg isLive => (RegSet.mem_addTracked.mp isLive).elim (fun used => fits.plain_termUses used.1)
    (plain reg)

theorem Without.mem_end {term : Terminator} {use : Reg → Reg} {loaded : List (Nat × Nat)}
    (without : Without gone liveOut restOut)
    (served : Served gone term.operandUses use (tempRegs loaded)) (lost : VirtualsBelow base gone)
    (fresh : VirtualsFrom base (tempRegs loaded)) :
    reg ∈ RegSet.addTracked restOut (term.mapRegs use).uses ↔
      reg ∈ RegSet.addTracked liveOut term.uses ∧ reg ∉ gone ∨ reg ∈ tempRegs loaded := by
  rw [RegSet.mem_addTracked, RegSet.mem_addTracked, served.mem_termUses lost, without]
  have tracked (isTemp : reg ∈ tempRegs loaded) : reg.isTracked = true := fresh.isTracked isTemp
  grind

theorem Without.loads {live host : RegSet} {loaded : List (Nat × Nat)}
    (before : ∀ reg, reg ∈ live ↔ reg ∈ host ∧ reg ∉ gone ∨ reg ∈ tempRegs loaded)
    (plain : ∀ reg ∈ host, reg.Plain base) (fresh : VirtualsFrom base (tempRegs loaded)) :
    Without gone host ((loadsOf loaded).foldr Instr.liveBefore live) := by
  intro reg
  rw [mem_foldr_loadsOf, before]
  have other (isTemp : reg ∈ tempRegs loaded) : reg ∉ host := fun isLive =>
    fresh.not_plain isTemp (plain reg isLive)
  grind

namespace Block.Eased

variable (eased : block.Eased gone temps relieved) (without : Without gone liveOut restOut)
  (fits : block.Fits base slots) (lost : VirtualsBelow base gone) (fresh : VirtualsFrom base temps)
  (plain : ∀ reg ∈ liveOut, reg.Plain base)

theorem targets : block.Eased gone temps relieved → relieved.term.targets = block.term.targets := by
  rintro ⟨_, _⟩
  rename_i term _ _ _ _ _
  cases term <;> rfl

include eased without fits lost fresh plain

/-- What is live at the top of a block is what was live there, without the registers that have gone. -/
theorem without_transfer : Without gone (block.transfer liveOut) (relieved.transfer restOut) := by
  cases eased with
  | mk code served =>
      have freshLoads := fresh.mono (List.subset_append_right _ _)
      have plainEnd := fits.plain_liveEnd plain
      have behind := Without.loads (fun reg => without.mem_end served lost freshLoads) plainEnd freshLoads
      unfold Block.transfer
      rw [List.foldr_append]
      exact code.without behind fits.instrs lost (fresh.mono (List.subset_append_left _ _)) plainEnd

theorem joined (isJoined : Joined block.instrs (block.liveEnd liveOut) a b) (keptA : a ∉ gone)
    (keptB : b ∉ gone) : Joined relieved.instrs (relieved.liveEnd restOut) a b := by
  cases eased with
  | mk code served =>
      have freshLoads := fresh.mono (List.subset_append_right _ _)
      have plainEnd := fits.plain_liveEnd plain
      have behind := Without.loads (fun reg => without.mem_end served lost freshLoads) plainEnd freshLoads
      exact joined_append.mpr (.inl (code.joined behind fits.instrs lost
        (fresh.mono (List.subset_append_left _ _)) plainEnd isJoined keptA keptB))

/-- Every register handed out for a block has a home in it. -/
theorem home (nodup : temps.Nodup)
    (before : ∀ earlier instr later, block.instrs = earlier ++ instr :: later →
      Hosts graph pool ((instr :: later).foldr Instr.liveBefore (block.liveEnd liveOut))
        (virtualsOf instr.operandUses).length)
    (after : ∀ earlier instr later, block.instrs = earlier ++ instr :: later →
      ∀ number, instr.operandDef? = some (.virtual number) →
        Hosts graph pool (later.foldr Instr.liveBefore (block.liveEnd liveOut)) 1)
    (last : Hosts graph pool (block.liveEnd liveOut) (virtualsOf block.term.operandUses).length)
    (isTemp : temp ∈ temps) :
    ∃ host mates, Home graph pool base gone temps relieved.instrs (relieved.liveEnd restOut) temp host
      mates := by
  have notPlain := fresh.not_plain isTemp
  cases eased with
  | @mk label instrs code term use codeTemps loaded easedCode served =>
      have freshCode := fresh.mono (List.subset_append_left codeTemps (tempRegs loaded))
      have freshLoads := fresh.mono (List.subset_append_right codeTemps (tempRegs loaded))
      have apart := List.disjoint_of_nodup_append nodup
      have plainEnd := fits.plain_liveEnd plain
      have ends (reg : Reg) : reg ∈ RegSet.addTracked restOut (term.mapRegs use).uses ↔ _ :=
        without.mem_end served lost freshLoads
      have behind := Without.loads ends plainEnd freshLoads
      rcases List.mem_append.mp isTemp with here | there
      · obtain ⟨host, mates, home⟩ := easedCode.home behind fits.instrs lost freshCode
          nodup.of_append_left plainEnd before after here
        refine ⟨host, mates, home.extend (List.subset_append_left _ _)
          (fun _ _ joined => joined_append.mpr (.inl joined)) fun other joined => ?_⟩
        change Joined (code ++ loadsOf loaded) _ _ _ ∨ Joined (code ++ loadsOf loaded) _ _ _ at joined
        rw [joined_append, joined_append] at joined
        rcases joined with (inCode | inLoads) | inCode | inLoads
        · exact .inl inCode
        · exact absurd (of_joined_loadsOf inLoads).2.1 (apart here)
        · exact .inr inCode
        · rcases (ends temp).mp (of_joined_loadsOf inLoads).2.2 with ⟨isLive, _⟩ | isLoaded
          · exact absurd (plainEnd temp isLive) notPlain
          · exact absurd isLoaded (apart here)
      · have home := Home.loads (last.mono (served.length_le nodup.of_append_right lost)) plainEnd
          freshLoads ends there
        refine ⟨_, _, home.extend (List.subset_append_right _ _)
          (fun _ _ joined => joined_append.mpr (.inr joined)) fun other joined => ?_⟩
        have notLive : temp ∉ (loadsOf loaded).foldr Instr.liveBefore
            (RegSet.addTracked restOut (term.mapRegs use).uses) := fun isLive =>
          notPlain (plainEnd temp ((behind temp).mp isLive).1)
        change Joined (code ++ loadsOf loaded) _ _ _ ∨ Joined (code ++ loadsOf loaded) _ _ _ at joined
        rw [joined_append, joined_append, or_or_or_comm] at joined
        exact joined.resolve_left (not_joined_of_not_mentioned (easedCode.not_mentioned fits.instrs lost
          notPlain fun inCode => apart inCode there) notLive other)

end Block.Eased

theorem Block.Eased.mentioned (eased : block.Eased gone temps relieved) (lost : VirtualsBelow base gone)
    (member : reg ∈ relieved.regs) :
    reg ∈ temps ∨ reg.isPhysical = true ∨ reg ∈ block.regs ∧ reg ∉ gone := by
  cases eased with
  | @mk label instrs code term use codeTemps loaded easedCode served =>
      change reg ∈ mentions (code ++ loadsOf loaded) ++ _ at member
      unfold mentions at member
      rw [List.flatMap_append] at member
      rcases List.mem_append.mp member with inInstrs | used
      · rcases List.mem_append.mp inInstrs with inCode | inLoads
        · rcases easedCode.mentioned lost inCode with isTemp | physical | ⟨old, kept⟩
          · exact .inl (List.mem_append_left _ isTemp)
          · exact .inr (.inl physical)
          · exact .inr (.inr ⟨List.mem_append_left _ old, kept⟩)
        · simp only [List.mem_flatMap, loadsOf, List.mem_map] at inLoads
          obtain ⟨_, ⟨pair, isPair, rfl⟩, isReg⟩ := inLoads
          simp only [Instr.uses, Address.uses, Instr.defs, List.mem_append,
            List.mem_singleton] at isReg
          rcases isReg with rfl | rfl
          · exact .inr (.inl rfl)
          · exact .inl (List.mem_append_right _ (List.mem_map_of_mem isPair))
      · rcases (served.mem_termUses lost).mp used with ⟨old, kept⟩ | isTemp
        · exact .inr (.inr ⟨List.mem_append_right _ old, kept⟩)
        · exact .inl (List.mem_append_right _ isTemp)

end Blocks

end Lowering.Machine
