import Lowering.Proofs.Allocation.SpillSteps

/-!
# Code relieved of registers

Round after round, registers are moved into slots.  What becomes of an instruction does not depend on
the order: operands that have gone are loaded into registers of their own before it and stored behind
it, and a copy from or to a register that has gone is a load or a store.
-/

namespace Lowering.Machine

/-- Virtual registers handed out before a counter stood at a bound. -/
def VirtualsBelow (bound : Nat) (regs : List Reg) : Prop :=
  ∀ reg ∈ regs, ∃ number, reg = .virtual number ∧ number < bound

/-- Virtual registers handed out since a counter stood at a bound. -/
def VirtualsFrom (bound : Nat) (regs : List Reg) : Prop :=
  ∀ reg ∈ regs, ∃ number, reg = .virtual number ∧ bound ≤ number

/-- Registers handed out stand in for the operands that have gone. -/
structure Served (gone operands : List Reg) (change : Reg → Reg) (temps : List Reg) : Prop where
  kept : ∀ reg ∈ operands, reg ∉ gone → change reg = reg
  moved : ∀ reg ∈ operands, reg ∈ gone → change reg ∈ temps
  used : ∀ temp ∈ temps, ∃ reg ∈ operands, reg ∈ gone ∧ change reg = temp

/-- What becomes of an instruction once some registers have gone, with the registers handed out. -/
inductive Instr.Eased (gone : List Reg) : Instr → List Reg → List Instr → Prop where
  | body {instr : Instr} {use definition : Reg → Reg} {loaded stored : List (Nat × Nat)} :
      (instr.isMove = true → ∀ reg ∈ instr.operandUses ++ instr.operandDef?.toList, reg ∉ gone) →
      Served gone instr.operandUses use (tempRegs loaded) →
      Served gone instr.operandDef?.toList definition (tempRegs stored) →
      Eased gone instr (tempRegs loaded ++ tempRegs stored)
        (loadsOf loaded ++ instr.mapOperands use definition :: Spills.storesOf stored)
  | fetch {dest src : Reg} {slot : Nat} : dest ∉ gone → src ∈ gone →
      Eased gone (.move dest src) [] [.load dest (.slot slot)]
  | save {dest src : Reg} {slot : Nat} : dest ∈ gone → src ∉ gone →
      Eased gone (.move dest src) [] [.store src (.slot slot)]
  | pass {dest src : Reg} {temp source target : Nat} : dest ∈ gone → src ∈ gone →
      Eased gone (.move dest src) [.virtual temp]
        [.load (.virtual temp) (.slot source), .store (.virtual temp) (.slot target)]
  | drop {reg : Reg} : reg ∈ gone → Eased gone (.move reg reg) [] []

theorem Served.none {gone operands : List Reg} (kept : ∀ reg ∈ operands, reg ∉ gone) :
    Served gone operands id [] where
  kept _ _ _ := rfl
  moved reg member lost := absurd lost (kept reg member)
  used _ member := by cases member

theorem Terminator.mapRegs_eq_self {term : Terminator} {use : Reg → Reg}
    (uses : ∀ reg ∈ term.operandUses, use reg = reg) : term.mapRegs use = term := by
  cases term <;> simp_all [mapRegs, operandUses]

/-- An instruction none of whose operands has gone stays as it is. -/
theorem Instr.Eased.same {gone : List Reg} {instr : Instr}
    (kept : ∀ reg ∈ instr.operandUses ++ instr.operandDef?.toList, reg ∉ gone) :
    instr.Eased gone [] [instr] := by
  have eased : instr.Eased gone (tempRegs [] ++ tempRegs [])
      (loadsOf [] ++ instr.mapOperands id id :: Spills.storesOf []) :=
    .body (fun _ => kept) (.none fun reg member => kept reg (List.mem_append_left _ member))
      (.none fun reg member => kept reg (List.mem_append_right _ member))
  rwa [instr.mapOperands_id] at eased

/-- What becomes of straight code. -/
inductive EasedCode (gone : List Reg) : List Instr → List Reg → List Instr → Prop where
  | nil : EasedCode gone [] [] []
  | cons {instr : Instr} {rest : List Instr} {temps later : List Reg} {piece code : List Instr} :
      instr.Eased gone temps piece → EasedCode gone rest later code →
      EasedCode gone (instr :: rest) (temps ++ later) (piece ++ code)

/-- What becomes of a block: the operands of its terminator are loaded at its end. -/
inductive Block.Eased (gone : List Reg) : Block → List Reg → Block → Prop where
  | mk {label : String} {instrs code : List Instr} {term : Terminator} {use : Reg → Reg}
      {temps : List Reg} {loaded : List (Nat × Nat)} :
      EasedCode gone instrs temps code → Served gone term.operandUses use (tempRegs loaded) →
      Eased gone ⟨label, instrs, term⟩ (temps ++ tempRegs loaded)
        ⟨label, code ++ loadsOf loaded, term.mapRegs use⟩

inductive EasedBlocks (gone : List Reg) : List Block → List Reg → List Block → Prop where
  | nil : EasedBlocks gone [] [] []
  | cons {block eased : Block} {rest others : List Block} {temps later : List Reg} :
      block.Eased gone temps eased → EasedBlocks gone rest later others →
      EasedBlocks gone (block :: rest) (temps ++ later) (eased :: others)

theorem EasedCode.refl (instrs : List Instr) : EasedCode [] instrs [] instrs := by
  induction instrs with
  | nil => exact .nil
  | cons instr rest ih =>
      exact .cons (.same fun _ _ => List.not_mem_nil) ih

theorem Block.Eased.refl (block : Block) : block.Eased [] [] block := by
  have eased : Block.Eased [] ⟨block.label, block.instrs, block.term⟩ ([] ++ tempRegs [])
      ⟨block.label, block.instrs ++ loadsOf [], block.term.mapRegs id⟩ :=
    .mk (.refl block.instrs) (.none fun _ _ => List.not_mem_nil)
  have same : block.term.mapRegs id = block.term := by cases block.term <;> rfl
  rw [same] at eased
  simpa [loadsOf, tempRegs] using eased

theorem EasedBlocks.refl (blocks : List Block) : EasedBlocks [] blocks [] blocks := by
  induction blocks with
  | nil => exact .nil
  | cons block rest ih => exact .cons (.refl block) ih

/-- Registers handed out from a counter on take the place of older ones or come beside them. -/
structure Renewed (first last : Nat) (old new : List Reg) : Prop where
  le : first ≤ last
  source : ∀ temp ∈ new, temp ∈ old ∨ ∃ number, temp = .virtual number ∧ first ≤ number ∧ number < last
  nodup : new.Nodup
  all : ∀ number, first ≤ number → number < last → .virtual number ∈ new

namespace Renewed

variable {first middle last : Nat} {old new others later : List Reg}

theorem refl (first : Nat) (nodup : old.Nodup) : Renewed first first old old :=
  ⟨Nat.le_refl _, fun _ member => .inl member, nodup,
    fun _ low high => absurd high (Nat.not_lt.mpr low)⟩

theorem below (renewed : Renewed first last old new) (wereBelow : VirtualsBelow first old) :
    VirtualsBelow last new := by
  intro temp member
  rcases renewed.source temp member with isOld | ⟨number, rfl, _, inside⟩
  · obtain ⟨number, rfl, inside⟩ := wereBelow temp isOld
    exact ⟨number, rfl, Nat.lt_of_lt_of_le inside renewed.le⟩
  · exact ⟨number, rfl, inside⟩

/-- Registers of different ranges differ, and so do those that were there before. -/
theorem append {bound : Nat} (here : Renewed first middle old new)
    (behind : Renewed middle last others later) (le : bound ≤ first)
    (wereBelow : VirtualsBelow bound (old ++ others)) (apart : (old ++ others).Nodup) :
    Renewed first last (old ++ others) (new ++ later) := by
  refine ⟨here.le.trans behind.le, fun temp member => ?_, ?_, fun number low high => ?_⟩
  · rcases List.mem_append.mp member with isNew | isLater
    · rcases here.source temp isNew with isOld | ⟨number, isNumber, above, inside⟩
      · exact .inl (List.mem_append_left _ isOld)
      · exact .inr ⟨number, isNumber, above, Nat.lt_of_lt_of_le inside behind.le⟩
    · rcases behind.source temp isLater with isOther | ⟨number, isNumber, above, inside⟩
      · exact .inl (List.mem_append_right _ isOther)
      · exact .inr ⟨number, isNumber, here.le.trans above, inside⟩
  · refine here.nodup.append behind.nodup fun temp isNew isLater => ?_
    rcases here.source temp isNew with isOld | ⟨number, rfl, above, inside⟩
    · rcases behind.source temp isLater with isOther | ⟨number, rfl, above, _⟩
      · exact List.disjoint_of_nodup_append apart isOld isOther
      · obtain ⟨same, isSame, low⟩ := wereBelow _ (List.mem_append_left _ isOld)
        cases isSame
        have grows := here.le
        omega
    · rcases behind.source _ isLater with isOther | ⟨same, isSame, aboveLater, _⟩
      · obtain ⟨same, isSame, low⟩ := wereBelow _ (List.mem_append_right _ isOther)
        cases isSame
        omega
      · cases isSame
        omega
  · by_cases early : number < middle
    · exact List.mem_append_left _ (here.all number low early)
    · exact List.mem_append_right _ (behind.all number (Nat.not_lt.mp early) high)

end Renewed

/-! ## One more spill -/

section Spill

variable {gone spilled operands temps : List Reg} {slotOf : RegMap Nat} {bound next last : Nat}
  {change : Reg → Reg}

/-- A map gives slots to exactly some registers. -/
def Slotted (slotOf : RegMap Nat) (spilled : List Reg) : Prop :=
  ∀ reg : Reg, (∃ slot, slotOf[reg]? = some slot) ↔ reg ∈ spilled

theorem Slotted.of_not_mem (slotted : Slotted slotOf spilled) {reg : Reg} (kept : reg ∉ spilled) :
    markSpilled slotOf reg = reg := by
  cases found : slotOf[reg]? with
  | none => exact markSpilled_of_none found
  | some slot => exact absurd ((slotted reg).mp ⟨slot, found⟩) kept

/-- Operands that go as well are served by registers handed out for their slots. -/
theorem Served.spill (served : Served gone operands change temps) (slotted : Slotted slotOf spilled)
    (plain : ∀ reg ∈ operands, reg.Plain bound) (free : ∀ temp ∈ temps, temp ∉ spilled)
    (virtual : VirtualsBelow bound temps) {loaded pairs : List (Nat × Nat)}
    (handed : TempsFor next last
      (spilledSlots ((operands.map change).map (markSpilled slotOf))) loaded)
    (same : ∀ pair, pair ∈ pairs ↔ pair ∈ loaded) {all : List Reg}
    (members : ∀ temp, temp ∈ all ↔ temp ∈ temps ∨ temp ∈ tempRegs pairs) :
    Served (gone ++ spilled) operands (replaceSpilled loaded ∘ markSpilled slotOf ∘ change) all := by
  have plainChanged (reg : Reg) (member : reg ∈ operands.map change) : reg.Plain bound := by
    obtain ⟨operand, isOperand, rfl⟩ := List.mem_map.mp member
    by_cases lost : operand ∈ gone
    · obtain ⟨number, isNumber, inside⟩ := virtual _ (served.moved operand isOperand lost)
      rw [isNumber]
      exact inside
    · rw [served.kept operand isOperand lost]
      exact plain operand isOperand
  have unmarked {operand : Reg} (isOperand : operand ∈ operands) (kept : change operand ∉ spilled) :
      (replaceSpilled loaded ∘ markSpilled slotOf ∘ change) operand = change operand := by
    change replaceSpilled loaded (markSpilled slotOf (change operand)) = _
    rw [slotted.of_not_mem kept]
    exact replaceSpilled_of_plain _ (plainChanged _ (List.mem_map_of_mem isOperand))
  have marked {operand : Reg} (isOperand : operand ∈ operands) {slot temp : Nat}
      (found : slotOf[change operand]? = some slot) (isTemp : loaded.lookup slot = some temp) :
      (replaceSpilled loaded ∘ markSpilled slotOf ∘ change) operand = .virtual temp := by
    change replaceSpilled loaded (markSpilled slotOf (change operand)) = _
    rw [markSpilled_of_some found]
    simp only [replaceSpilled, isTemp]
  constructor
  · intro reg isOperand kept
    rw [List.mem_append, not_or] at kept
    have unchanged := served.kept reg isOperand kept.1
    rw [unmarked isOperand (unchanged.symm ▸ kept.2), unchanged]
  · intro reg isOperand lost
    rw [members]
    by_cases before : reg ∈ gone
    · have isTemp := served.moved reg isOperand before
      rw [unmarked isOperand (free _ isTemp)]
      exact .inl isTemp
    · have unchanged := served.kept reg isOperand before
      have now := (List.mem_append.mp lost).resolve_left before
      obtain ⟨slot, found⟩ := (slotted reg).mpr now
      rw [← unchanged] at found
      obtain ⟨temp, isTemp, pair⟩ :=
        handed.lookup (mem_spilledSlots_of_found (List.mem_map_of_mem isOperand) found)
      rw [marked isOperand found isTemp]
      exact .inr (List.mem_map.mpr ⟨(slot, temp), (same _).mpr pair, rfl⟩)
  · intro temp member
    rcases (members temp).mp member with isOld | isNew
    · obtain ⟨reg, isOperand, lost, rfl⟩ := served.used temp isOld
      exact ⟨reg, isOperand, List.mem_append_left _ lost, unmarked isOperand (free _ isOld)⟩
    · obtain ⟨⟨slot, number⟩, isPair, rfl⟩ := List.mem_map.mp isNew
      have pair := (same _).mp isPair
      have listed : slot ∈ spilledSlots ((operands.map change).map (markSpilled slotOf)) :=
        handed.slots ▸ List.mem_map_of_mem pair
      obtain ⟨_, isChanged, found⟩ := mem_spilledSlots_mark plainChanged listed
      obtain ⟨reg, isOperand, rfl⟩ := List.mem_map.mp isChanged
      have now : change reg ∈ spilled := (slotted _).mp ⟨slot, found⟩
      have kept : reg ∉ gone := fun lost => free _ (served.moved reg isOperand lost) now
      obtain ⟨other, isOther, otherPair⟩ := handed.lookup listed
      have distinct : (loaded.map Prod.fst).Nodup := handed.slots ▸ nodup_eraseDups _
      have equal := List.inj_on_of_nodup_map distinct otherPair pair rfl
      cases equal
      refine ⟨reg, isOperand, List.mem_append_right _ ?_, marked isOperand found isOther⟩
      rwa [served.kept reg isOperand kept] at now

theorem spillInstrs_append {code more : List Instr} {out : SpillCode}
    (ok : spillInstrs next (code ++ more) = .ok out) :
    ∃ first later, spillInstrs next code = .ok first ∧ spillInstrs first.next more = .ok later ∧
      out.instrs = first.instrs ++ later.instrs ∧ out.next = later.next := by
  induction code generalizing next out with
  | nil => exact ⟨⟨[], [], next⟩, out, rfl, ok, rfl, rfl⟩
  | cons instr rest ih =>
      obtain ⟨here, isHere, ok⟩ := bind_eq_ok.mp ok
      obtain ⟨tail, isTail, ok⟩ := bind_eq_ok.mp ok
      cases ok
      obtain ⟨first, later, isFirst, isLater, sameInstrs, sameNext⟩ := ih isTail
      refine ⟨⟨here.instrs ++ first.instrs, here.fresh ++ first.fresh, first.next⟩, later,
        bind_eq_ok.mpr ⟨here, isHere, bind_eq_ok.mpr ⟨first, isFirst, rfl⟩⟩, isLater, ?_, sameNext⟩
      dsimp only
      rw [sameInstrs, List.append_assoc]

theorem spillInstrs_singleton {instr : Instr} {out : SpillCode}
    (ok : spillInstrs next [instr] = .ok out) :
    ∃ code, instr.spill next = .ok code ∧ out.instrs = code.instrs ∧ out.next = code.next := by
  obtain ⟨code, isCode, ok⟩ := bind_eq_ok.mp ok
  cases ok
  exact ⟨code, isCode, List.append_nil _, rfl⟩

/-- Slot accesses with registers that stay are left alone. -/
theorem spillInstrs_of_still {code : List Instr} (slotted : Slotted slotOf spilled)
    (still : ∀ instr ∈ code, ∃ temp slot, .virtual temp ∉ spilled ∧
      (instr = .load (.virtual temp) (.slot slot) ∨ instr = .store (.virtual temp) (.slot slot))) :
    spillInstrs next (code.map (Instr.mapRegs (markSpilled slotOf))) = .ok ⟨code, [], next⟩ := by
  induction code with
  | nil => rfl
  | cons instr rest ih =>
      obtain ⟨temp, slot, kept, isAccess⟩ := still instr List.mem_cons_self
      have unmarked := slotted.of_not_mem kept
      have alone : (instr.mapRegs (markSpilled slotOf)).spill next = .ok ⟨[instr], [], next⟩ := by
        rcases isAccess with rfl | rfl
        · simp only [Instr.mapRegs, Instr.mapOperands, unmarked]
          rfl
        · simp only [Instr.mapRegs, Instr.mapOperands, unmarked]
          rfl
      refine bind_eq_ok.mpr ⟨_, alone, bind_eq_ok.mpr ⟨_, ih fun other member =>
        still other (List.mem_cons_of_mem _ member), rfl⟩⟩

theorem still_loadsOf {loaded : List (Nat × Nat)} (free : ∀ temp ∈ tempRegs loaded, temp ∉ spilled) :
    ∀ instr ∈ loadsOf loaded, ∃ temp slot, .virtual temp ∉ spilled ∧
      (instr = .load (.virtual temp) (.slot slot) ∨ instr = .store (.virtual temp) (.slot slot)) := by
  intro instr member
  obtain ⟨⟨slot, temp⟩, isPair, rfl⟩ := List.mem_map.mp member
  exact ⟨temp, slot, free _ (List.mem_map.mpr ⟨_, isPair, rfl⟩), .inl rfl⟩

theorem still_storesOf {stored : List (Nat × Nat)}
    (free : ∀ temp ∈ tempRegs stored, temp ∉ spilled) :
    ∀ instr ∈ Spills.storesOf stored, ∃ temp slot, .virtual temp ∉ spilled ∧
      (instr = .load (.virtual temp) (.slot slot) ∨ instr = .store (.virtual temp) (.slot slot)) := by
  intro instr member
  obtain ⟨⟨slot, temp⟩, isPair, rfl⟩ := List.mem_map.mp member
  exact ⟨temp, slot, free _ (List.mem_map.mpr ⟨_, isPair, rfl⟩), .inr rfl⟩

theorem Handed.renewed {regs old all : List Reg} (handed : Handed next last regs)
    (oldNodup : old.Nodup) (below : VirtualsBelow bound old) (le : bound ≤ next)
    (perm : all.Perm (old ++ regs)) : Renewed next last old all := by
  refine ⟨handed.le, fun temp member => ?_, perm.nodup_iff.mpr ?_, fun number low high => ?_⟩
  · exact (List.mem_append.mp (perm.mem_iff.mp member)).imp_right handed.mem_iff.mp
  · refine oldNodup.append handed.nodup fun temp isOld isNew => ?_
    obtain ⟨number, rfl, above, _⟩ := handed.mem_iff.mp isNew
    obtain ⟨other, isOther, inside⟩ := below _ isOld
    cases isOther
    omega
  · refine perm.mem_iff.mpr (List.mem_append_right _ (handed.mem_iff.mpr ?_))
    exact ⟨number, rfl, low, high⟩

theorem Renewed.single (next : Nat) : Renewed next (next + 1) [] [.virtual next] :=
  (Handed.single next).renewed List.nodup_nil nofun (Nat.zero_le _) (.refl _)

theorem sortTemps_nil : sortTemps [] = [] := List.perm_nil.mp (sortTemps_perm List.nodup_nil)

theorem sortTemps_singleton (pair : Nat × Nat) : sortTemps [pair] = [pair] :=
  List.perm_singleton.mp (sortTemps_perm (List.nodup_singleton _))

theorem Instr.isMove_mapOperands {instr : Instr} {use definition : Reg → Reg} :
    (instr.mapOperands use definition).isMove = instr.isMove := by
  cases instr <;> rfl

theorem Instr.spill_eq_spillPlain {instr : Instr} (other : instr.isMove = false) :
    instr.spill next = instr.spillPlain next := by
  cases instr with
  | move dest src => cases other
  | _ => rfl

variable {instr : Instr} {code : List Instr} {out : SpillCode} {lower upper : Nat}

/-- An instruction that is not a copy gets more loads and maybe a store. -/
theorem Instr.Eased.spill_body {use definition : Reg → Reg} {loaded stored : List (Nat × Nat)}
    (slotted : Slotted slotOf spilled) (other : instr.isMove = false)
    (uses : Served gone instr.operandUses use (tempRegs loaded))
    (defs : Served gone instr.operandDef?.toList definition (tempRegs stored))
    (plain : ∀ reg ∈ instr.operandUses ++ instr.operandDef?.toList, reg.Plain bound)
    (free : ∀ temp ∈ tempRegs loaded ++ tempRegs stored, temp ∉ spilled)
    (below : VirtualsBelow bound (tempRegs loaded ++ tempRegs stored))
    (nodup : (tempRegs loaded ++ tempRegs stored).Nodup) (le : bound ≤ next) {piece : SpillCode}
    (ok : ((instr.mapOperands use definition).mapRegs (markSpilled slotOf)).spill next = .ok piece) :
    ∃ new, instr.Eased (gone ++ spilled) new
        (loadsOf loaded ++ piece.instrs ++ Spills.storesOf stored) ∧
      Renewed next piece.next (tempRegs loaded ++ tempRegs stored) new := by
  rw [Instr.mapRegs, Instr.mapOperands_mapOperands] at ok
  rw [Instr.spill_eq_spillPlain (Instr.isMove_mapOperands.trans other)] at ok
  obtain ⟨⟨more, middle⟩, isMore, ok⟩ := bind_eq_ok.mp ok
  obtain ⟨⟨moreStored, end_⟩, isStored, ok⟩ := bind_eq_ok.mp ok
  cases ok
  rw [Instr.operandUses_mapOperands, ← List.map_map] at isMore
  rw [Instr.operandDef?_mapOperands, ← Option.map_map, slots_of_definition,
    Option.toList_map] at isStored
  have handed := assignTemps_eq_ok isMore
  have handedStored := assignTemps_eq_ok isStored
  have distinct : (more.map Prod.fst).Nodup := handed.slots ▸ nodup_eraseDups _
  have sorted (pair : Nat × Nat) : pair ∈ sortTemps more ↔ pair ∈ more := mem_sortTemps distinct
  have belowLoaded : VirtualsBelow bound (tempRegs loaded) := fun temp member =>
    below temp (List.mem_append_left _ member)
  have belowStored : VirtualsBelow bound (tempRegs stored) := fun temp member =>
    below temp (List.mem_append_right _ member)
  have served : Served (gone ++ spilled) instr.operandUses
      (replaceSpilled more ∘ markSpilled slotOf ∘ use) (tempRegs (loaded ++ sortTemps more)) :=
    uses.spill slotted (fun reg member => plain reg (List.mem_append_left _ member))
      (fun temp member => free temp (List.mem_append_left _ member)) belowLoaded handed sorted
      fun temp => by simp only [tempRegs, List.map_append, List.mem_append]
  have servedStored : Served (gone ++ spilled) instr.operandDef?.toList
      (replaceSpilled moreStored ∘ markSpilled slotOf ∘ definition)
      (tempRegs (moreStored ++ stored)) :=
    defs.spill slotted (fun reg member => plain reg (List.mem_append_right _ member))
      (fun temp member => free temp (List.mem_append_right _ member)) belowStored handedStored
      (fun _ => Iff.rfl) fun temp => by
        simp only [tempRegs, List.map_append, List.mem_append]
        exact or_comm
  refine ⟨tempRegs (loaded ++ sortTemps more) ++ tempRegs (moreStored ++ stored), ?_, ?_⟩
  · have eased := Instr.Eased.body (fun isMove => by rw [other] at isMove; cases isMove) served
      servedStored
    rw [Instr.mapOperands_mapOperands]
    simpa [loadsOf, Spills.storesOf, Function.comp_assoc] using eased
  · refine Renewed.append ((handed_assignTemps (nodup_eraseDups _) isMore).2.renewed
      nodup.of_append_left belowLoaded le ?_) ((handedStored.handed (nodup_eraseDups _)).renewed
        nodup.of_append_right belowStored (le.trans handed.le) ?_) le below nodup
    · simp [tempRegs]
    · simp only [tempRegs, List.map_append]
      exact List.perm_append_comm

theorem Instr.Eased.spill_move {dest src : Reg} (slotted : Slotted slotOf spilled)
    (slotMap : SlotMap lower upper slotOf) (keptDest : dest ∉ gone) (keptSrc : src ∉ gone)
    (plainDest : dest.Plain bound) (plainSrc : src.Plain bound) {piece : SpillCode}
    (ok : ((Instr.move dest src).mapRegs (markSpilled slotOf)).spill next = .ok piece) :
    ∃ new, (Instr.move dest src).Eased (gone ++ spilled) new piece.instrs ∧
      Renewed next piece.next [] new := by
  have stays {reg : Reg} (kept : reg ∉ gone) (notFound : slotOf[reg]? = none) :
      reg ∉ gone ++ spilled := by
    intro member
    obtain ⟨slot, found⟩ := (slotted reg).mpr ((List.mem_append.mp member).resolve_left kept)
    rw [notFound] at found
    cases found
  have goes {reg : Reg} {slot : Nat} (found : slotOf[reg]? = some slot) : reg ∈ gone ++ spilled :=
    List.mem_append_right _ ((slotted reg).mp ⟨slot, found⟩)
  cases copySpill_of_ok plainDest plainSrc ok with
  | stay foundSrc foundDest =>
      refine ⟨[], .same fun reg member => ?_, .refl next List.nodup_nil⟩
      rcases List.mem_cons.mp member with rfl | member
      · exact stays keptSrc foundSrc
      · exact List.mem_singleton.mp member ▸ stays keptDest foundDest
  | save foundSrc foundDest =>
      exact ⟨[], .save (goes foundDest) (stays keptSrc foundSrc), .refl next List.nodup_nil⟩
  | fetch foundSrc foundDest =>
      exact ⟨[], .fetch (stays keptDest foundDest) (goes foundSrc), .refl next List.nodup_nil⟩
  | drop foundSrc foundDest =>
      cases slotMap.own dest src _ foundDest foundSrc
      exact ⟨[], .drop (goes foundSrc), .refl next List.nodup_nil⟩
  | pass foundSrc foundDest =>
      exact ⟨_, .pass (goes foundDest) (goes foundSrc), .single next⟩

/-- Where no operand has gone, no register was handed out. -/
theorem Served.eq_nil {operands : List Reg} {change : Reg → Reg} {temps : List (Nat × Nat)}
    (served : Served gone operands change (tempRegs temps)) (kept : ∀ reg ∈ operands, reg ∉ gone) :
    temps = [] := by
  refine List.eq_nil_iff_forall_not_mem.mpr fun pair member => ?_
  obtain ⟨reg, isOperand, lost, _⟩ := served.used _ (List.mem_map_of_mem member)
  exact kept reg isOperand lost

/-- A copy whose operands are still there is spilled as a copy. -/
theorem Instr.Eased.spill_copy {use definition : Reg → Reg} {loaded stored : List (Nat × Nat)}
    (slotted : Slotted slotOf spilled) (slotMap : SlotMap lower upper slotOf)
    (isCopy : instr.isMove = true)
    (kept : ∀ reg ∈ instr.operandUses ++ instr.operandDef?.toList, reg ∉ gone)
    (uses : Served gone instr.operandUses use (tempRegs loaded))
    (defs : Served gone instr.operandDef?.toList definition (tempRegs stored))
    (plain : ∀ reg ∈ instr.operandUses ++ instr.operandDef?.toList, reg.Plain bound)
    {piece : SpillCode}
    (ok : ((instr.mapOperands use definition).mapRegs (markSpilled slotOf)).spill next = .ok piece) :
    ∃ new, instr.Eased (gone ++ spilled) new
        (loadsOf loaded ++ piece.instrs ++ Spills.storesOf stored) ∧
      Renewed next piece.next (tempRegs loaded ++ tempRegs stored) new := by
  have noLoads := uses.eq_nil fun reg member => kept reg (List.mem_append_left _ member)
  have noStores := defs.eq_nil fun reg member => kept reg (List.mem_append_right _ member)
  subst noLoads noStores
  rw [Instr.mapOperands_eq_self
    (fun reg member => uses.kept reg member (kept reg (List.mem_append_left _ member)))
    (fun reg member => defs.kept reg member (kept reg (List.mem_append_right _ member)))] at ok
  cases instr with
  | move dest src =>
      have isSrc : src ∈ [src] ++ [dest] := List.mem_cons_self
      have isDest : dest ∈ [src] ++ [dest] := List.mem_cons_of_mem _ List.mem_cons_self
      obtain ⟨new, eased, renewed⟩ := spill_move slotted slotMap (kept dest isDest) (kept src isSrc)
        (plain dest isDest) (plain src isSrc) ok
      exact ⟨new, (List.append_nil piece.instrs).symm ▸ eased, renewed⟩
  | _ => cases isCopy

/-- A load into a register that goes is passed on to a slot. -/
theorem Instr.Eased.spill_fetch {dest src : Reg} {slot : Nat} (slotted : Slotted slotOf spilled)
    (kept : dest ∉ gone) (lost : src ∈ gone) (plain : dest.Plain bound) {piece : SpillCode}
    (ok : (Instr.load (markSpilled slotOf dest) (.slot slot)).spill next = .ok piece) :
    ∃ new, (Instr.move dest src).Eased (gone ++ spilled) new piece.instrs ∧
      Renewed next piece.next [] new := by
  by_cases goes : dest ∈ spilled
  · obtain ⟨other, found⟩ := (slotted dest).mpr goes
    rw [markSpilled_of_some found] at ok
    obtain ⟨⟨loads, middle⟩, isLoads, ok⟩ := bind_eq_ok.mp ok
    obtain ⟨⟨stores, last⟩, isStores, ok⟩ := bind_eq_ok.mp ok
    cases isLoads
    obtain ⟨after, isAfter, isStores⟩ := bind_eq_ok.mp isStores
    cases isStores
    cases ok
    obtain ⟨rfl, _⟩ := Width.add_eq_ok_iff.mp isAfter
    refine ⟨[.virtual next], ?_, .single next⟩
    have eased : (Instr.move dest src).Eased (gone ++ spilled) [.virtual next]
        [.load (.virtual next) (.slot slot), .store (.virtual next) (.slot other)] :=
      .pass (List.mem_append_right _ goes) (List.mem_append_left _ lost)
    simpa [loadsOf, sortTemps_nil, replaceSpilled, Instr.mapOperands, Address.mapRegs] using eased
  · rw [slotted.of_not_mem goes] at ok
    cases dest with
    | spilled other => exact absurd plain id
    | _ =>
        cases ok
        exact ⟨[], .fetch (by simp [kept, goes]) (List.mem_append_left _ lost),
          .refl next List.nodup_nil⟩

/-- A store from a register that goes is passed on from a slot. -/
theorem Instr.Eased.spill_save {dest src : Reg} {slot : Nat} (slotted : Slotted slotOf spilled)
    (lost : dest ∈ gone) (kept : src ∉ gone) (plain : src.Plain bound) {piece : SpillCode}
    (ok : (Instr.store (markSpilled slotOf src) (.slot slot)).spill next = .ok piece) :
    ∃ new, (Instr.move dest src).Eased (gone ++ spilled) new piece.instrs ∧
      Renewed next piece.next [] new := by
  by_cases goes : src ∈ spilled
  · obtain ⟨other, found⟩ := (slotted src).mpr goes
    rw [markSpilled_of_some found] at ok
    obtain ⟨⟨loads, middle⟩, isLoads, ok⟩ := bind_eq_ok.mp ok
    obtain ⟨⟨stores, last⟩, isStores, ok⟩ := bind_eq_ok.mp ok
    obtain ⟨after, isAfter, isLoads⟩ := bind_eq_ok.mp isLoads
    cases isLoads
    cases isStores
    cases ok
    obtain ⟨rfl, _⟩ := Width.add_eq_ok_iff.mp isAfter
    refine ⟨[.virtual next], ?_, .single next⟩
    have eased : (Instr.move dest src).Eased (gone ++ spilled) [.virtual next]
        [.load (.virtual next) (.slot other), .store (.virtual next) (.slot slot)] :=
      .pass (List.mem_append_left _ lost) (List.mem_append_right _ goes)
    simpa [loadsOf, sortTemps_singleton, replaceSpilled, Instr.mapOperands, Address.mapRegs]
      using eased
  · rw [slotted.of_not_mem goes] at ok
    cases src with
    | spilled other => exact absurd plain id
    | _ =>
        cases ok
        exact ⟨[], .save (List.mem_append_left _ lost) (by simp [kept, goes]),
          .refl next List.nodup_nil⟩

/-- One more spill eases an instruction further. -/
theorem Instr.Eased.spill (eased : instr.Eased gone temps code) (slotted : Slotted slotOf spilled)
    (slotMap : SlotMap lower upper slotOf)
    (plain : ∀ reg ∈ instr.operandUses ++ instr.operandDef?.toList, reg.Plain bound)
    (free : ∀ temp ∈ temps, temp ∉ spilled) (below : VirtualsBelow bound temps) (nodup : temps.Nodup)
    (le : bound ≤ next)
    (ok : spillInstrs next (code.map (Instr.mapRegs (markSpilled slotOf))) = .ok out) :
    ∃ new, instr.Eased (gone ++ spilled) new out.instrs ∧ Renewed next out.next temps new := by
  cases eased with
  | @body _ use definition loaded stored still uses defs =>
      -- the loads and stores that are there already stay as they are
      rw [List.map_append, List.map_cons, ← List.singleton_append] at ok
      obtain ⟨first, rest, isFirst, isRest, sameInstrs, sameNext⟩ := spillInstrs_append ok
      rw [spillInstrs_of_still slotted (still_loadsOf fun temp member =>
        free temp (List.mem_append_left _ member))] at isFirst
      cases isFirst
      obtain ⟨here, last, isHere, isLast, restInstrs, restNext⟩ := spillInstrs_append isRest
      rw [spillInstrs_of_still slotted (still_storesOf fun temp member =>
        free temp (List.mem_append_right _ member))] at isLast
      cases isLast
      obtain ⟨piece, isPiece, hereInstrs, hereNext⟩ := spillInstrs_singleton isHere
      rw [sameInstrs, sameNext, restInstrs, restNext, hereInstrs, hereNext, ← List.append_assoc]
      cases kind : instr.isMove with
      | false => exact spill_body slotted kind uses defs plain free below nodup le isPiece
      | true => exact spill_copy slotted slotMap kind (still kind) uses defs plain isPiece
  | fetch kept lost =>
      obtain ⟨piece, isPiece, sameInstrs, sameNext⟩ := spillInstrs_singleton ok
      rw [sameInstrs, sameNext]
      exact spill_fetch slotted kept lost (plain _ (List.mem_cons_of_mem _ List.mem_cons_self)) isPiece
  | save lost kept =>
      obtain ⟨piece, isPiece, sameInstrs, sameNext⟩ := spillInstrs_singleton ok
      rw [sameInstrs, sameNext]
      exact spill_save slotted lost kept (plain _ List.mem_cons_self) isPiece
  | @pass dest src temp source target lostDest lostSrc =>
      rw [spillInstrs_of_still slotted fun instr member => ?_] at ok
      · cases ok
        exact ⟨_, .pass (List.mem_append_left _ lostDest) (List.mem_append_left _ lostSrc),
          .refl next nodup⟩
      · have kept := free (.virtual temp) (List.mem_singleton_self _)
        rcases List.mem_cons.mp member with rfl | member
        · exact ⟨temp, source, kept, .inl rfl⟩
        · exact ⟨temp, target, kept, .inr (List.mem_singleton.mp member)⟩
  | drop lost =>
      cases ok
      exact ⟨[], .drop (List.mem_append_left _ lost), .refl next List.nodup_nil⟩

theorem Instr.Fits.plain (fits : instr.Fits bound slots) :
    ∀ reg ∈ instr.operandUses ++ instr.operandDef?.toList, reg.Plain bound := by
  intro reg member
  rcases List.mem_append.mp member with used | defined
  · exact fits.uses reg used
  · exact fits.definition reg (Option.mem_toList.mp defined)

theorem EasedCode.spill {instrs : List Instr} (eased : EasedCode gone instrs temps code)
    (slotted : Slotted slotOf spilled) (slotMap : SlotMap lower upper slotOf)
    (fits : ∀ instr ∈ instrs, instr.Fits bound slots)
    (free : ∀ temp ∈ temps, temp ∉ spilled) (below : VirtualsBelow bound temps) (nodup : temps.Nodup)
    (le : bound ≤ next)
    (ok : spillInstrs next (code.map (Instr.mapRegs (markSpilled slotOf))) = .ok out) :
    ∃ new, EasedCode (gone ++ spilled) instrs new out.instrs ∧ Renewed next out.next temps new := by
  induction eased generalizing next out with
  | nil =>
      cases ok
      exact ⟨[], .nil, .refl next List.nodup_nil⟩
  | cons first rest ih =>
      rw [List.map_append] at ok
      obtain ⟨here, later, isHere, isLater, sameInstrs, sameNext⟩ := spillInstrs_append ok
      obtain ⟨new, easedFirst, renewed⟩ := first.spill slotted slotMap
        (fits _ List.mem_cons_self).plain
        (fun temp member => free temp (List.mem_append_left _ member))
        (fun temp member => below temp (List.mem_append_left _ member)) nodup.of_append_left le isHere
      obtain ⟨more, easedRest, renewedRest⟩ := ih
        (fun instr member => fits instr (List.mem_cons_of_mem _ member))
        (fun temp member => free temp (List.mem_append_right _ member))
        (fun temp member => below temp (List.mem_append_right _ member)) nodup.of_append_right
        (le.trans renewed.le) isLater
      rw [sameInstrs, sameNext]
      exact ⟨new ++ more, .cons easedFirst easedRest, renewed.append renewedRest le below nodup⟩

theorem Block.Eased.spill {block eased relieved : Block} {fresh : List Reg}
    (isEased : block.Eased gone temps eased) (slotted : Slotted slotOf spilled)
    (slotMap : SlotMap lower upper slotOf) (fits : block.Fits bound slots)
    (free : ∀ temp ∈ temps, temp ∉ spilled) (below : VirtualsBelow bound temps) (nodup : temps.Nodup)
    (le : bound ≤ next)
    (ok : (eased.mapRegs (markSpilled slotOf)).spill next = .ok (relieved, fresh, last)) :
    ∃ new, block.Eased (gone ++ spilled) new relieved ∧ Renewed next last temps new := by
  cases isEased with
  | @mk label instrs easedCode term use codeTemps loaded code served =>
      obtain ⟨out, isOut, ok⟩ := bind_eq_ok.mp ok
      obtain ⟨⟨more, end_⟩, isMore, ok⟩ := bind_eq_ok.mp ok
      cases ok
      have belowCode : VirtualsBelow bound codeTemps := fun temp member =>
        below temp (List.mem_append_left _ member)
      have belowLoaded : VirtualsBelow bound (tempRegs loaded) := fun temp member =>
        below temp (List.mem_append_right _ member)
      change spillInstrs next ((easedCode ++ loadsOf loaded).map _) = _ at isOut
      rw [List.map_append] at isOut
      obtain ⟨here, later, isHere, isLater, sameInstrs, sameNext⟩ := spillInstrs_append isOut
      rw [spillInstrs_of_still slotted (still_loadsOf fun temp member =>
        free temp (List.mem_append_right _ member))] at isLater
      cases isLater
      obtain ⟨new, easedNew, renewed⟩ := code.spill slotted slotMap fits.instrs
        (fun temp member => free temp (List.mem_append_left _ member)) belowCode
        nodup.of_append_left le isHere
      change assignTemps out.next (spilledSlots ((term.mapRegs use).mapRegs _).operandUses) = _ at isMore
      rw [Terminator.operandUses_mapRegs, Terminator.operandUses_mapRegs, sameNext] at isMore
      have handed := assignTemps_eq_ok isMore
      have distinct : (more.map Prod.fst).Nodup := handed.slots ▸ nodup_eraseDups _
      have sorted (pair : Nat × Nat) : pair ∈ sortTemps more ↔ pair ∈ more := mem_sortTemps distinct
      have servedMore : Served (gone ++ spilled) term.operandUses
          (replaceSpilled more ∘ markSpilled slotOf ∘ use) (tempRegs (loaded ++ sortTemps more)) :=
        served.spill slotted fits.term
          (fun temp member => free temp (List.mem_append_right _ member)) belowLoaded handed sorted
          fun temp => by simp only [tempRegs, List.map_append, List.mem_append]
      refine ⟨new ++ tempRegs (loaded ++ sortTemps more), ?_, renewed.append
        ((handed_assignTemps (nodup_eraseDups _) isMore).2.renewed nodup.of_append_right belowLoaded
          (le.trans renewed.le) ?_) le below nodup⟩
      · have whole : Block.Eased (gone ++ spilled) ⟨label, instrs, term⟩ _ _ :=
          .mk easedNew servedMore
        simpa [Block.mapRegs, sameInstrs, loadsOf, Terminator.mapRegs_mapRegs] using whole
      · simp [tempRegs]

theorem EasedBlocks.spill {blocks eased relieved : List Block} {fresh : List Reg}
    (isEased : EasedBlocks gone blocks temps eased) (slotted : Slotted slotOf spilled)
    (slotMap : SlotMap lower upper slotOf) (fits : ∀ block ∈ blocks, block.Fits bound slots)
    (free : ∀ temp ∈ temps, temp ∉ spilled) (below : VirtualsBelow bound temps) (nodup : temps.Nodup)
    (le : bound ≤ next)
    (ok : spillBlocks next (eased.map (Block.mapRegs (markSpilled slotOf))) =
      .ok (relieved, fresh, last)) :
    ∃ new, EasedBlocks (gone ++ spilled) blocks new relieved ∧ Renewed next last temps new := by
  induction isEased generalizing next relieved fresh with
  | nil =>
      cases ok
      exact ⟨[], .nil, .refl _ List.nodup_nil⟩
  | cons first rest ih =>
      obtain ⟨⟨here, freshHere, middle⟩, isHere, ok⟩ := bind_eq_ok.mp ok
      obtain ⟨⟨later, freshLater, end_⟩, isLater, ok⟩ := bind_eq_ok.mp ok
      cases ok
      obtain ⟨new, easedFirst, renewed⟩ := first.spill slotted slotMap
        (fits _ List.mem_cons_self) (fun temp member => free temp (List.mem_append_left _ member))
        (fun temp member => below temp (List.mem_append_left _ member)) nodup.of_append_left le isHere
      obtain ⟨more, easedRest, renewedRest⟩ := ih
        (fun block member => fits block (List.mem_cons_of_mem _ member))
        (fun temp member => free temp (List.mem_append_right _ member))
        (fun temp member => below temp (List.mem_append_right _ member)) nodup.of_append_right
        (le.trans renewed.le) isLater
      exact ⟨new ++ more, .cons easedFirst easedRest, renewed.append renewedRest le below nodup⟩

end Spill

/-! ## Functions -/

namespace Func

/-- What becomes of a function: the registers handed out are different from each other and from those
of the function. -/
structure Eased (f : Func) (gone temps : List Reg) (g : Func) : Prop where
  blocks : EasedBlocks gone f.blocks temps g.blocks
  nodup : temps.Nodup
  fresh : VirtualsFrom f.nextVirtual temps
  below : VirtualsBelow g.nextVirtual temps
  fits : g.Fits
  grows : f.nextVirtual ≤ g.nextVirtual

theorem Eased.refl {f : Func} (fits : f.Fits) : f.Eased [] [] f where
  blocks := .refl f.blocks
  nodup := List.nodup_nil
  fresh _ member := by cases member
  below _ member := by cases member
  fits := fits
  grows := Nat.le_refl _

theorem slotted_assignSlots {f g : Func} {spilled : List Reg} {slotOf after : RegMap Nat}
    (notPhysical : ∀ reg ∈ spilled, reg.isPhysical = false)
    (ok : (f.assignSlots slotOf spilled).result = .ok (g, after)) (reg : Reg) :
    (∃ slot, after[reg]? = some slot) ↔ reg ∈ spilled ∨ ∃ slot, slotOf[reg]? = some slot := by
  induction spilled generalizing f slotOf with
  | nil =>
      cases ok
      simp
  | cons first rest ih =>
      rw [ih (fun reg member => notPhysical reg (List.mem_cons_of_mem _ member))
        (assignSlots_cons (notPhysical first List.mem_cons_self) ok), SlotMap.getElem?_insert,
        List.mem_cons]
      by_cases same : reg = first <;> simp [same]

/-- Spilling registers of the function that is eased eases it further. -/
theorem Eased.spill {f g relieved : Func} {gone temps spilled fresh : List Reg}
    (eased : f.Eased gone temps g) (fits : f.Fits)
    (originals : VirtualsBelow f.nextVirtual spilled)
    (ok : (g.spill spilled).result = .ok (relieved, fresh)) :
    ∃ new, f.Eased (gone ++ spilled) new relieved := by
  have notPhysical : ∀ reg ∈ spilled, reg.isPhysical = false := by
    intro reg member
    obtain ⟨number, rfl, _⟩ := originals reg member
    rfl
  have free : ∀ temp ∈ temps, temp ∉ spilled := by
    intro temp isTemp isSpilled
    obtain ⟨number, rfl, above⟩ := eased.fresh temp isTemp
    obtain ⟨same, isSame, below⟩ := originals _ isSpilled
    cases isSame
    omega
  have fitsRelieved := (spill_sound eased.fits ok).1
  obtain ⟨grown, slotOf, blocks, nextVirtual, isGrown, slotMap, _, areSpilled, rfl⟩ := spill_eq_ok ok
  have slotted : Slotted slotOf spilled := fun reg => by
    rw [slotted_assignSlots notPhysical isGrown]
    simp
  have fitsBlocks : ∀ block ∈ f.blocks, block.Fits g.nextVirtual f.slots := fun block isBlock =>
    (fits block isBlock).mono eased.grows
  obtain ⟨new, easedBlocks, renewed⟩ := eased.blocks.spill slotted slotMap fitsBlocks free eased.below
    eased.nodup (Nat.le_refl _) areSpilled
  refine ⟨new, easedBlocks, renewed.nodup, fun temp member => ?_, renewed.below eased.below,
    fitsRelieved, eased.grows.trans renewed.le⟩
  rcases renewed.source temp member with isOld | ⟨number, rfl, above, _⟩
  · exact eased.fresh temp isOld
  · exact ⟨number, rfl, eased.grows.trans above⟩

end Func

end Lowering.Machine
