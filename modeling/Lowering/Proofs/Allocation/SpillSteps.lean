import Lowering.Proofs.Allocation.Spilling
import Lowering.Proofs.Machine.Stepping
import Lowering.Proofs.Overflow
import Mathlib

/-!
# Spill code step by step

Relieved code has a piece for every instruction.  From boundary to boundary it shows what the
instruction shows, and in between it touches slots behind the frame only.
-/

namespace Lowering.Machine

section Pieces

variable {slotOf : RegMap Nat} {bound slots upper next last : Nat} {env : Environment} {s t : State}
  {instr : Instr} {code : SpillCode}

/-- A piece of code does what an instruction does and shows what it shows, with spilled registers in
their slots. -/
def Relays (slotOf : RegMap Nat) (bound slots : Nat) (instr : Instr) (piece : List Instr) : Prop :=
  ∀ env s t after, Spills slotOf bound slots s t → instr.exec env s = some after →
    ∃ finish, observe env slots piece t = some (finish, instr.accesses slots s) ∧
      Spills slotOf bound slots after finish

/-- An instruction makes the same accesses with replaced operands that hold the same words. -/
theorem accesses_mapOperands {use definition : Reg → Reg} {after : State}
    (reads : ∀ reg ∈ instr.operandUses, ∀ word, s.read reg = some word →
      t.read (use reg) = some word)
    (sameSlots : ∀ slot < slots, t.slots slot = s.slots slot)
    (ran : instr.exec env s = some after) :
    (instr.mapOperands use definition).accesses slots t = instr.accesses slots s := by
  cases instr with
  | load dest addr =>
      cases addr with
      | based base offset => rfl
      | slot slot =>
          simp only [Instr.mapOperands, Address.mapRegs, Instr.accesses]
          split
          · next inside => rw [sameSlots slot inside]
          · rfl
  | store src addr =>
      cases addr with
      | based base offset => rfl
      | slot slot =>
          obtain ⟨value, isValue, _⟩ := Instr.exec_store_cases ran
          have readSrc := reads src List.mem_cons_self value isValue
          simp only [Instr.mapOperands, Address.mapRegs, Instr.accesses, isValue, readSrc]
  | _ => rfl

variable (slotMap : SlotMap slots upper slotOf)
include slotMap

theorem beyond_of_slotMap {operands : List Reg} (plain : ∀ reg ∈ operands, reg.Plain bound)
    {temps : List (Nat × Nat)}
    (handed : TempsFor next last (spilledSlots (operands.map (markSpilled slotOf))) temps)
    {pair : Nat × Nat} (member : pair ∈ temps) : slots ≤ pair.1 := by
  have listed : pair.1 ∈ spilledSlots (operands.map (markSpilled slotOf)) :=
    handed.slots ▸ List.mem_map_of_mem member
  obtain ⟨reg, _, found⟩ := mem_spilledSlots_mark plain listed
  exact (slotMap.inside reg pair.1 found).1

theorem observe_loads {operands : List Reg} (plain : ∀ reg ∈ operands, reg.Plain bound)
    {temps : List (Nat × Nat)}
    (handed : TempsFor next last (spilledSlots (operands.map (markSpilled slotOf))) temps)
    {middle : State} (ran : (loadsOf (sortTemps temps)).foldlM (Instr.exec env) t = some middle) :
    observe env slots (loadsOf (sortTemps temps)) t = some (middle, []) := by
  refine observe_eq_of_beyond (fun load isLoad slot isSlot => ?_) ran
  obtain ⟨pair, isPair, rfl⟩ := List.mem_map.mp isLoad
  obtain rfl := Option.some.inj isSlot
  rw [mem_sortTemps (handed.slots ▸ nodup_eraseDups _)] at isPair
  exact beyond_of_slotMap slotMap plain handed isPair

theorem relays_spillPlain (fits : instr.Fits bound slots) (le : bound ≤ next)
    (ok : (instr.mapRegs (markSpilled slotOf)).spillPlain next = .ok code) :
    Relays slotOf bound slots instr code.instrs := by
  intro env s t after spills ran
  obtain ⟨⟨loaded, middleNext⟩, isLoaded, ok⟩ := bind_eq_ok.mp ok
  obtain ⟨⟨stored, last⟩, isStored, ok⟩ := bind_eq_ok.mp ok
  cases ok
  rw [Instr.mapRegs, Instr.operandUses_mapOperands] at isLoaded
  obtain ⟨middle, ranLoads, spillsMiddle, reads⟩ := spills.exec_loads env fits.uses le isLoaded
  have handed := assignTemps_eq_ok isLoaded
  have fresh : bound ≤ middleNext := Nat.le_trans le handed.le
  rw [Instr.mapRegs, Instr.operandDef?_mapOperands] at isStored
  obtain ⟨finish, isFinish, spillsFinish⟩ :=
    spillsMiddle.exec_body slotMap fits fresh reads isStored ran
  have plainDefinition : ∀ reg ∈ instr.operandDef?.toList, reg.Plain bound := by
    intro reg member
    exact fits.definition reg (by simpa using member)
  rw [slots_of_definition] at isStored
  have handedStored := assignTemps_eq_ok isStored
  -- only the instruction itself touches the frame
  obtain ⟨computed, isComputed, ranStores⟩ := Option.bind_eq_some_iff.mp isFinish
  have seenStores : observe env slots (Spills.storesOf stored) computed = some (finish, []) := by
    refine observe_eq_of_beyond (fun store isStore slot isSlot => ?_) ranStores
    obtain ⟨pair, isPair, rfl⟩ := List.mem_map.mp isStore
    obtain rfl := Option.some.inj isSlot
    exact beyond_of_slotMap slotMap plainDefinition handedStored isPair
  have seen : observe env slots
      (instr.mapOperands (fun reg => replaceSpilled loaded (markSpilled slotOf reg))
        (replaceSpilled stored ∘ markSpilled slotOf) :: Spills.storesOf stored) middle =
      some (finish, instr.accesses slots s) := by
    rw [observe, isComputed, Option.bind_some, seenStores, Option.map_some, List.append_nil,
      accesses_mapOperands reads spillsMiddle.slots ran]
  refine ⟨finish, ?_, spillsFinish⟩
  rw [Instr.mapRegs, Instr.mapOperands_mapOperands]
  exact observe_append (observe_loads slotMap fits.uses handed ranLoads) seen

theorem relays_spill (leSlots : slots ≤ upper) (fits : instr.Fits bound slots) (le : bound ≤ next)
    (ok : (instr.mapRegs (markSpilled slotOf)).spill next = .ok code) :
    Relays slotOf bound slots instr code.instrs := by
  cases instr with
  | move dest src =>
      intro env s t after spills ran
      obtain ⟨finish, isFinish, spillsFinish⟩ := spills.exec_spill_move slotMap fits le ok ran
      have beyond := fun part member => (fits_spill_move slotMap leSlots fits le ok part member).2
      exact ⟨finish, observe_eq_of_beyond beyond isFinish, spillsFinish⟩
  | _ => exact relays_spillPlain slotMap fits le ok

end Pieces

section Blocks

variable {slotOf : RegMap Nat} {bound slots upper next last : Nat} {block relieved : Block}
  {fresh : List Reg}

theorem relays_spillInstrs (slotMap : SlotMap slots upper slotOf) (leSlots : slots ≤ upper)
    {instrs : List Instr} (fits : ∀ instr ∈ instrs, instr.Fits bound slots) (le : bound ≤ next)
    {code : SpillCode}
    (ok : spillInstrs next (instrs.map (Instr.mapRegs (markSpilled slotOf))) = .ok code) :
    ∃ pieces, code.instrs = pieces.flatten ∧
      List.Forall₂ (Relays slotOf bound slots) instrs pieces := by
  obtain ⟨pieces, same, related⟩ := spillInstrs_pieces ok
  refine ⟨pieces, same, forall₂_imp_mem (List.forall₂_map_left_iff.mp related) ?_⟩
  rintro instr isInstr piece ⟨start, out, leStart, isOut, _, rfl⟩
  exact relays_spill slotMap leSlots (fits instr isInstr) (le.trans leStart) isOut

/-- A block consists of pieces for the instructions of another one, and of loads for its
terminator. -/
structure Matches (slotOf : RegMap Nat) (bound slots : Nat) (block relieved : Block)
    (pieces : List (List Instr)) (loads : List Instr) : Prop where
  instrs : relieved.instrs = pieces.flatten ++ loads
  relays : List.Forall₂ (Relays slotOf bound slots) block.instrs pieces
  ends : ∀ env s t exit, Spills slotOf bound slots s t → block.term.exit s = some exit →
    ∃ finish, observe env slots loads t = some (finish, []) ∧
      relieved.term.exit finish = some exit ∧ Spills slotOf bound slots s finish

theorem Block.matches_spill (slotMap : SlotMap slots upper slotOf) (leSlots : slots ≤ upper)
    (fits : block.Fits bound slots) (le : bound ≤ next)
    (ok : (block.mapRegs (markSpilled slotOf)).spill next = .ok (relieved, fresh, last)) :
    ∃ pieces loads, Matches slotOf bound slots block relieved pieces loads := by
  obtain ⟨code, isCode, ok⟩ := bind_eq_ok.mp ok
  obtain ⟨⟨loaded, _⟩, isLoaded, ok⟩ := bind_eq_ok.mp ok
  cases ok
  have isLoads : assignTemps code.next
      (spilledSlots (block.term.operandUses.map (markSpilled slotOf))) = .ok (loaded, last) := by
    rw [← Terminator.operandUses_mapRegs]
    exact isLoaded
  have grows := (handed_spillInstrs isCode).le
  obtain ⟨pieces, areInstrs, relays⟩ := relays_spillInstrs slotMap leSlots fits.instrs le isCode
  refine ⟨pieces, loadsOf (sortTemps loaded), ?_, relays, ?_⟩
  · rw [← areInstrs]
  · intro env s t exit spills exits
    obtain ⟨finish, isFinish, spillsFinish, reads⟩ :=
      spills.exec_loads env fits.term (Nat.le_trans le grows) isLoads
    refine ⟨finish, observe_loads slotMap fits.term (assignTemps_eq_ok isLoads) isFinish, ?_,
      spillsFinish⟩
    change ((block.term.mapRegs _).mapRegs _).exit finish = _
    rw [Terminator.mapRegs_mapRegs]
    apply Terminator.exit_mapRegs reads _ exits
    intro isRet reg used word holds
    rw [isRet] at used
    obtain ⟨phys, rfl⟩ := Terminator.physical_of_mem_ret used
    exact spillsFinish.held_physical slotMap holds

theorem matches_spillBlocks (slotMap : SlotMap slots upper slotOf) (leSlots : slots ≤ upper)
    {blocks out : List Block} (fits : ∀ block ∈ blocks, block.Fits bound slots) (le : bound ≤ next)
    (ok : spillBlocks next (blocks.map (Block.mapRegs (markSpilled slotOf))) =
      .ok (out, fresh, last)) :
    ∀ (i : Nat) (block : Block), blocks[i]? = some block →
      ∃ relieved pieces loads, out[i]? = some relieved ∧
        Matches slotOf bound slots block relieved pieces loads := by
  intro i block found
  obtain ⟨relieved, isRelieved, start, handed, finish, leStart, isSpilled, _⟩ :=
    getElem?_of_forall₂ (List.forall₂_map_left_iff.mp (spillBlocks_pieces ok)) found
  obtain ⟨pieces, loads, same⟩ := Block.matches_spill slotMap leSlots
    (fits block (List.mem_of_getElem? found)) (le.trans leStart) isSpilled
  exact ⟨relieved, pieces, loads, isRelieved, same⟩

theorem exec_relays {env : Environment} {instrs : List Instr} {pieces : List (List Instr)}
    {s t after : State} (relays : List.Forall₂ (Relays slotOf bound slots) instrs pieces)
    (spills : Spills slotOf bound slots s t) (ran : instrs.foldlM (Instr.exec env) s = some after) :
    ∃ finish, pieces.flatten.foldlM (Instr.exec env) t = some finish ∧
      Spills slotOf bound slots after finish := by
  induction relays generalizing s t with
  | nil =>
      cases ran
      exact ⟨t, rfl, spills⟩
  | cons here _ ih =>
      obtain ⟨middle, isMiddle, ran⟩ := Option.bind_eq_some_iff.mp ran
      obtain ⟨middleT, seen, spillsMiddle⟩ := here env s t middle spills isMiddle
      obtain ⟨finish, isFinish, spillsFinish⟩ := ih spillsMiddle ran
      refine ⟨finish, ?_, spillsFinish⟩
      rw [List.flatten_cons, List.foldlM_append, exec_of_observe seen]
      exact isFinish

/-- A block that consists of pieces does what the other does, and is left like it. -/
theorem Matches.exec {env : Environment} {pieces : List (List Instr)} {loads : List Instr}
    {s t after : State} {exit : Exit} (same : Matches slotOf bound slots block relieved pieces loads)
    (spills : Spills slotOf bound slots s t) (ran : block.exec env s = some after)
    (exits : block.term.exit after = some exit) :
    ∃ finish, relieved.exec env t = some finish ∧ relieved.term.exit finish = some exit ∧
      Spills slotOf bound slots after finish := by
  obtain ⟨middle, isMiddle, spillsMiddle⟩ := exec_relays same.relays spills ran
  obtain ⟨finish, seen, exitsToo, spillsFinish⟩ :=
    same.ends env after middle exit spillsMiddle exits
  refine ⟨finish, ?_, exitsToo, spillsFinish⟩
  unfold Block.exec
  rw [same.instrs, List.foldlM_append, isMiddle]
  exact exec_of_observe seen

end Blocks

/-- Spilling keeps code fitting, and relieved code refines the code it relieves. -/
theorem Func.spill_sound {f relieved : Func} {spilled fresh : List Reg} (fits : f.Fits)
    (ok : (f.spill spilled).result = .ok (relieved, fresh)) :
    relieved.Fits ∧ f.slots ≤ relieved.slots ∧ f.Refines relieved := by
  obtain ⟨grown, slotOf, blocks, nextVirtual, _, slotMap, grows, areSpilled, rfl⟩ := Func.spill_eq_ok ok
  have relieves := matches_spillBlocks slotMap grows fits (Nat.le_refl _) areSpilled
  refine ⟨fits_spillBlocks slotMap grows fits (Nat.le_refl _) areSpilled, grows, ?_⟩
  intro env file memory slots count outcome ran
  have agree {s t : State} (spills : Spills slotOf f.nextVirtual f.slots s t) :
      State.Agree f.slots s t := ⟨spills.memory, spills.slots, spills.trace⟩
  have start : Spills slotOf f.nextVirtual f.slots (.initial file memory slots)
      (.initial file memory slots) := by
    refine Spills.refl_of_unwritten fun reg slot found => ?_
    cases reg with
    | physical phys => cases slotMap.virtual _ slot found
    | virtual number => rfl
    | spilled other => rfl
  have step : f.Simulates { grown with blocks, nextVirtual } env
      (fun _ => Spills slotOf f.nextVirtual f.slots) (Spills slotOf f.nextVirtual f.slots) := by
    intro block code s t isCode spills after exit ran exits
    obtain ⟨other, pieces, loads, isOther, same⟩ := relieves block code isCode
    obtain ⟨finish, isFinish, sameExit, spillsFinish⟩ := same.exec spills ran exits
    exact ⟨other, isOther, finish, isFinish, sameExit, spillsFinish, fun _ _ => spillsFinish⟩
  obtain ⟨other, ranOther, related⟩ := step.run start ran
  exact ⟨other, ranOther, related.imp (fun _ _ _ => agree) fun _ _ => agree⟩

/-- Where the piece of instruction `i` begins. -/
def boundary (pieces : List (List Instr)) (i : Nat) : Nat := (pieces.take i).flatten.length

section Runs

variable {f relieved : Func} {slotOf : RegMap Nat} {bound slots : Nat} {env : Environment}
  {pieces : Nat → List (List Instr)} {loads : Nat → List Instr}

theorem boundary_length {block other : Block} {pieces : List (List Instr)} {loads : List Instr}
    (same : Matches slotOf bound slots block other pieces loads) :
    boundary pieces block.instrs.length = pieces.flatten.length := by
  unfold boundary
  rw [same.relays.length_eq, List.take_length]

/-- The piece of an instruction leads from its boundary to the next one. -/
theorem steps_piece {block i : Nat} {code other : Block} {parts : List (List Instr)}
    {ends : List Instr} (isOther : relieved.blocks[block]? = some other)
    (same : Matches slotOf bound slots code other parts ends) {instr : Instr}
    (isInstr : code.instrs[i]? = some instr) {s t after : State}
    (spills : Spills slotOf bound slots s t) (ran : instr.exec env s = some after) :
    ∃ finish, relieved.Steps env slots ⟨block, boundary parts i, t⟩ (instr.accesses slots s)
      ⟨block, boundary parts (i + 1), finish⟩ ∧ Spills slotOf bound slots after finish := by
  obtain ⟨inside, rfl⟩ := List.getElem?_eq_some_iff.mp isInstr
  have insideParts : i < parts.length := same.relays.length_eq ▸ inside
  have relays := same.relays.get inside insideParts
  obtain ⟨finish, seen, spillsFinish⟩ := relays env s t after spills ran
  refine ⟨finish, ?_, spillsFinish⟩
  have found : other.instrs.drop (boundary parts i) =
      parts.get ⟨i, insideParts⟩ ++ ((parts.drop (i + 1)).flatten ++ ends) := by
    have split : parts.flatten = (parts.take i).flatten ++
        (parts.get ⟨i, insideParts⟩ ++ (parts.drop (i + 1)).flatten) := by
      rw [← List.flatten_cons, List.get_eq_getElem, ← List.drop_eq_getElem_cons insideParts,
        ← List.flatten_append, List.take_append_drop]
    rw [same.instrs, split, List.append_assoc, boundary, List.drop_left, List.append_assoc]
  have next : boundary parts (i + 1) =
      boundary parts i + (parts.get ⟨i, insideParts⟩).length := by
    unfold boundary
    rw [List.take_add_one, List.getElem?_eq_getElem insideParts, Option.toList_some,
      List.flatten_append, List.length_append, List.flatten_singleton]
    rfl
  rw [next]
  exact Func.steps_of_observe isOther found seen

theorem steps_loads {block : Nat} {code other : Block} {parts : List (List Instr)}
    {ends : List Instr} (isOther : relieved.blocks[block]? = some other)
    (same : Matches slotOf bound slots code other parts ends) {s t : State} {exit : Exit}
    (spills : Spills slotOf bound slots s t) (exits : code.term.exit s = some exit) :
    ∃ finish, relieved.Steps env slots ⟨block, boundary parts code.instrs.length, t⟩ []
      ⟨block, other.instrs.length, finish⟩ ∧ other.term.exit finish = some exit ∧
      Spills slotOf bound slots s finish := by
  obtain ⟨finish, seen, exitsToo, spillsFinish⟩ := same.ends env s t exit spills exits
  refine ⟨finish, ?_, exitsToo, spillsFinish⟩
  have found : other.instrs.drop parts.flatten.length = ends ++ [] := by
    rw [same.instrs, List.drop_left, List.append_nil]
  rw [boundary_length same, same.instrs, List.length_append]
  exact Func.steps_of_observe isOther found seen

/-- Relieved code follows every step. -/
theorem steps_relieved
    (blocks : ∀ block code, f.blocks[block]? = some code → ∃ other,
      relieved.blocks[block]? = some other ∧
        Matches slotOf bound slots code other (pieces block) (loads block))
    {first last : Config} {signals : List Signal} (steps : f.Steps env slots first signals last)
    {t : State} (spills : Spills slotOf bound slots first.state t) :
    ∃ finish, relieved.Steps env slots
        ⟨first.block, boundary (pieces first.block) first.position, t⟩ signals
        ⟨last.block, boundary (pieces last.block) last.position, finish⟩ ∧
      Spills slotOf bound slots last.state finish := by
  induction steps generalizing t with
  | stay config => exact ⟨t, .stay _, spills⟩
  | instr isCode isInstr ran _ ih =>
      obtain ⟨other, isOther, same⟩ := blocks _ _ isCode
      obtain ⟨middle, stepped, spillsMiddle⟩ := steps_piece isOther same isInstr spills ran
      obtain ⟨finish, rest, spillsFinish⟩ := ih spillsMiddle
      exact ⟨finish, stepped.trans rest, spillsFinish⟩
  | jump isCode exits _ ih =>
      obtain ⟨other, isOther, same⟩ := blocks _ _ isCode
      obtain ⟨middle, stepped, exitsToo, spillsMiddle⟩ := steps_loads isOther same spills exits
      obtain ⟨finish, rest, spillsFinish⟩ := ih spillsMiddle
      exact ⟨finish, stepped.trans (.jump isOther exitsToo rest), spillsFinish⟩

end Runs

section Success

theorem assignTemps_onlyOverflows (next : Nat) (slots : List Nat) :
    OnlyOverflows (assignTemps next slots) := by
  induction slots generalizing next with
  | nil => exact .ok _
  | cons slot rest ih =>
      exact (OnlyOverflows.add _ _ _).bind fun after _ =>
        (ih after).bind fun _ _ => .ok _

theorem Instr.spillPlain_onlyOverflows (instr : Instr) (next : Nat) :
    OnlyOverflows (instr.spillPlain next) :=
  (assignTemps_onlyOverflows _ _).bind fun _ _ =>
    (assignTemps_onlyOverflows _ _).bind fun _ _ => .ok _

theorem Instr.spill_onlyOverflows (instr : Instr) (next : Nat) :
    OnlyOverflows (instr.spill next) := by
  unfold Instr.spill
  split
  · split
    · exact .ok _
    · exact (OnlyOverflows.add _ _ _).bind fun _ _ => .ok _
  · exact .ok _
  · exact .ok _
  · exact .ok _
  · exact instr.spillPlain_onlyOverflows next

theorem spillInstrs_onlyOverflows (next : Nat) (instrs : List Instr) :
    OnlyOverflows (spillInstrs next instrs) := by
  induction instrs generalizing next with
  | nil => exact .ok _
  | cons instr rest ih =>
      exact (instr.spill_onlyOverflows next).bind fun first _ =>
        (ih first.next).bind fun _ _ => .ok _

theorem spillBlocks_onlyOverflows (next : Nat) (blocks : List Block) :
    OnlyOverflows (spillBlocks next blocks) := by
  induction blocks generalizing next with
  | nil => exact .ok _
  | cons block rest ih =>
      have first : OnlyOverflows (block.spill next) :=
        (spillInstrs_onlyOverflows _ _).bind fun _ _ =>
          (assignTemps_onlyOverflows _ _).bind fun _ _ => .ok _
      exact first.bind fun (_, _, middle) _ =>
        (ih middle).bind fun _ _ => .ok _

namespace Func

theorem assignSlots_onlyOverflows {spilled : List Reg}
    (notPhysical : ∀ reg ∈ spilled, reg.isPhysical = false) (f : Func) (slotOf : RegMap Nat) :
    OnlyOverflows (f.assignSlots slotOf spilled).result := by
  induction spilled generalizing f slotOf with
  | nil => exact .ok _
  | cons reg rest ih =>
      have later := ih fun other member =>
        notPhysical other (List.mem_cons_of_mem _ member)
      have grows : OnlyOverflows (Pass.lift f.newSlot).result :=
        (OnlyOverflows.add _ _ _).bind fun _ _ => .ok _
      cases reg with
      | physical phys => cases notPhysical _ List.mem_cons_self
      | _ =>
          exact grows.bindPass fun (grown, slot) _ =>
            OnlyOverflows.bindPass (.ok ()) fun _ _ => later grown _

theorem spill_onlyOverflows (f : Func) {spilled : List Reg}
    (notPhysical : ∀ reg ∈ spilled, reg.isPhysical = false) :
    OnlyOverflows (f.spill spilled).result := by
  refine (assignSlots_onlyOverflows notPhysical f ∅).bindPass fun (grown, slotOf) _ => ?_
  have relieves : OnlyOverflows (Pass.lift (spillBlocks grown.nextVirtual
      (grown.blocks.map (Block.mapRegs (markSpilled slotOf))))).result :=
    spillBlocks_onlyOverflows _ _
  exact relieves.bindPass fun _ _ => .ok _

/-- The registers of a list get the slots behind the frame, in order. -/
theorem getElem?_assignSlots {spilled : List Reg} {f g : Func} {slotOf after : RegMap Nat}
    (notPhysical : ∀ reg ∈ spilled, reg.isPhysical = false) (distinct : spilled.Nodup)
    (ok : (f.assignSlots slotOf spilled).result = .ok (g, after)) :
    (∀ (i : Nat) (reg : Reg), spilled[i]? = some reg → after[reg]? = some (f.slots + i)) ∧
      (∀ reg ∉ spilled, after[reg]? = slotOf[reg]?) ∧ g.slots = f.slots + spilled.length := by
  induction spilled generalizing f slotOf with
  | nil =>
      cases ok
      exact ⟨fun i reg found => (by cases found), fun _ _ => rfl, rfl⟩
  | cons first rest ih =>
      obtain ⟨notInRest, distinct⟩ := List.nodup_cons.mp distinct
      obtain ⟨listed, other, grows⟩ := ih
        (fun reg member => notPhysical reg (List.mem_cons_of_mem _ member)) distinct
        (assignSlots_cons (notPhysical first List.mem_cons_self) ok)
      refine ⟨fun i reg found => ?_, fun reg absent => ?_, ?_⟩
      · cases i with
        | zero =>
            cases found
            rw [other first notInRest, SlotMap.getElem?_insert, if_pos rfl]
            rfl
        | succ i =>
            rw [listed i reg found]
            exact congrArg some (by dsimp only; omega)
      · obtain ⟨different, absent⟩ := not_or.mp (List.mem_cons.not.mp absent)
        rw [other reg absent, SlotMap.getElem?_insert, if_neg different]
      · rw [grows, List.length_cons]
        dsimp only
        omega

end Func

end Success

section Start

variable {slotOf : RegMap Nat} {bound slots : Nat}

/-- Every state has one that holds the spilled registers in their slots. -/
theorem Spills.exists_of_slots {spilled : List Reg}
    (listed : ∀ (i : Nat) (reg : Reg), spilled[i]? = some reg → slotOf[reg]? = some (slots + i))
    (other : ∀ reg ∉ spilled, slotOf[reg]? = none) (s : State) :
    ∃ t, Spills slotOf bound slots s t := by
  refine ⟨{ s with slots := fun slot => if slot < slots then s.slots slot else
    ((spilled[slot - slots]?).bind s.read).getD 0 }, ⟨fun _ _ _ _ holds => holds, ?_, ?_, rfl, rfl⟩⟩
  · intro reg slot found word holds
    have member : reg ∈ spilled := by
      by_contra absent
      rw [other reg absent] at found
      cases found
    obtain ⟨i, isReg⟩ := List.mem_iff_getElem?.mp member
    rw [listed i reg isReg] at found
    obtain rfl := Option.some.inj found
    dsimp only
    rw [if_neg (by omega), Nat.add_sub_cancel_left, isReg, Option.bind_some, holds,
      Option.getD_some]
  · intro slot inside
    exact if_pos inside

end Start

namespace Func

/-- Code follows other code step by step.  Its blocks are cut into pieces, one for each instruction,
and `slotOf` tells where it holds the registers that it keeps in slots behind the frame. -/
structure RelievedBy (f relieved : Func) (slotOf : RegMap Nat)
    (pieces : Nat → List (List Instr)) : Prop where
  cut : ∀ block code, f.blocks[block]? = some code → ∃ other loads,
    relieved.blocks[block]? = some other ∧ other.instrs = (pieces block).flatten ++ loads ∧
      (pieces block).length = code.instrs.length
  steps : ∀ env block i s t, Spills slotOf f.nextVirtual f.slots s t →
    ∀ signals target j after, f.Steps env f.slots ⟨block, i, s⟩ signals ⟨target, j, after⟩ →
      ∃ finish, relieved.Steps env f.slots ⟨block, boundary (pieces block) i, t⟩ signals
          ⟨target, boundary (pieces target) j, finish⟩ ∧
        Spills slotOf f.nextVirtual f.slots after finish
  returns : ∀ env block i s t, Spills slotOf f.nextVirtual f.slots s t →
    ∀ signals result returnAddress after,
      f.ReturnsFrom env f.slots ⟨block, i, s⟩ signals result returnAddress after →
      ∃ finish, relieved.ReturnsFrom env f.slots ⟨block, boundary (pieces block) i, t⟩ signals
          result returnAddress finish ∧
        Spills slotOf f.nextVirtual f.slots after finish

theorem relievedBy_of_matches {f relieved : Func} {slotOf : RegMap Nat}
    {pieces : Nat → List (List Instr)} {loads : Nat → List Instr}
    (blocks : ∀ block code, f.blocks[block]? = some code → ∃ other,
      relieved.blocks[block]? = some other ∧
        Matches slotOf f.nextVirtual f.slots code other (pieces block) (loads block)) :
    f.RelievedBy relieved slotOf pieces where
  cut block code isCode := by
    obtain ⟨other, isOther, same⟩ := blocks block code isCode
    exact ⟨other, loads block, isOther, same.instrs, same.relays.length_eq.symm⟩
  steps _ _ _ _ _ spills _ _ _ _ steps := steps_relieved blocks steps spills
  returns env block i s t spills signals result returnAddress after returns := by
    obtain ⟨last, code, isCode, steps, exits⟩ := returns
    obtain ⟨other, isOther, same⟩ := blocks last code isCode
    obtain ⟨middle, stepped, spillsMiddle⟩ := steps_relieved blocks steps spills
    obtain ⟨finish, loaded, exitsToo, spillsFinish⟩ := steps_loads isOther same spillsMiddle exits
    refine ⟨finish, ⟨last, other, isOther, ?_, exitsToo⟩, spillsFinish⟩
    rw [← List.append_nil signals]
    exact stepped.trans loaded

/-- Spilling gives code that keeps register `i` of the list in slot `i` behind the frame and follows
the function step by step, from every state. -/
theorem spill_steps (f : Func) (spilled : List Reg) (fits : f.Fits)
    (virtual : ∀ reg ∈ spilled, ∃ number, reg = .virtual number) (distinct : spilled.Nodup)
    (room : (f.spill spilled).result ≠ .error .addOverflow) :
    ∃ relieved fresh slotOf pieces, (f.spill spilled).result = .ok (relieved, fresh) ∧
      (∀ (i : Nat) (reg : Reg), spilled[i]? = some reg → slotOf[reg]? = some (f.slots + i)) ∧
      (∀ reg ∉ spilled, slotOf[reg]? = none) ∧
      (∀ s, ∃ t, Spills slotOf f.nextVirtual f.slots s t) ∧
      (∀ s, (∀ reg ∈ spilled, s.read reg = none) → Spills slotOf f.nextVirtual f.slots s s) ∧
      f.RelievedBy relieved slotOf pieces := by
  have notPhysical : ∀ reg ∈ spilled, reg.isPhysical = false := by
    intro reg member
    obtain ⟨number, rfl⟩ := virtual reg member
    rfl
  obtain ⟨⟨relieved, fresh⟩, ok⟩ := (f.spill_onlyOverflows notPhysical).exists_ok room
  obtain ⟨⟨grown, slotOf⟩, isGrown, rest⟩ := Pass.result_bind_eq_ok.mp ok
  obtain ⟨⟨blocks, freshRegs, nextVirtual⟩, areBlocks, rest⟩ := Pass.result_bind_eq_ok.mp rest
  cases rest
  obtain ⟨slotMap, grows, sameBlocks, sameNext⟩ :=
    assignSlots_eq_ok (SlotMap.empty f.slots) (Nat.le_refl _) isGrown
  obtain ⟨listed, other, _⟩ := getElem?_assignSlots notPhysical distinct isGrown
  have areSpilled : spillBlocks f.nextVirtual (f.blocks.map (Block.mapRegs (markSpilled slotOf))) =
      .ok (blocks, fresh, nextVirtual) := by
    rw [← sameBlocks, ← sameNext]
    exact areBlocks
  have relieves := matches_spillBlocks slotMap grows fits (Nat.le_refl _) areSpilled
  have cut : ∀ block : Nat, ∃ pieces loads, ∀ code, f.blocks[block]? = some code →
      ∃ other, blocks[block]? = some other ∧
        Matches slotOf f.nextVirtual f.slots code other pieces loads := by
    intro block
    cases isCode : f.blocks[block]? with
    | none => exact ⟨[], [], nofun⟩
    | some code =>
        obtain ⟨other, pieces, loads, isOther, same⟩ := relieves block code isCode
        refine ⟨pieces, loads, fun found isFound => ?_⟩
        obtain rfl := Option.some.inj isFound
        exact ⟨other, isOther, same⟩
  choose pieces loads areMatched using cut
  refine ⟨_, fresh, slotOf, pieces, ok, listed, other, Spills.exists_of_slots listed other,
    fun s unwritten => ?_, relievedBy_of_matches areMatched⟩
  refine Spills.refl_of_unwritten fun reg slot found => unwritten reg ?_
  by_contra absent
  rw [other reg absent] at found
  cases found

/-- Doubles a number and tests it, with a register that is read twice and written again. -/
def doubling : Func :=
  { name := "doubling"
    blocks :=
      [⟨"entry", [.li (.virtual 0) 21, .alu .add (.virtual 0) (.virtual 0) (.virtual 0),
        .store (.virtual 0) (.slot 0)], .branch .bne (.virtual 0) (.physical .zero) 1 1⟩,
      ⟨"done", [.move (.virtual 1) (.virtual 0)], .ret⟩]
    slots := 1
    nextVirtual := 2 }

theorem spill_steps_doubling :
    doubling.Fits ∧ ∃ relieved fresh slotOf pieces,
      (doubling.spill [.virtual 1, .virtual 0]).result = .ok (relieved, fresh) ∧
      slotOf[Reg.virtual 0]? = some 2 ∧ doubling.RelievedBy relieved slotOf pieces := by
  have fits : doubling.Fits := by decide
  have room : (doubling.spill [.virtual 1, .virtual 0]).result ≠ .error .addOverflow := by
    intro stopped
    have evaluated : (doubling.spill [.virtual 1, .virtual 0]).result.map Prod.snd =
        .ok [.virtual 2, .virtual 4, .virtual 3, .virtual 5, .virtual 6, .virtual 7] := by cbv
    rw [stopped] at evaluated
    cases evaluated
  obtain ⟨relieved, fresh, slotOf, pieces, ok, listed, _, _, _, relieves⟩ :=
    spill_steps doubling [.virtual 1, .virtual 0] fits (by simp) (by decide) room
  exact ⟨fits, relieved, fresh, slotOf, pieces, ok, listed 1 _ rfl, relieves⟩

/-- Has a single number left for fresh registers. -/
def exhausted : Func :=
  { name := "exhausted"
    blocks := [⟨"entry", [.li (.virtual 0) 1], .ret⟩]
    slots := 0
    nextVirtual := 4294967295 }

/-- Spill code may need more numbers for registers than there are. -/
theorem spill_overflows_exhausted :
    exhausted.Fits ∧ (exhausted.spill [.virtual 0]).result = .error .addOverflow :=
  ⟨by decide, by cbv⟩

end Func

end Lowering.Machine
