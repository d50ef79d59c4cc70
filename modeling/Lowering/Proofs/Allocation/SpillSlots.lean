import Lowering.Proofs.Allocation.OneRound
import Lowering.Proofs.Allocation.SpillSteps

/-!
# The slots of spilled registers

Over all rounds, spilled registers get the slots behind the frame one after the other.  So they never
share a slot, and they keep clear of the slots that the function itself accesses exactly if these are
slots of its frame: the frame is not grown past the slots that are accessed.
-/

namespace Lowering.Machine

namespace Func

/-- The slots that the loads and stores of a function access. -/
def slotAccesses (f : Func) : List Nat := f.blocks.flatMap fun block => block.instrs.filterMap Instr.slot?

end Func

namespace Allocator

/-- The registers that at most `left` rounds spill, with the slots they get. -/
def slotsOfRounds (allocator : Allocator) (f : Func) : Nat → List (Reg × Nat)
  | 0 => []
  | left + 1 =>
      match (allocator.round f).result with
      | .error _ => []
      | .ok attempt =>
          if attempt.coloring.spilled.isEmpty then []
          else
            match (f.assignSlots ∅ attempt.coloring.spilled).result,
              (f.spill attempt.coloring.spilled).result with
            | .ok (_, slotOf), .ok (relieved, _) =>
                attempt.coloring.spilled.filterMap
                    (fun reg => (slotOf.get? reg).map fun slot => (reg, slot)) ++
                  allocator.slotsOfRounds relieved left
            | _, _ => []

/-- The registers that an allocation spills, with the slots they get. -/
def slotsHanded (allocator : Allocator) (f : Func) : List (Reg × Nat) :=
  match f.reserveVirtuals with
  | .error _ => []
  | .ok reserved => allocator.slotsOfRounds reserved allocator.maxRounds

end Allocator

/-! ## Accesses are kept -/

section Accesses

variable {next slot : Nat} {instrs : List Instr} {blocks : List Block}

theorem Instr.access_spill {instr : Instr} {out : SpillCode} (access : instr.slot? = some slot)
    (ok : instr.spill next = .ok out) :
    slot ∈ out.instrs.filterMap Instr.slot? := by
  have plain : instr.spillPlain next = .ok out := by
    cases instr <;> first | exact ok | cases access
  obtain ⟨⟨loaded, _⟩, _, plain⟩ := bind_eq_ok.mp plain
  obtain ⟨⟨stored, _⟩, _, plain⟩ := bind_eq_ok.mp plain
  cases plain
  refine List.mem_filterMap.mpr ⟨_, List.mem_append_right _ List.mem_cons_self, ?_⟩
  rw [Instr.slot?_mapOperands, access]

theorem access_spillInstrs {out : SpillCode} (access : slot ∈ instrs.filterMap Instr.slot?)
    (ok : spillInstrs next instrs = .ok out) :
    slot ∈ out.instrs.filterMap Instr.slot? := by
  obtain ⟨pieces, same, related⟩ := spillInstrs_pieces ok
  obtain ⟨instr, isInstr, isSlot⟩ := List.mem_filterMap.mp access
  obtain ⟨piece, isPiece, start, code, _, isCode, _, rfl⟩ := exists_of_forall₂_left related isInstr
  obtain ⟨part, isPart, touches⟩ := List.mem_filterMap.mp (Instr.access_spill isSlot isCode)
  rw [same]
  exact List.mem_filterMap.mpr ⟨part, List.mem_flatten_of_mem isPiece isPart, touches⟩

theorem access_spillBlocks {out : List Block} {last : Nat} {fresh : List Reg}
    (access : slot ∈ blocks.flatMap fun block => block.instrs.filterMap Instr.slot?)
    (ok : spillBlocks next blocks = .ok (out, fresh, last)) :
    slot ∈ out.flatMap fun block => block.instrs.filterMap Instr.slot? := by
  obtain ⟨block, isBlock, here⟩ := List.mem_flatMap.mp access
  obtain ⟨other, isOther, start, handed, finish, _, isSpilled, _⟩ :=
    exists_of_forall₂_left (spillBlocks_pieces ok) isBlock
  refine List.mem_flatMap.mpr ⟨other, isOther, ?_⟩
  obtain ⟨code, isCode, isSpilled⟩ := bind_eq_ok.mp isSpilled
  obtain ⟨⟨loaded, _⟩, _, isSpilled⟩ := bind_eq_ok.mp isSpilled
  cases isSpilled
  rw [List.filterMap_append]
  exact List.mem_append_left _ (access_spillInstrs here isCode)

variable {f : Func} {colors : RegMap PhysReg} {slot : Nat}

/-- Coloring drops no access, since only copies are merged. -/
theorem access_colorInstrs {isMerged : Nat → Bool} {frameEmpty : Bool} {index dropped : Nat}
    {code : List Instr}
    (merged : ∀ i instr, instrs[i]? = some instr → isMerged (index + i) = true → instr.slot? = none)
    (access : slot ∈ instrs.filterMap Instr.slot?)
    (ok : f.colorInstrs colors isMerged frameEmpty index instrs = .ok (code, dropped)) :
    slot ∈ code.filterMap Instr.slot? := by
  induction instrs generalizing index code dropped with
  | nil => cases access
  | cons instr rest ih =>
      have mergedRest : ∀ i instr, rest[i]? = some instr → isMerged (index + 1 + i) = true →
          instr.slot? = none := by
        intro i other found isMergedHere
        rw [Nat.add_right_comm] at isMergedHere
        exact merged (i + 1) other found isMergedHere
      obtain ⟨other, member, isSlot⟩ := List.mem_filterMap.mp access
      rw [Func.colorInstrs] at ok
      split at ok
      · next isMergedHere =>
          rcases List.mem_cons.mp member with rfl | inRest
          · rw [merged 0 other rfl isMergedHere] at isSlot
            cases isSlot
          · exact ih mergedRest (List.mem_filterMap.mpr ⟨other, inRest, isSlot⟩) ok
      · obtain ⟨_, _, ok⟩ := bind_eq_ok.mp ok
        obtain ⟨⟨later, droppedLater⟩, isLater, ok⟩ := bind_eq_ok.mp ok
        cases ok
        rw [List.filterMap_append, List.mem_append]
        rcases List.mem_cons.mp member with rfl | inRest
        · left
          have kept : (tidy frameEmpty (other.mapRegs (painted colors))).1 =
              [other.mapRegs (painted colors)] := by
            cases other <;> first | rfl | cases isSlot
          change slot ∈ (tidy frameEmpty (other.mapRegs (painted colors))).1.filterMap Instr.slot?
          rw [kept, List.mem_filterMap]
          exact ⟨_, List.mem_singleton_self _, Instr.slot?_mapOperands.trans isSlot⟩
        · exact .inr (ih mergedRest
            (List.mem_filterMap.mpr ⟨other, inRest, isSlot⟩) isLater)

theorem access_colorBlocks {sites : List (Nat × Nat)} {frameEmpty : Bool} {index dropped : Nat}
    {out : List Block}
    (merged : ∀ b block, blocks[b]? = some block → ∀ i instr, block.instrs[i]? = some instr →
      (index + b, i) ∈ sites → instr.slot? = none)
    (access : slot ∈ blocks.flatMap fun block => block.instrs.filterMap Instr.slot?)
    (ok : f.colorBlocks colors sites frameEmpty index blocks = .ok (out, dropped)) :
    slot ∈ out.flatMap fun block => block.instrs.filterMap Instr.slot? := by
  induction blocks generalizing index out dropped with
  | nil => cases access
  | cons block rest ih =>
      obtain ⟨⟨instrs, droppedHere⟩, isHere, ok⟩ := bind_eq_ok.mp ok
      obtain ⟨_, _, ok⟩ := bind_eq_ok.mp ok
      obtain ⟨⟨later, droppedLater⟩, isLater, ok⟩ := bind_eq_ok.mp ok
      cases ok
      rw [List.flatMap_cons, List.mem_append]
      rw [List.flatMap_cons, List.mem_append] at access
      rcases access with here | inRest
      · refine .inl (access_colorInstrs (fun i instr found isMerged => ?_) here isHere)
        rw [Nat.zero_add, List.contains_iff_mem] at isMerged
        exact merged 0 block rfl i instr found isMerged
      · refine .inr (ih (fun b other found i instr isInstr site => ?_) inRest isLater)
        rw [Nat.add_right_comm] at site
        exact merged (b + 1) other found i instr isInstr site

theorem settled_of_instrObjection? {label : String} {instr : Instr} (arity : instr.arity = .ok ())
    (quiet : f.instrObjection? label instr = none) : instr.Settled f.slots := by
  unfold Func.instrObjection? at quiet
  split at quiet
  · cases quiet
  · next notFound =>
      refine ⟨arity, ?_, fun slot isSlot => ?_⟩
      · simpa only [List.find?_eq_none, Bool.not_eq_true', Bool.not_eq_false] using notFound
      · rw [isSlot] at quiet
        dsimp only at quiet
        by_contra outside
        rw [if_neg outside] at quiet
        cases quiet

theorem settled_of_checkInstrs {label : String}
    (passes : f.checkInstrs label instrs = .ok (.ok ())) : ∀ instr ∈ instrs, instr.Settled f.slots := by
  induction instrs with
  | nil => exact fun _ member => absurd member List.not_mem_nil
  | cons instr rest ih =>
      obtain ⟨_, arity, passes⟩ := bind_eq_ok.mp passes
      split at passes
      · cases passes
      · next quiet =>
          intro other member
          rcases List.mem_cons.mp member with rfl | inRest
          · exact settled_of_instrObjection? arity quiet
          · exact ih passes other inRest

theorem settled_of_checkBlocks (passes : f.checkBlocks blocks = .ok (.ok ())) :
    ∀ block ∈ blocks, block.Settled f.slots := by
  induction blocks with
  | nil => exact fun _ member => absurd member List.not_mem_nil
  | cons block rest ih =>
      obtain ⟨verdict, isVerdict, passes⟩ := bind_eq_ok.mp passes
      cases verdict with
      | error objection => cases passes
      | ok passed =>
          dsimp only at passes
          split at passes
          · cases passes
          · next quiet =>
              intro other member
              rcases List.mem_cons.mp member with rfl | inRest
              · refine ⟨settled_of_checkInstrs isVerdict, ?_⟩
                simpa only [Func.termObjection?, Option.map_eq_none_iff, List.find?_eq_none,
                  Bool.not_eq_true', Bool.not_eq_false] using quiet
              · exact ih passes other inRest

theorem lt_of_checkBlocks (passes : f.checkBlocks blocks = .ok (.ok ()))
    (access : slot ∈ blocks.flatMap fun block => block.instrs.filterMap Instr.slot?) :
    slot < f.slots := by
  obtain ⟨block, isBlock, inBlock⟩ := List.mem_flatMap.mp access
  obtain ⟨instr, isInstr, isSlot⟩ := List.mem_filterMap.mp inBlock
  exact ((settled_of_checkBlocks passes block isBlock).instrs instr isInstr).framed slot isSlot

end Accesses

/-! ## Slots are handed out in order -/

namespace Func

theorem filterMap_eq_zipIdx {α : Type} {list : List α} {place : α → Option (α × Nat)} {first : Nat}
    (each : ∀ (i : Nat) (a : α), list[i]? = some a → place a = some (a, first + i)) :
    list.filterMap place = list.zipIdx first := by
  induction list generalizing first with
  | nil => rfl
  | cons head rest ih =>
      rw [List.filterMap_cons, each 0 head rfl, List.zipIdx_cons]
      refine congrArg _ (ih fun i a found => ?_)
      rw [each (i + 1) a found, Nat.add_right_comm, Nat.add_assoc]

theorem filterMap_assignSlots {f grown : Func} {spilled : List Reg} {slotOf : RegMap Nat}
    (notPhysical : ∀ reg ∈ spilled, reg.isPhysical = false) (distinct : spilled.Nodup)
    (ok : (f.assignSlots ∅ spilled).result = .ok (grown, slotOf)) :
    (spilled.filterMap fun reg => (slotOf.get? reg).map fun slot => (reg, slot)) =
      spilled.zipIdx f.slots := by
  obtain ⟨listed, _, _⟩ := getElem?_assignSlots notPhysical distinct ok
  refine filterMap_eq_zipIdx fun i reg found => ?_
  rw [Std.TreeMap.get?_eq_getElem?, listed i reg found]
  rfl

theorem slots_spill {f relieved : Func} {spilled fresh : List Reg}
    (ok : (f.spill spilled).result = .ok (relieved, fresh)) :
    relieved.slots = f.slots + spilled.length ∧
      (∃ grown slotOf, (f.assignSlots ∅ spilled).result = .ok (grown, slotOf)) ∧
      ∀ slot ∈ f.slotAccesses, slot ∈ relieved.slotAccesses := by
  obtain ⟨grown, slotOf, blocks, nextVirtual, isGrown, _, _, areSpilled, rfl⟩ := spill_eq_ok ok
  have grows := f.slots_assignSlots isGrown
  refine ⟨grows, ⟨grown, slotOf, isGrown⟩, fun slot access => access_spillBlocks ?_ areSpilled⟩
  rw [List.flatMap_map]
  obtain ⟨block, isBlock, inBlock⟩ := List.mem_flatMap.mp access
  obtain ⟨instr, isInstr, isSlot⟩ := List.mem_filterMap.mp inBlock
  exact List.mem_flatMap.mpr ⟨block, isBlock, List.mem_filterMap.mpr
    ⟨_, List.mem_map_of_mem isInstr, Instr.slot?_mapOperands.trans isSlot⟩⟩

end Func

namespace Allocator

variable {allocator : Allocator} {f allocated : Func} {liveness : Liveness f.blocks.length}
  {report final : AllocationReport}

/-- A round spills registers that are not physical, each once. -/
theorem nodup_spilled (distinct : allocator.pool.Nodup) (found : f.liveness = .ok liveness) :
    (allocator.finished liveness).assignColors.spilled.Nodup ∧
      ∀ reg ∈ (allocator.finished liveness).assignColors.spilled, reg.isPhysical = false := by
  obtain ⟨consistent, _⟩ := allocator.consistent_finished found
  have invariant := consistent.invariant
  rw [Round.spilled_assignColors]
  have sub := (invariant.colored (consistent.pool ▸ distinct)).spilled
  exact ⟨sub.nodup invariant.stack_nodup,
    fun reg spilled => invariant.stacked_not_physical (sub.subset spilled)⟩

theorem isMove_of_mergedSites (found : f.liveness = .ok liveness) {b i : Nat} {block : Block}
    {instr : Instr} (isBlock : f.blocks[b]? = some block) (isInstr : block.instrs[i]? = some instr)
    (site : (b, i) ∈ (allocator.finished liveness).mergedSites) : instr.isMove = true := by
  obtain ⟨consistent, _⟩ := allocator.consistent_finished found
  obtain ⟨move, _, isSite⟩ := List.mem_map.mp site
  rw [consistent.moves, Table.get_tabulate] at isSite
  have member : (allocator.movesOf liveness).get move ∈ liveness.moves :=
    mem_moves_of_mem_movesOf (List.get_mem _ _)
  generalize (allocator.movesOf liveness).get move = copy at isSite member
  obtain ⟨rfl, rfl⟩ := Prod.mk.inj isSite
  rw [(Func.liveness_eq_ok found).2.2] at member
  obtain ⟨code, isCode, isMove, _, _⟩ := Func.getElem?_of_mem_moves member
  rw [isBlock] at isCode
  cases isCode
  rw [isInstr] at isMove
  cases isMove
  rfl

/-- Rounds hand out the slots behind the frame in order, add as many to the frame, and keep the
accesses of the function. -/
theorem slots_rounds (distinct : allocator.pool.Nodup) {left : Nat}
    (ok : (allocator.rounds f report left).result = .ok (allocated, final)) :
    ∃ count, final.spilled = report.spilled + count ∧ allocated.slots = f.slots + count ∧
      (allocator.slotsOfRounds f left).map Prod.snd = List.range' f.slots count ∧
      ∀ slot ∈ f.slotAccesses, slot ∈ allocated.slotAccesses := by
  induction left generalizing f report with
  | zero => cases ok
  | succ left ih =>
      obtain ⟨liveness, found, ⟨noSpill, counted, _, isColored⟩ |
        ⟨spills, relieved, _, _, isRelieved, spilled, ok⟩⟩ := rounds_succ_eq_ok ok
      · rw [slotsOfRounds, allocator.round_of_liveness found, attempt_eq]
        dsimp only
        rw [noSpill]
        obtain ⟨frame, _, isColored⟩ := bind_eq_ok.mp isColored
        obtain ⟨⟨blocks, dropped⟩, areBlocks, isColored⟩ := bind_eq_ok.mp isColored
        cases isColored
        refine ⟨0, counted, rfl, rfl, fun slot access => access_colorBlocks ?_ access areBlocks⟩
        intro b block isBlock i instr isInstr site
        rw [Nat.zero_add] at site
        have isMove := isMove_of_mergedSites found isBlock isInstr site
        cases instr <;> cases isMove
        rfl
      · obtain ⟨nodup, notPhysical⟩ := nodup_spilled distinct found
        obtain ⟨grows, ⟨grown, slotOf, isGrown⟩, keeps⟩ := Func.slots_spill isRelieved
        obtain ⟨count, counted, allocatedSlots, handed, keepsLater⟩ := ih ok
        rw [slotsOfRounds, allocator.round_of_liveness found, attempt_eq]
        dsimp only
        rw [if_neg (by simpa using spills), isRelieved, isGrown]
        refine ⟨(allocator.finished liveness).assignColors.spilled.length + count, ?_, ?_, ?_,
          fun slot access => keepsLater slot (keeps slot access)⟩
        · rw [counted, spilled, Nat.add_assoc]
        · rw [allocatedSlots, grows, Nat.add_assoc]
        · dsimp only
          rw [List.map_append, handed, Func.filterMap_assignSlots notPhysical nodup isGrown,
            List.zipIdx_map_snd, grows, List.range'_append_1]

/-- An allocation that returns has been through its rounds and passed the check. -/
theorem allocate_eq_ok (done : (allocator.allocate f).result = .ok (allocated, report)) :
    ∃ reserved, f.reserveVirtuals = .ok reserved ∧
      (allocator.rounds reserved ⟨0, 0, 0, 0⟩ allocator.maxRounds).result = .ok (allocated, report) ∧
      allocated.checkAllocated = .ok (.ok ()) := by
  obtain ⟨regs, _, done⟩ := Pass.result_bind_eq_ok.mp done
  split at done
  · cases done
  · obtain ⟨reserved, isReserved, done⟩ := Pass.result_bind_eq_ok.mp done
    obtain ⟨⟨code, final⟩, isCode, done⟩ := Pass.result_bind_eq_ok.mp done
    obtain ⟨verdict, isVerdict, done⟩ := Pass.result_bind_eq_ok.mp done
    cases verdict with
    | error objection => cases done
    | ok passed =>
        obtain ⟨frame, _, done⟩ := Pass.result_bind_eq_ok.mp done
        obtain ⟨_, _, done⟩ := Pass.result_bind_eq_ok.mp done
        cases done
        exact ⟨reserved, isReserved, isCode, isVerdict⟩

/-- The slots that an allocation hands to spilled registers are the ones behind the frame, in order and
without repetition, and the frame grows by as many.  None of them is a slot that the function itself
accesses exactly if all of these are slots of its frame. -/
theorem allocate_slots (allocator : Allocator) (distinct : allocator.pool.Nodup) (f allocated : Func)
    (report : AllocationReport) (done : (allocator.allocate f).result = .ok (allocated, report)) :
    (allocator.slotsHanded f).map Prod.snd = List.range' f.slots report.spilled ∧
      ((allocator.slotsHanded f).map Prod.snd).Nodup ∧
      allocated.slots = f.slots + report.spilled ∧
      ((∀ slot ∈ (allocator.slotsHanded f).map Prod.snd, slot ∉ f.slotAccesses) ↔
        ∀ slot ∈ f.slotAccesses, slot < f.slots) := by
  obtain ⟨reserved, isReserved, isCode, passes⟩ := allocate_eq_ok done
  obtain ⟨sameBlocks, sameSlots, _⟩ := Func.reserveVirtuals_eq_ok isReserved
  obtain ⟨count, counted, grows, handed, keeps⟩ := slots_rounds distinct isCode
  rw [Nat.zero_add] at counted
  have isHanded : (allocator.slotsHanded f).map Prod.snd = List.range' f.slots report.spilled := by
    rw [slotsHanded, isReserved]
    dsimp only
    rw [handed, sameSlots, counted]
  have grown : allocated.slots = f.slots + report.spilled := by rw [grows, sameSlots, counted]
  have inside : ∀ slot ∈ f.slotAccesses, slot < f.slots + report.spilled := by
    intro slot access
    rw [← grown]
    refine lt_of_checkBlocks passes (keeps slot ?_)
    rwa [Func.slotAccesses, sameBlocks]
  rw [isHanded]
  refine ⟨rfl, List.nodup_range', grown, fun apart slot access => ?_, fun below slot handed access => ?_⟩
  · by_contra behind
    exact apart slot (List.mem_range'_1.mpr ⟨Nat.not_lt.mp behind, inside slot access⟩) access
  · exact Nat.not_lt.mpr (List.mem_range'_1.mp handed).1 (below slot access)

end Allocator

/-- Keeps a number in a slot while it stores another one, with a frame of so many slots. -/
def Func.keeping (slots : Nat) : Func :=
  { name := "keeping"
    blocks := [⟨"entry",
      [.li (.virtual 0) 7, .store (.virtual 0) (.slot 0), .li (.virtual 1) 1, .li (.virtual 2) 20,
        .li (.virtual 3) 300, .alu .add (.virtual 2) (.virtual 2) (.virtual 3),
        .store (.virtual 1) (.based (.virtual 2) 0), .load resultReg (.slot 0)], .ret⟩]
    slots
    nextVirtual := 0 }

theorem Allocator.allocate_slots_keeping :
    ∃ allocated report,
      (Allocator.allocate ⟨[.temp 0, .temp 1], true, 2⟩ (Func.keeping 1)).result =
        .ok (allocated, report) ∧
      report.spilled = 1 ∧ allocated.slots = 2 ∧
      ∀ slot ∈ (Allocator.slotsHanded ⟨[.temp 0, .temp 1], true, 2⟩ (Func.keeping 1)).map Prod.snd,
        slot ∉ (Func.keeping 1).slotAccesses := by
  have evaluated : (Allocator.allocate ⟨[.temp 0, .temp 1], true, 2⟩ (Func.keeping 1)).result.map
      Prod.snd = .ok ⟨2, 1, 0, 0⟩ := by cbv
  cases done : (Allocator.allocate ⟨[.temp 0, .temp 1], true, 2⟩ (Func.keeping 1)).result with
  | error fault =>
      rw [done] at evaluated
      cases evaluated
  | ok result =>
      obtain ⟨allocated, report⟩ := result
      rw [done] at evaluated
      cases evaluated
      obtain ⟨_, _, grown, apart⟩ := Allocator.allocate_slots ⟨[.temp 0, .temp 1], true, 2⟩ (by decide)
        _ _ _ done
      exact ⟨allocated, _, rfl, rfl, grown, apart.mpr (by decide)⟩

/-- Without a slot in the frame, a spilled register gets the one that the function itself accesses, and
the check does not notice. -/
theorem Allocator.allocate_slots_clash :
    Allocator.slotsHanded ⟨[.temp 0, .temp 1], true, 2⟩ (Func.keeping 0) = [(.virtual 1, 0)] ∧
      0 ∈ (Func.keeping 0).slotAccesses ∧
      ((Allocator.allocate ⟨[.temp 0, .temp 1], true, 2⟩ (Func.keeping 0)).result.map
        fun (allocated, report) => (allocated.slots, report)) = .ok (1, ⟨2, 1, 0, 0⟩) :=
  ⟨by cbv, by decide, by cbv⟩

end Lowering.Machine
