import Lowering.Proofs.Allocation.ShortRanges

/-!
# Spill code is sheltered

A function has room for spill code if at every instruction the pool has a register for each virtual
register that is read there, beside those that are live, and one for the virtual register that is
written.  If moreover registers that are live at the same time interfere, then the registers handed out
for spill code are sheltered in the interference graph, however many registers have been spilled.
-/

namespace Lowering.Machine

/-! ## Blocks by number -/

theorem EasedBlocks.exists_parts {gone temps : List Reg} {blocks others : List Block}
    (eased : EasedBlocks gone blocks temps others) :
    others.length = blocks.length ∧ ∃ parts : List (List Reg), parts.length = blocks.length ∧
      parts.flatten = temps ∧ ∀ (i : Nat) (block : Block), blocks[i]? = some block → ∃ part relieved,
        parts[i]? = some part ∧ others[i]? = some relieved ∧ block.Eased gone part relieved := by
  induction eased with
  | nil => exact ⟨rfl, [], rfl, rfl, fun i block found => by cases found⟩
  | @cons block relieved rest others temps later first _ ih =>
      obtain ⟨sameLength, parts, partsLength, isFlat, areEased⟩ := ih
      refine ⟨congrArg (· + 1) sameLength, temps :: parts, congrArg (· + 1) partsLength, ?_,
        fun i other found => ?_⟩
      · rw [List.flatten_cons, isFlat]
      · cases i with
        | zero =>
            cases found
            exact ⟨temps, relieved, rfl, rfl, first⟩
        | succ i => exact areEased i other found

theorem mem_getD_nil {α : Type} {lists : List (List α)} {i : Nat} {a : α} :
    a ∈ (lists[i]?).getD [] ↔ ∃ list, lists[i]? = some list ∧ a ∈ list := by
  cases lists[i]? <;> simp

theorem eq_of_mem_of_mem {α : Type} {lists : List (List α)} (nodup : lists.flatten.Nodup) {i j : Nat}
    {first second : List α} {a : α} (isFirst : lists[i]? = some first)
    (isSecond : lists[j]? = some second) (inFirst : a ∈ first) (inSecond : a ∈ second) : i = j := by
  obtain ⟨insideI, rfl⟩ := List.getElem?_eq_some_iff.mp isFirst
  obtain ⟨insideJ, rfl⟩ := List.getElem?_eq_some_iff.mp isSecond
  have apart := List.pairwise_iff_getElem.mp (List.nodup_flatten.mp nodup).2
  rcases Nat.lt_trichotomy i j with less | equal | less
  · exact absurd inSecond (apart i j insideI insideJ less inFirst)
  · exact equal
  · exact absurd inFirst (apart j i insideJ insideI less inSecond)

theorem EasedBlocks.exists_shares {gone temps : List Reg} {blocks others : List Block}
    (eased : EasedBlocks gone blocks temps others) (nodup : temps.Nodup) :
    ∃ share : Nat → List Reg,
      (∀ (i : Nat) (block : Block), blocks[i]? = some block → ∃ relieved, others[i]? = some relieved ∧
        block.Eased gone (share i) relieved) ∧
      (∀ i, blocks.length ≤ i → share i = []) ∧ (∀ i, (share i).Nodup) ∧
      (∀ temp, temp ∈ temps ↔ ∃ i, temp ∈ share i) ∧
      ∀ i j temp, temp ∈ share i → temp ∈ share j → i = j := by
  obtain ⟨_, parts, partsLength, rfl, areEased⟩ := eased.exists_parts
  refine ⟨fun i => (parts[i]?).getD [], fun i block isBlock => ?_, fun i outside => ?_, fun i => ?_,
    fun temp => ?_, fun i j temp inI inJ => ?_⟩
  · obtain ⟨part, relieved, isPart, isRelieved, isEased⟩ := areEased i block isBlock
    refine ⟨relieved, isRelieved, ?_⟩
    dsimp only
    rwa [isPart]
  · dsimp only
    rw [List.getElem?_eq_none (partsLength ▸ outside)]
    rfl
  · dsimp only
    cases isPart : parts[i]? with
    | none => exact List.nodup_nil
    | some part => exact (List.nodup_flatten.mp nodup).1 part (List.mem_of_getElem? isPart)
  · simp only [mem_getD_nil, List.mem_flatten]
    constructor
    · rintro ⟨part, isPart, member⟩
      obtain ⟨i, isPart⟩ := List.mem_iff_getElem?.mp isPart
      exact ⟨i, part, isPart, member⟩
    · rintro ⟨i, part, isPart, member⟩
      exact ⟨part, List.mem_of_getElem? isPart, member⟩
  · obtain ⟨_, isPart, inPart⟩ := mem_getD_nil.mp inI
    obtain ⟨_, isOther, inOther⟩ := mem_getD_nil.mp inJ
    exact eq_of_mem_of_mem nodup isPart isOther inPart inOther

namespace Func

variable {f g : Func} {gone temps : List Reg} {reg temp : Reg}

/-- The live sets of a function whose jumps stay inside. -/
def liveSets (f : Func) : Liveness f.blocks.length := f.livenessAlong (.ofSuccs f.flow.targets)

theorem Eased.length_eq (eased : f.Eased gone temps g) : g.blocks.length = f.blocks.length :=
  eased.blocks.exists_parts.1

theorem Eased.exists_part (eased : f.Eased gone temps g) : ∃ part : Nat → List Reg,
    (∀ i (inF : i < f.blocks.length) (inG : i < g.blocks.length),
      (f.blocks.get ⟨i, inF⟩).Eased gone (part i) (g.blocks.get ⟨i, inG⟩)) ∧
    (∀ i, (part i).Nodup ∧ part i ⊆ temps) ∧
    (∀ temp ∈ temps, ∃ i, i < f.blocks.length ∧ temp ∈ part i) ∧
    ∀ i j temp, temp ∈ part i → temp ∈ part j → i = j := by
  obtain ⟨share, areEased, outside, nodup, covers, own⟩ := eased.blocks.exists_shares eased.nodup
  refine ⟨share, fun i inF inG => ?_, fun i => ⟨nodup i, fun temp member => ?_⟩,
    fun temp isTemp => ?_, own⟩
  · obtain ⟨relieved, isRelieved, isEased⟩ := areEased i _ (List.getElem?_eq_getElem inF)
    obtain ⟨_, rfl⟩ := List.getElem?_eq_some_iff.mp isRelieved
    exact isEased
  · exact (covers temp).mpr ⟨i, member⟩
  · obtain ⟨i, member⟩ := (covers temp).mp isTemp
    refine ⟨i, ?_, member⟩
    by_contra beyond
    rw [outside i (Nat.not_lt.mp beyond)] at member
    cases member

/-! ## Live sets -/

theorem Fits.plain_of_mem_regSet (fits : f.Fits) (mentioned : reg ∈ f.regSet) :
    reg.Plain f.nextVirtual := by
  obtain ⟨block, isBlock, inBlock⟩ := mem_regSet.mp mentioned
  rcases List.mem_append.mp inBlock with inInstrs | used
  · obtain ⟨instr, isInstr, inInstr⟩ := List.mem_flatMap.mp inInstrs
    have fitsInstr := (fits block isBlock).instrs instr isInstr
    exact (List.mem_append.mp inInstr).elim fitsInstr.plain_uses fitsInstr.plain_defs
  · exact (fits block isBlock).plain_termUses used

theorem Fits.plain_liveIn (fits : f.Fits) {block : Fin f.blocks.length}
    (live : reg ∈ f.liveSets.liveIn.get block) : reg.Plain f.nextVirtual :=
  fits.plain_of_mem_regSet (mem_liveIn.mp live).1.1

theorem Fits.plain_liveOut (fits : f.Fits) {block : Fin f.blocks.length} :
    ∀ reg ∈ f.liveSets.liveOut.get block, reg.Plain f.nextVirtual := by
  intro reg live
  obtain ⟨succ, _, liveIn⟩ := mem_liveOut.mp live
  exact fits.plain_liveIn liveIn

theorem mem_liveIn_of_exposed {block : Fin f.blocks.length}
    (exposed : reg ∈ (f.blocks.get block).exposed) : reg ∈ f.liveSets.liveIn.get block :=
  (solves_livenessAlong.top _ _).mpr (Block.mem_transfer.mpr (.inl exposed))

theorem mem_liveIn_of_passes {block succ : Fin f.blocks.length}
    (joined : succ.val ∈ (f.blocks.get block).term.targets)
    (passes : reg ∈ (f.blocks.get block).transfer (RegSet.addTracked ∅ [reg]))
    (live : reg ∈ f.liveSets.liveIn.get succ) : reg ∈ f.liveSets.liveIn.get block := by
  refine (solves_livenessAlong.top _ _).mpr (Block.mem_transfer.mpr ?_)
  refine (Block.mem_transfer.mp passes).imp_right fun through => ⟨?_, through.2⟩
  exact (solves_livenessAlong.bottom _ _).mpr ⟨succ, joined, live⟩

/-- The live sets are what they were, without the registers that have gone. -/
theorem Eased.without_liveIn (eased : f.Eased gone temps g) (fits : f.Fits)
    (lost : VirtualsBelow f.nextVirtual gone) {i : Nat} (inF : i < f.blocks.length)
    (inG : i < g.blocks.length) :
    Without gone (f.liveSets.liveIn.get ⟨i, inF⟩) (g.liveSets.liveIn.get ⟨i, inG⟩) := by
  obtain ⟨part, areEased, parts, _, _⟩ := eased.exists_part
  have fresh (i : Nat) : VirtualsFrom f.nextVirtual (part i) := eased.fresh.mono (parts i).2
  have fitsAt (i : Nat) (inF : i < f.blocks.length) : (f.blocks.get ⟨i, inF⟩).Fits f.nextVirtual f.slots :=
    fits _ (List.get_mem _ _)
  have exposedIff (i : Nat) (inF : i < f.blocks.length) (inG : i < g.blocks.length) :
      Without gone (f.blocks.get ⟨i, inF⟩).exposed (g.blocks.get ⟨i, inG⟩).exposed :=
    (areEased i inF inG).without_transfer (fun reg => by simp) (fitsAt i inF) lost (fresh i)
      fun reg none => absurd none Std.TreeSet.not_mem_emptyc
  intro reg
  have single (kept : reg ∉ gone) (plain : reg.Plain f.nextVirtual) (i : Nat) (inF : i < f.blocks.length)
      (inG : i < g.blocks.length) :
      Without gone ((f.blocks.get ⟨i, inF⟩).transfer (RegSet.addTracked ∅ [reg]))
        ((g.blocks.get ⟨i, inG⟩).transfer (RegSet.addTracked ∅ [reg])) := by
    refine (areEased i inF inG).without_transfer (fun other => ?_) (fitsAt i inF) lost (fresh i)
      fun other live => ?_
    · rw [RegSet.mem_addTracked]
      refine ⟨fun live => ⟨live, ?_⟩, And.left⟩
      rcases live with ⟨isReg, _⟩ | none
      · rwa [List.mem_singleton.mp isReg]
      · exact absurd none Std.TreeSet.not_mem_emptyc
    · rcases RegSet.mem_addTracked.mp live with ⟨isReg, _⟩ | none
      · rwa [List.mem_singleton.mp isReg]
      · exact absurd none Std.TreeSet.not_mem_emptyc
  have passes (tracked : reg.isTracked = true) {block : Block} (untouched : block.defines reg = false) :
      reg ∈ block.transfer (RegSet.addTracked ∅ [reg]) :=
    Block.mem_transfer.mpr (.inr ⟨RegSet.mem_addTracked.mpr (.inl ⟨List.mem_singleton.mpr rfl, tracked⟩),
      untouched⟩)
  have sameLength := eased.length_eq
  constructor
  · intro live
    have tracked := (mem_liveIn.mp live).1.2
    suffices ∃ inF : i < f.blocks.length, reg ∈ f.liveSets.liveIn.get ⟨i, inF⟩ ∧ reg ∉ gone from this.2
    refine liveIn_induct (P := fun block : Fin g.blocks.length => ∃ inF : block.val < f.blocks.length,
      reg ∈ f.liveSets.liveIn.get ⟨block.val, inF⟩ ∧ reg ∉ gone) (fun block exposed => ?_) ?_ live
    · have inF : block.val < f.blocks.length := sameLength ▸ block.isLt
      obtain ⟨exposedToo, kept⟩ := (exposedIff block.val inF block.isLt reg).mp exposed
      exact ⟨inF, mem_liveIn_of_exposed exposedToo, kept⟩
    · rintro block succ joined untouched ⟨inSucc, liveSucc, kept⟩
      have inF : block.val < f.blocks.length := sameLength ▸ block.isLt
      have plain := fits.plain_liveIn liveSucc
      have joinedToo : succ.val ∈ (f.blocks.get ⟨block.val, inF⟩).term.targets := by
        rw [← (areEased block.val inF block.isLt).targets]
        exact joined
      have through := (single kept plain block.val inF block.isLt reg).mp (passes tracked untouched)
      exact ⟨inF, mem_liveIn_of_passes joinedToo through.1 liveSucc, kept⟩
  · rintro ⟨live, kept⟩
    have tracked := (mem_liveIn.mp live).1.2
    have plain := fits.plain_liveIn live
    suffices ∃ inG : i < g.blocks.length, reg ∈ g.liveSets.liveIn.get ⟨i, inG⟩ from this.2
    refine liveIn_induct (P := fun block : Fin f.blocks.length => ∃ inG : block.val < g.blocks.length,
      reg ∈ g.liveSets.liveIn.get ⟨block.val, inG⟩) (fun block exposed => ?_) ?_ live
    · have inG : block.val < g.blocks.length := sameLength.symm ▸ block.isLt
      exact ⟨inG, mem_liveIn_of_exposed ((exposedIff block.val block.isLt inG reg).mpr ⟨exposed, kept⟩)⟩
    · rintro block succ joined untouched ⟨inSucc, liveSucc⟩
      have inG : block.val < g.blocks.length := sameLength.symm ▸ block.isLt
      have joinedToo : succ.val ∈ (g.blocks.get ⟨block.val, inG⟩).term.targets := by
        rw [(areEased block.val block.isLt inG).targets]
        exact joined
      have through := (single kept plain block.val block.isLt inG reg).mpr
        ⟨passes tracked untouched, kept⟩
      exact ⟨inG, mem_liveIn_of_passes joinedToo through liveSucc⟩

theorem Eased.without_liveOut (eased : f.Eased gone temps g) (fits : f.Fits)
    (lost : VirtualsBelow f.nextVirtual gone) {i : Nat} (inF : i < f.blocks.length)
    (inG : i < g.blocks.length) :
    Without gone (f.liveSets.liveOut.get ⟨i, inF⟩) (g.liveSets.liveOut.get ⟨i, inG⟩) := by
  obtain ⟨part, areEased, _, _, _⟩ := eased.exists_part
  have sameTargets := (areEased i inF inG).targets
  intro reg
  refine (solves_livenessAlong.bottom _ _).trans (Iff.trans ?_
    (and_congr_left' (solves_livenessAlong.bottom _ _)).symm)
  constructor
  · rintro ⟨succ, joined, live⟩
    have inSucc : succ.val < f.blocks.length := eased.length_eq ▸ succ.isLt
    obtain ⟨liveToo, kept⟩ := (eased.without_liveIn fits lost inSucc succ.isLt reg).mp live
    exact ⟨⟨⟨succ.val, inSucc⟩, sameTargets ▸ joined, liveToo⟩, kept⟩
  · rintro ⟨⟨succ, joined, live⟩, kept⟩
    have inSucc : succ.val < g.blocks.length := eased.length_eq.symm ▸ succ.isLt
    exact ⟨⟨succ.val, inSucc⟩, sameTargets.symm ▸ joined,
      (eased.without_liveIn fits lost succ.isLt inSucc reg).mpr ⟨live, kept⟩⟩

/-! ## Edges -/

variable {pool : List PhysReg} {a b : Reg}

/-- Registers interfere exactly if some block defines one of them beside the other one. -/
theorem hasEdge_liveSets_iff : (f.interference f.liveSets).hasEdge a b = true ↔ ∃ block,
    Joined (f.blocks.get block).instrs
        ((f.blocks.get block).liveEnd (f.liveSets.liveOut.get block)) a b ∨
      Joined (f.blocks.get block).instrs
        ((f.blocks.get block).liveEnd (f.liveSets.liveOut.get block)) b a :=
  hasEdge_interference_iff fun _ _ => isTracked_of_mem_liveOut

theorem Eased.hasEdge (eased : f.Eased gone temps g) (fits : f.Fits)
    (lost : VirtualsBelow f.nextVirtual gone) (keptA : a ∉ gone) (keptB : b ∉ gone)
    (edge : (f.interference f.liveSets).hasEdge a b = true) :
    (g.interference g.liveSets).hasEdge a b = true := by
  obtain ⟨block, joined⟩ := hasEdge_liveSets_iff.mp edge
  obtain ⟨part, areEased, parts, _, _⟩ := eased.exists_part
  have inG : block.val < g.blocks.length := eased.length_eq.symm ▸ block.isLt
  have keeps {a b : Reg} := (areEased block.val block.isLt inG).joined
    (eased.without_liveOut fits lost block.isLt inG) (fits _ (List.get_mem _ _)) lost
    (eased.fresh.mono (parts block.val).2) fits.plain_liveOut (a := a) (b := b)
  exact hasEdge_liveSets_iff.mpr ⟨⟨block.val, inG⟩,
    joined.imp (fun joined => keeps joined keptA keptB) fun joined => keeps joined keptB keptA⟩

/-- At every instruction and at the end of every block, the pool has room for the virtual registers read
there beside the registers live before, and for a virtual register written beside those live behind. -/
structure Roomy (f : Func) (liveness : Liveness f.blocks.length) (pool : List PhysReg) : Prop where
  before : ∀ block earlier instr later, (f.blocks.get block).instrs = earlier ++ instr :: later →
    occupied pool ((instr :: later).foldr Instr.liveBefore
        ((f.blocks.get block).liveEnd (liveness.liveOut.get block))) +
      (virtualsOf instr.operandUses).length ≤ pool.length
  behind : ∀ block earlier instr later, (f.blocks.get block).instrs = earlier ++ instr :: later →
    ∀ number, instr.operandDef? = some (.virtual number) →
      occupied pool (later.foldr Instr.liveBefore
        ((f.blocks.get block).liveEnd (liveness.liveOut.get block))) + 1 ≤ pool.length
  last : ∀ block, occupied pool ((f.blocks.get block).liveEnd (liveness.liveOut.get block)) +
    (virtualsOf (f.blocks.get block).term.operandUses).length ≤ pool.length

/-- Two registers that are live at the same time interfere, if one of them is virtual. -/
def LiveTogether (f : Func) (liveness : Liveness f.blocks.length) : Prop :=
  ∀ block earlier later, (f.blocks.get block).instrs = earlier ++ later →
    ∀ a ∈ later.foldr Instr.liveBefore
      ((f.blocks.get block).liveEnd (liveness.liveOut.get block)),
    ∀ b ∈ later.foldr Instr.liveBefore
      ((f.blocks.get block).liveEnd (liveness.liveOut.get block)),
    a.isPhysical = false → a ≠ b → (f.interference liveness).hasEdge a b = true

/-- Every register handed out has a home in the function. -/
theorem Eased.home (eased : f.Eased gone temps g) (fits : f.Fits)
    (lost : VirtualsBelow f.nextVirtual gone) (roomy : f.Roomy f.liveSets pool)
    (together : f.LiveTogether f.liveSets) (isTemp : temp ∈ temps) :
    ∃ (host : RegSet) (mates : List Reg), Hosts (f.interference f.liveSets) pool host mates.length ∧
      (∀ reg ∈ host, reg.Plain f.nextVirtual) ∧ mates ⊆ temps ∧ temp ∈ mates ∧
      (∀ other, (g.interference g.liveSets).hasEdge temp other = true →
        other ∈ host ∧ other ∉ gone ∨ other ∈ mates) ∧
      ∀ mate ∈ mates, ∀ other ∈ host, other ∉ gone →
        (g.interference g.liveSets).hasEdge mate other = true := by
  obtain ⟨part, areEased, parts, covered, own⟩ := eased.exists_part
  obtain ⟨i, inF, inPart⟩ := covered temp isTemp
  have inG : i < g.blocks.length := eased.length_eq.symm ▸ inF
  have notPlain := eased.fresh.not_plain isTemp
  obtain ⟨host, mates, home⟩ := (areEased i inF inG).home (eased.without_liveOut fits lost inF inG)
    (fits _ (List.get_mem _ _)) lost (eased.fresh.mono (parts i).2) fits.plain_liveOut (parts i).1
    (fun earlier instr later split => ⟨roomy.before _ earlier instr later split,
      together _ earlier (instr :: later) split⟩)
    (fun earlier instr later split number written => ⟨roomy.behind _ earlier instr later split number
      written, together _ (earlier ++ [instr]) later (by rw [split, List.append_cons])⟩)
    ⟨roomy.last _, together _ _ [] (List.append_nil _).symm⟩ inPart
  refine ⟨host, mates, home.hosts, home.plain, List.Subset.trans home.handed (parts i).2, home.member,
    fun other edge => ?_, fun mate isMate other isLive kept => ?_⟩
  · obtain ⟨block, joined⟩ := hasEdge_liveSets_iff.mp edge
    by_cases same : block.val = i
    · subst same
      exact home.near other joined
    · -- another block neither mentions the register nor has it live behind it
      have inBlock : block.val < f.blocks.length := eased.length_eq ▸ block.isLt
      have notMentioned : temp ∉ (g.blocks.get block).regs := by
        intro member
        rcases (areEased block.val inBlock block.isLt).mentioned lost member with
          isPart | physical | ⟨old, _⟩
        · exact same (own _ _ temp isPart inPart)
        · exact notPlain (plain_of_physical physical)
        · exact notPlain (fits.plain_of_mem_regSet (mem_regSet.mpr ⟨_, List.get_mem _ _, old⟩))
      refine absurd joined (not_joined_of_not_mentioned
        (fun member => notMentioned (List.mem_append_left _ member)) ?_ other)
      intro isLive
      rcases RegSet.mem_addTracked.mp isLive with ⟨used, _⟩ | out
      · exact notMentioned (List.mem_append_right _ used)
      · have old := (eased.without_liveOut fits lost inBlock block.isLt temp).mp out
        exact notPlain (fits.plain_liveOut temp old.1)
  · exact hasEdge_liveSets_iff.mpr ⟨⟨i, inG⟩, .inl (home.joined mate isMate other isLive kept)⟩

/-! ## Nodes -/

/-- The nodes of an interference graph are registers of the function. -/
theorem mem_regSet_of_mem_nodes (node : reg ∈ (f.interference f.liveSets).nodes) : reg ∈ f.regSet := by
  rcases mem_nodes_interference_cases node with ⟨mentioned, _⟩ | ⟨other, edge⟩
  · exact mentioned
  · obtain ⟨block, joined⟩ := hasEdge_liveSets_iff.mp edge
    have inBlock {reg : Reg} (member : reg ∈ (f.blocks.get block).regs) : reg ∈ f.regSet :=
      mem_regSet.mpr ⟨_, List.get_mem _ _, member⟩
    by_contra absent
    refine not_joined_of_not_mentioned (fun member => absent (inBlock (List.mem_append_left _ member)))
      (fun isLive => ?_) other joined
    rcases RegSet.mem_addTracked.mp isLive with ⟨used, _⟩ | out
    · exact absent (inBlock (List.mem_append_right _ used))
    · obtain ⟨succ, _, liveIn⟩ := mem_liveOut.mp out
      exact absent (mem_liveIn.mp liveIn).1.1

/-- The virtual registers of a function that has been eased are those handed out and those of the
function that have not gone. -/
theorem Eased.mentioned (eased : f.Eased gone temps g) (lost : VirtualsBelow f.nextVirtual gone)
    (mentioned : reg ∈ g.regSet) (notPhysical : reg.isPhysical = false) :
    reg ∈ temps ∨ reg ∈ f.regSet ∧ reg ∉ gone := by
  obtain ⟨block, isBlock, inBlock⟩ := mem_regSet.mp mentioned
  obtain ⟨i, inG, rfl⟩ := List.mem_iff_getElem.mp isBlock
  have inF : i < f.blocks.length := eased.length_eq ▸ inG
  obtain ⟨part, areEased, parts, _, _⟩ := eased.exists_part
  rcases (areEased i inF inG).mentioned lost inBlock with isTemp | physical | ⟨old, kept⟩
  · exact .inl ((parts i).2 isTemp)
  · rw [notPhysical] at physical
    cases physical
  · exact .inr ⟨mem_regSet.mpr ⟨_, List.get_mem _ _, old⟩, kept⟩

/-- However many registers have gone, those handed out are sheltered. -/
theorem Eased.shelters (eased : f.Eased gone temps g) (fits : f.Fits)
    (lost : VirtualsBelow f.nextVirtual gone) (roomy : f.Roomy f.liveSets pool)
    (together : f.LiveTogether f.liveSets) :
    (g.interference g.liveSets).Shelters pool (· ∈ temps) where
  virtual reg isTemp := by
    obtain ⟨number, rfl, _⟩ := eased.fresh reg isTemp
    rfl
  room reg isTemp := by
    obtain ⟨host, mates, hosts, plain, handed, member, near, _⟩ :=
      eased.home fits lost roomy together isTemp
    refine ⟨(pool.filter fun phys => host.contains (.physical phys)).map Reg.physical ++
      mates.erase reg, ?_, fun other ⟨edge, isTempOrPool⟩ => List.mem_append.mpr ?_⟩
    · rw [List.length_append, List.length_map, List.length_erase_of_mem member]
      have room := hosts.room
      unfold occupied at room
      have := List.length_pos_of_mem member
      omega
    · have different : other ≠ reg := by
        rintro rfl
        exact absurd edge (by simp [(undirected_interference g.liveSets).irrefl other])
      rcases near other edge with ⟨isLive, _⟩ | isMate
      · rcases isTempOrPool with isTempToo | ⟨phys, inPool, rfl⟩
        · exact absurd (plain other isLive) (eased.fresh.not_plain isTempToo)
        · exact .inl (List.mem_map_of_mem (List.mem_filter.mpr ⟨inPool, isLive⟩))
      · exact .inr ((List.mem_erase_of_ne different).mpr isMate)
  shared reg isTemp a b edgeA edgeB different notPhysical notTemp := by
    obtain ⟨host, mates, hosts, plain, handed, member, near, joined⟩ :=
      eased.home fits lost roomy together isTemp
    obtain ⟨liveA, keptA⟩ := (near a edgeA).resolve_right fun isMate => notTemp (handed isMate)
    rcases near b edgeB with ⟨liveB, keptB⟩ | isMate
    · exact eased.hasEdge fits lost keptA keptB (hosts.together a liveA b liveB notPhysical different)
    · exact (undirected_interference _).symm b a (joined b isMate a liveA keptA)
  later reg isTemp other node notPhysical notTemp := by
    obtain ⟨number, rfl, above⟩ := eased.fresh reg isTemp
    have old := (eased.mentioned lost (mem_regSet_of_mem_nodes node) notPhysical).resolve_left notTemp
    have plain := fits.plain_of_mem_regSet old.1
    cases other with
    | physical phys => cases notPhysical
    | spilled slot => cases plain
    | virtual lower =>
        have less : lower < number := Nat.lt_of_lt_of_le plain above
        simp [Reg.order, Reg.kind, Reg.place, byNumber, compareOfLessAndEq, less]

end Func

end Lowering.Machine
