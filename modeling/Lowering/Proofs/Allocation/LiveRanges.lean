import Lowering.Proofs.Allocation.Liveness
import Mathlib.Data.Finset.Prod
import Mathlib.Data.Fintype.Basic
import Mathlib.Data.Prod.Lex

/-!
# Live sets are exact

A register is live into a block if and only if some path from the top of the block comes to a use of
it without passing a definition.  The live sets are the least solution of the liveness equations, and
any iteration over a worklist of blocks ends with them, in whatever order it takes the blocks.
-/

namespace Lowering.Machine

/-! ## Paths to uses -/

/-- A place in code of `n` blocks: an instruction, or the terminator behind the last one. -/
structure Place (n : Nat) where
  block : Fin n
  position : Nat

namespace Func

variable {f : Func} {reg : Reg} {block : Fin f.blocks.length}

/-- Control can go from a place to another one. -/
inductive Goes (f : Func) : Place f.blocks.length → Place f.blocks.length → Prop where
  | on {block : Fin f.blocks.length} {i : Nat} : i < (f.blocks.get block).instrs.length →
      Goes f ⟨block, i⟩ ⟨block, i + 1⟩
  | jump {block target : Fin f.blocks.length} :
      target.val ∈ (f.blocks.get block).term.targets →
      Goes f ⟨block, (f.blocks.get block).instrs.length⟩ ⟨target, 0⟩

/-- The instruction or terminator at a place uses the register. -/
def UsesAt (f : Func) (reg : Reg) (place : Place f.blocks.length) : Prop :=
  (∃ instr, (f.blocks.get place.block).instrs[place.position]? = some instr ∧ reg ∈ instr.uses) ∨
    place.position = (f.blocks.get place.block).instrs.length ∧
      reg ∈ (f.blocks.get place.block).term.uses

/-- The instruction at a place defines the register. -/
def DefinesAt (f : Func) (reg : Reg) (place : Place f.blocks.length) : Prop :=
  ∃ instr, (f.blocks.get place.block).instrs[place.position]? = some instr ∧ reg ∈ instr.defs

/-- Some path from a place comes to a use of the register, with no definition earlier on it. -/
def Needs (f : Func) (reg : Reg) (place : Place f.blocks.length) : Prop :=
  ∃ use, Relation.ReflTransGen (fun here next => f.Goes here next ∧ ¬ f.DefinesAt reg here)
    place use ∧ f.UsesAt reg use

/-- The live sets satisfy the liveness equations. -/
structure Solves (f : Func) (liveIn liveOut : Table f.blocks.length RegSet) : Prop where
  top : ∀ block reg, reg ∈ liveIn.get block ↔
    reg ∈ (f.blocks.get block).transfer (liveOut.get block)
  bottom : ∀ block reg, reg ∈ liveOut.get block ↔
    ∃ succ : Fin f.blocks.length, succ.val ∈ (f.blocks.get block).term.targets ∧
      reg ∈ liveIn.get succ

theorem Needs.step {here next : Place f.blocks.length} (goes : f.Goes here next)
    (kept : ¬ f.DefinesAt reg here) (needs : f.Needs reg next) : f.Needs reg here := by
  obtain ⟨use, path, used⟩ := needs
  exact ⟨use, .head ⟨goes, kept⟩ path, used⟩

/-- What is live before the last instructions of a block is tracked and needed there, if what is live
out of the block is needed by a successor. -/
theorem needs_of_mem_foldr {liveOut : RegSet}
    (behind : ∀ reg ∈ liveOut, reg.isTracked = true ∧
      f.Needs reg ⟨block, (f.blocks.get block).instrs.length⟩)
    {earlier rest : List Instr} (split : (f.blocks.get block).instrs = earlier ++ rest)
    (live : reg ∈ rest.foldr Instr.liveBefore
      (RegSet.addTracked liveOut (f.blocks.get block).term.uses)) :
    reg.isTracked = true ∧ f.Needs reg ⟨block, earlier.length⟩ := by
  induction rest generalizing earlier with
  | nil =>
      rw [List.append_nil] at split
      rw [← split]
      rcases RegSet.mem_addTracked.mp live with ⟨used, tracked⟩ | out
      · exact ⟨tracked, _, .refl, .inr ⟨rfl, used⟩⟩
      · exact behind reg out
  | cons instr rest ih =>
      have here : (f.blocks.get block).instrs[earlier.length]? = some instr := by
        rw [split, List.getElem?_append_right (Nat.le_refl _), Nat.sub_self]
        rfl
      rcases Instr.mem_liveBefore.mp live with ⟨used, tracked⟩ | ⟨later, kept⟩
      · exact ⟨tracked, _, .refl, .inl ⟨instr, here, used⟩⟩
      · have splitLater : (f.blocks.get block).instrs = (earlier ++ [instr]) ++ rest := by
          rw [split, List.append_cons]
        obtain ⟨tracked, needs⟩ := ih splitLater later
        rw [List.length_append, List.length_singleton] at needs
        refine ⟨tracked, needs.step (.on (List.getElem?_eq_some_iff.mp here).1) ?_⟩
        rintro ⟨other, isOther, defined⟩
        obtain rfl := Option.some.inj (here.symm.trans isOther)
        exact kept defined

theorem Solves.mem_drop {liveIn liveOut : Table f.blocks.length RegSet}
    (solves : f.Solves liveIn liveOut) (tracked : reg.isTracked = true)
    {place : Place f.blocks.length} (needs : f.Needs reg place)
    (inside : place.position ≤ (f.blocks.get place.block).instrs.length) :
    reg ∈ ((f.blocks.get place.block).instrs.drop place.position).foldr Instr.liveBefore
      (RegSet.addTracked (liveOut.get place.block) (f.blocks.get place.block).term.uses) := by
  obtain ⟨use, path, used⟩ := needs
  induction path using Relation.ReflTransGen.head_induction_on with
  | refl =>
      rcases used with ⟨instr, found, used⟩ | ⟨atEnd, used⟩
      · obtain ⟨inside, rfl⟩ := List.getElem?_eq_some_iff.mp found
        rw [List.drop_eq_getElem_cons inside, List.foldr_cons]
        exact Instr.mem_liveBefore.mpr (.inl ⟨used, tracked⟩)
      · rw [atEnd, List.drop_length]
        exact RegSet.mem_addTracked.mpr (.inl ⟨used, tracked⟩)
  | head step _ ih =>
      obtain ⟨goes, kept⟩ := step
      cases goes with
      | on before =>
          rw [List.drop_eq_getElem_cons before, List.foldr_cons]
          refine Instr.mem_liveBefore.mpr (.inr ⟨ih before, fun defined => ?_⟩)
          exact kept ⟨_, List.getElem?_eq_getElem before, defined⟩
      | jump joined =>
          rw [List.drop_length]
          refine RegSet.mem_addTracked.mpr (.inr ((solves.bottom _ _).mpr ⟨_, joined, ?_⟩))
          exact (solves.top _ _).mpr (ih (Nat.zero_le _))

theorem Solves.mem_of_needs {liveIn liveOut : Table f.blocks.length RegSet}
    (solves : f.Solves liveIn liveOut)
    (tracked : reg.isTracked = true) (needs : f.Needs reg ⟨block, 0⟩) :
    reg ∈ liveIn.get block :=
  (solves.top _ _).mpr (solves.mem_drop tracked needs (Nat.zero_le _))

/-! ## The live sets of a function -/

theorem mem_succs_iff {succ : Fin f.blocks.length} :
    succ ∈ (Edges.ofSuccs f.flow.targets).succs.get block ↔
      succ.val ∈ (f.blocks.get block).term.targets :=
  Edges.mem_succs_ofSuccs.trans FlowGraph.mem_targets

theorem mem_transfer_of_mem_liveIn
    (live : reg ∈ (f.livenessAlong (.ofSuccs f.flow.targets)).liveIn.get block) :
    reg ∈ (f.blocks.get block).transfer
      ((f.livenessAlong (.ofSuccs f.flow.targets)).liveOut.get block) := by
  rw [Block.mem_transfer]
  obtain ⟨known, member⟩ := mem_liveIn.mp live
  obtain ⟨root, isRoot, reaches⟩ := Search.mem_breadthFirst_iff.mp member
  rcases Relation.ReflTransGen.cases_tail reaches with rfl | ⟨succ, before, step⟩
  · rw [List.mem_filter, exposedTable, Table.get_tabulate, Std.TreeSet.contains_iff_mem] at isRoot
    exact .inl isRoot.2
  · rw [List.mem_filter, Edges.mem_preds_ofSuccs] at step
    refine .inr ⟨mem_liveOut.mpr ⟨succ, step.1, mem_liveIn.mpr ⟨known, ?_⟩⟩, by simpa using step.2⟩
    exact Search.mem_breadthFirst_iff.mpr ⟨root, isRoot, before⟩

theorem solves_livenessAlong :
    f.Solves (f.livenessAlong (.ofSuccs f.flow.targets)).liveIn
      (f.livenessAlong (.ofSuccs f.flow.targets)).liveOut where
  top _ _ := ⟨mem_transfer_of_mem_liveIn, mem_liveIn_of_mem_transfer⟩
  bottom block reg := by
    rw [mem_liveOut]
    simp only [mem_succs_iff]

/-- What holds of the blocks that use a register before they define it, and spreads to predecessors
that do not define it, holds of the blocks that the register is live into. -/
theorem liveIn_induct {P : Fin f.blocks.length → Prop}
    (exposed : ∀ block, reg ∈ (f.blocks.get block).exposed → P block)
    (through : ∀ block succ : Fin f.blocks.length, succ.val ∈ (f.blocks.get block).term.targets →
      (f.blocks.get block).defines reg = false → P succ → P block)
    (live : reg ∈ (f.livenessAlong (.ofSuccs f.flow.targets)).liveIn.get block) : P block := by
  obtain ⟨root, isRoot, reaches⟩ := Search.mem_breadthFirst_iff.mp (mem_liveIn.mp live).2
  clear live
  induction reaches with
  | refl =>
      rw [List.mem_filter, exposedTable, Table.get_tabulate, Std.TreeSet.contains_iff_mem] at isRoot
      exact exposed root isRoot.2
  | tail _ step ih =>
      rw [List.mem_filter, Edges.mem_preds_ofSuccs, mem_succs_iff] at step
      exact through _ _ step.1 ((Bool.not_eq_true' _).mp step.2) ih

/-- A register is live into a block if it is needed at the top of it, and only then. -/
theorem mem_liveIn_iff_needs :
    reg ∈ (f.livenessAlong (.ofSuccs f.flow.targets)).liveIn.get block ↔
      reg.isTracked = true ∧ f.Needs reg ⟨block, 0⟩ := by
  refine ⟨fun live => ?_, fun ⟨tracked, needs⟩ => solves_livenessAlong.mem_of_needs tracked needs⟩
  obtain ⟨known, member⟩ := mem_liveIn.mp live
  obtain ⟨root, isRoot, reaches⟩ := Search.mem_breadthFirst_iff.mp member
  -- along the search, from the block that uses the register back to this one
  clear member live
  induction reaches with
  | refl =>
      rw [List.mem_filter, exposedTable, Table.get_tabulate, Std.TreeSet.contains_iff_mem] at isRoot
      have split : (f.blocks.get root).instrs = [] ++ (f.blocks.get root).instrs := rfl
      refine needs_of_mem_foldr ?_ split isRoot.2
      exact fun reg none => absurd none Std.TreeSet.not_mem_emptyc
  | tail _ step ih =>
      rw [List.mem_filter, Edges.mem_preds_ofSuccs, mem_succs_iff] at step
      obtain ⟨joined, untouched⟩ := step
      rename_i succ pred _
      have kept := Block.defines_eq_false_iff.mp ((Bool.not_eq_true' _).mp untouched)
      refine ⟨known.2, ?_⟩
      have through (i : Nat) (inside : i ≤ (f.blocks.get pred).instrs.length) :
          f.Needs reg ⟨pred, i⟩ := by
        induction left : (f.blocks.get pred).instrs.length - i generalizing i with
        | zero =>
            obtain rfl : i = (f.blocks.get pred).instrs.length := by omega
            refine ih.2.step (.jump joined) ?_
            rintro ⟨instr, found, _⟩
            exact absurd (List.getElem?_eq_some_iff.mp found).1 (Nat.lt_irrefl _)
        | succ left ih =>
            refine Needs.step (.on (by omega)) ?_ (ih (i + 1) (by omega) (by omega))
            rintro ⟨instr, found, defined⟩
            exact kept instr (List.mem_of_getElem? found) defined
      exact through 0 (Nat.zero_le _)

end Func

/-! ## Worklist iterations -/

/-- A worklist iteration: the live sets so far and the blocks still to be visited. -/
structure Sweep (n : Nat) where
  liveIn : Table n RegSet
  liveOut : Table n RegSet
  agenda : List (Fin n)

namespace Func

variable {f : Func} {reg : Reg} {block : Fin f.blocks.length}

/-- What is live into some successor of a block. -/
def gather (f : Func) (liveIn : Table f.blocks.length RegSet) (block : Fin f.blocks.length) :
    RegSet :=
  (f.flow.targets block).foldl (fun live succ => live.insertMany (liveIn.get succ)) ∅

/-- The predecessors of a block that are not on an agenda yet. -/
def awakened (f : Func) (agenda : List (Fin f.blocks.length)) (block : Fin f.blocks.length) :
    List (Fin f.blocks.length) :=
  ((Edges.ofSuccs f.flow.targets).preds.get block).filter fun pred => !agenda.contains pred

/-- Visits any block of the agenda.  Its live sets are computed anew, and if the one at its top
changes, its predecessors are to be visited as well. -/
inductive Visits (f : Func) : Sweep f.blocks.length → Sweep f.blocks.length → Prop where
  | unchanged {sweep : Sweep f.blocks.length} {block : Fin f.blocks.length} :
      block ∈ sweep.agenda →
      (∀ reg, reg ∈ (f.blocks.get block).transfer (f.gather sweep.liveIn block) ↔
        reg ∈ sweep.liveIn.get block) →
      Visits f sweep
        { liveIn := sweep.liveIn
          liveOut := sweep.liveOut.set block (f.gather sweep.liveIn block)
          agenda := sweep.agenda.erase block }
  | changed {sweep : Sweep f.blocks.length} {block : Fin f.blocks.length} :
      block ∈ sweep.agenda →
      ¬ (∀ reg, reg ∈ (f.blocks.get block).transfer (f.gather sweep.liveIn block) ↔
        reg ∈ sweep.liveIn.get block) →
      Visits f sweep
        { liveIn := sweep.liveIn.set block
            ((f.blocks.get block).transfer (f.gather sweep.liveIn block))
          liveOut := sweep.liveOut.set block (f.gather sweep.liveIn block)
          agenda := sweep.agenda.erase block ++ f.awakened (sweep.agenda.erase block) block }

/-- Nothing is known to be live. -/
def sweepFrom (f : Func) (agenda : List (Fin f.blocks.length)) : Sweep f.blocks.length :=
  ⟨.replicate _ ∅, .replicate _ ∅, agenda⟩

theorem mem_gather {liveIn : Table f.blocks.length RegSet} :
    reg ∈ f.gather liveIn block ↔
      ∃ succ : Fin f.blocks.length, succ.val ∈ (f.blocks.get block).term.targets ∧
        reg ∈ liveIn.get succ := by
  unfold gather
  rw [mem_foldl_insertMany]
  simp only [Std.TreeSet.not_mem_emptyc, false_or, FlowGraph.mem_targets]
  rfl

theorem mem_transfer_mono {liveOut larger : RegSet} (le : ∀ reg ∈ liveOut, reg ∈ larger)
    {code : Block} (live : reg ∈ code.transfer liveOut) : reg ∈ code.transfer larger := by
  rw [Block.mem_transfer] at live ⊢
  exact live.imp_right fun ⟨out, kept⟩ => ⟨le reg out, kept⟩

theorem gather_mono {liveIn larger : Table f.blocks.length RegSet}
    (le : ∀ block, ∀ reg ∈ liveIn.get block, reg ∈ larger.get block) :
    ∀ reg ∈ f.gather liveIn block, reg ∈ f.gather larger block := by
  intro reg live
  obtain ⟨succ, joined, live⟩ := mem_gather.mp live
  exact mem_gather.mpr ⟨succ, joined, le succ reg live⟩

/-- What holds during a worklist iteration, relative to a solution of the liveness equations. -/
structure Underway (f : Func) (liveIn : Table f.blocks.length RegSet)
    (sweep : Sweep f.blocks.length) : Prop where
  grows : ∀ block, ∀ reg ∈ sweep.liveIn.get block,
    reg ∈ (f.blocks.get block).transfer (f.gather sweep.liveIn block)
  below : ∀ block, ∀ reg ∈ sweep.liveIn.get block, reg ∈ liveIn.get block
  settled : ∀ block, block ∉ sweep.agenda →
    (∀ reg ∈ (f.blocks.get block).transfer (f.gather sweep.liveIn block),
      reg ∈ sweep.liveIn.get block) ∧
    ∀ reg, reg ∈ sweep.liveOut.get block ↔ reg ∈ f.gather sweep.liveIn block

variable {liveIn liveOut : Table f.blocks.length RegSet} {sweep next : Sweep f.blocks.length}

theorem underway_sweepFrom {agenda : List (Fin f.blocks.length)}
    (all : ∀ block, block ∈ agenda) : f.Underway liveIn (f.sweepFrom agenda) where
  grows block reg live := by simp [sweepFrom] at live
  below block reg live := by simp [sweepFrom] at live
  settled block absent := absurd (all block) absent

theorem mem_awakened {agenda : List (Fin f.blocks.length)} {pred : Fin f.blocks.length}
    (joined : block.val ∈ (f.blocks.get pred).term.targets) :
    pred ∈ agenda ++ f.awakened agenda block := by
  rw [List.mem_append]
  by_cases listed : pred ∈ agenda
  · exact .inl listed
  · refine .inr (List.mem_filter.mpr ⟨Edges.mem_preds_ofSuccs.mpr (mem_succs_iff.mpr joined), ?_⟩)
    simpa using listed

theorem Underway.visit (solves : f.Solves liveIn liveOut) (underway : f.Underway liveIn sweep)
    (visits : f.Visits sweep next) : f.Underway liveIn next := by
  cases visits with
  | @unchanged visited listed same =>
      refine ⟨underway.grows, underway.below, fun block absent => ?_⟩
      by_cases isVisited : block = visited
      · subst isVisited
        refine ⟨fun reg live => (same reg).mp live, fun reg => ?_⟩
        rw [Table.get_set_self]
      · have before := underway.settled block fun member =>
          absent ((List.mem_erase_of_ne isVisited).mpr member)
        rwa [Table.get_set_ne _ _ (Ne.symm isVisited)]
  | @changed visited listed different =>
      have more (block : Fin f.blocks.length) (reg : Reg) (live : reg ∈ sweep.liveIn.get block) :
          reg ∈ (sweep.liveIn.set visited ((f.blocks.get visited).transfer
            (f.gather sweep.liveIn visited))).get block := by
        rw [Table.get_set]
        split
        · next same => exact same ▸ underway.grows block reg live
        · exact live
      refine ⟨fun block reg live => ?_, fun block reg live => ?_, fun block absent => ?_⟩
      · refine mem_transfer_mono (gather_mono more) ?_
        rw [Table.get_set] at live
        split at live
        · next same => exact same ▸ live
        · exact underway.grows block reg live
      · rw [Table.get_set] at live
        split at live
        · next same =>
            subst same
            refine (solves.top _ _).mpr (mem_transfer_mono (fun reg live => ?_) live)
            obtain ⟨succ, joined, live⟩ := mem_gather.mp live
            exact (solves.bottom _ _).mpr ⟨succ, joined, underway.below succ reg live⟩
        · exact underway.below block reg live
      · -- the block does not lead to the one that changed
        have apart : visited.val ∉ (f.blocks.get block).term.targets := fun joined =>
          absent (mem_awakened joined)
        have sameGather (reg : Reg) :
            reg ∈ f.gather (sweep.liveIn.set visited ((f.blocks.get visited).transfer
              (f.gather sweep.liveIn visited))) block ↔ reg ∈ f.gather sweep.liveIn block := by
          rw [mem_gather, mem_gather]
          refine exists_congr fun succ => and_congr_right fun joined => ?_
          have unequal : visited ≠ succ := fun same => apart (same ▸ joined)
          rw [Table.get_set_ne _ _ unequal]
        refine ⟨fun reg live => ?_, fun reg => ?_⟩
        · have live := mem_transfer_mono (fun reg => (sameGather reg).mp) live
          by_cases isVisited : visited = block
          · subst isVisited
            rwa [Table.get_set_self]
          · rw [Table.get_set_ne _ _ isVisited]
            refine (underway.settled block fun member => absent ?_).1 reg live
            exact List.mem_append_left _ ((List.mem_erase_of_ne (Ne.symm isVisited)).mpr member)
        · rw [sameGather]
          by_cases isVisited : visited = block
          · subst isVisited
            rw [Table.get_set_self]
          · rw [Table.get_set_ne _ _ isVisited]
            refine (underway.settled block fun member => absent ?_).2 reg
            exact List.mem_append_left _ ((List.mem_erase_of_ne (Ne.symm isVisited)).mpr member)

/-- Registers of a function that are not recorded as live into a block yet. -/
def missing (f : Func) (sweep : Sweep f.blocks.length) : Finset (Fin f.blocks.length × Reg) :=
  (Finset.univ ×ˢ f.regSet.toList.toFinset).filter fun entry => entry.2 ∉ sweep.liveIn.get entry.1

theorem mem_missing {entry : Fin f.blocks.length × Reg} :
    entry ∈ f.missing sweep ↔ entry.2 ∈ f.regSet ∧ entry.2 ∉ sweep.liveIn.get entry.1 := by
  unfold missing
  simp

/-- A visit records a register or shortens the agenda. -/
theorem Underway.lighter (solves : f.Solves liveIn liveOut)
    (known : ∀ block, ∀ reg ∈ liveIn.get block, reg ∈ f.regSet)
    (underway : f.Underway liveIn sweep) (visits : f.Visits sweep next) :
    Prod.Lex (· < ·) (· < ·) ((f.missing next).card, next.agenda.length)
      ((f.missing sweep).card, sweep.agenda.length) := by
  have after := underway.visit solves visits
  cases visits with
  | unchanged listed same =>
      refine .right _ ?_
      rw [List.length_erase_of_mem listed]
      exact Nat.sub_one_lt (List.length_pos_of_mem listed).ne'
  | @changed visited listed different =>
      refine .left _ _ (Finset.card_lt_card (Finset.ssubset_iff_subset_ne.mpr ⟨?_, ?_⟩))
      · intro entry absent
        rw [mem_missing] at absent ⊢
        refine ⟨absent.1, fun live => absent.2 ?_⟩
        rw [Table.get_set]
        split
        · next same => exact same ▸ underway.grows _ _ live
        · exact live
      · intro same
        refine different fun reg => ⟨fun live => ?_, underway.grows visited reg⟩
        by_contra unrecorded
        have recorded := after.below visited reg
        rw [Table.get_set_self] at recorded
        have member : (visited, reg) ∈ f.missing sweep :=
          mem_missing.mpr ⟨known visited reg (recorded live), unrecorded⟩
        rw [← same, mem_missing, Table.get_set_self] at member
        exact member.2 live

/-- A worklist iteration ends. -/
theorem Underway.acc (solves : f.Solves liveIn liveOut)
    (known : ∀ block, ∀ reg ∈ liveIn.get block, reg ∈ f.regSet)
    (underway : f.Underway liveIn sweep) : Acc (fun next sweep => f.Visits sweep next) sweep := by
  have wellFounded : WellFounded (Prod.Lex (· < ·) (· < ·) : Nat × Nat → Nat × Nat → Prop) :=
    WellFounded.prod_lex Nat.lt_wfRel.wf Nat.lt_wfRel.wf
  induction weight : ((f.missing sweep).card, sweep.agenda.length) using wellFounded.induction
    generalizing sweep with
  | h heavy ih =>
      refine .intro _ fun next visits => ?_
      refine ih _ ?_ (underway.visit solves visits) rfl
      exact weight ▸ underway.lighter solves known visits

/-- A worklist iteration with nothing left to visit has found the solution it stayed below. -/
theorem Underway.ended (solves : f.Solves liveIn liveOut)
    (least : ∀ {other otherOut}, f.Solves other otherOut →
      ∀ block, ∀ reg ∈ liveIn.get block, reg ∈ other.get block)
    (underway : f.Underway liveIn sweep) (ended : sweep.agenda = []) :
    (∀ block reg, reg ∈ sweep.liveIn.get block ↔ reg ∈ liveIn.get block) ∧
      ∀ block reg, reg ∈ sweep.liveOut.get block ↔ reg ∈ liveOut.get block := by
  have settled (block : Fin f.blocks.length) := underway.settled block (by simp [ended])
  have solution : f.Solves sweep.liveIn sweep.liveOut :=
    { top := fun block reg => by
        have same : ∀ reg, reg ∈ (f.blocks.get block).transfer (sweep.liveOut.get block) ↔
            reg ∈ (f.blocks.get block).transfer (f.gather sweep.liveIn block) := by
          intro reg
          rw [Block.mem_transfer, Block.mem_transfer, (settled block).2]
        rw [same]
        exact ⟨underway.grows block reg, (settled block).1 reg⟩
      bottom := fun block reg => by rw [(settled block).2, mem_gather] }
  have sameIn (block : Fin f.blocks.length) (reg : Reg) :
      reg ∈ sweep.liveIn.get block ↔ reg ∈ liveIn.get block :=
    ⟨underway.below block reg, least solution block reg⟩
  refine ⟨sameIn, fun block reg => ?_⟩
  rw [solution.bottom, solves.bottom]
  simp only [sameIn]

theorem underway_of_reaches (solves : f.Solves liveIn liveOut) (underway : f.Underway liveIn sweep)
    (reaches : Relation.ReflTransGen f.Visits sweep next) : f.Underway liveIn next := by
  induction reaches with
  | refl => exact underway
  | tail _ visits ih => exact ih.visit solves visits

/-- The live sets of a function.  A register is live into a block if it is tracked and some path from
the top of the block comes to a use of it before any definition; what is live out of a block is what
is live into a successor; no solution of the liveness equations is smaller; and every worklist
iteration that starts with all blocks ends, in whatever order it visits them, with these sets. -/
theorem liveness_exact (f : Func) (proper : f.Proper) :
    ∃ liveness, f.liveness = .ok liveness ∧
      (∀ block reg, reg ∈ liveness.liveIn.get block ↔
        reg.isTracked = true ∧ f.Needs reg ⟨block, 0⟩) ∧
      (∀ block reg, reg ∈ liveness.liveOut.get block ↔
        ∃ succ : Fin f.blocks.length, succ.val ∈ (f.blocks.get block).term.targets ∧
          reg ∈ liveness.liveIn.get succ) ∧
      f.Solves liveness.liveIn liveness.liveOut ∧
      (∀ liveIn liveOut, f.Solves liveIn liveOut → ∀ block reg,
        (reg ∈ liveness.liveIn.get block → reg ∈ liveIn.get block) ∧
          (reg ∈ liveness.liveOut.get block → reg ∈ liveOut.get block)) ∧
      ∀ agenda : List (Fin f.blocks.length), (∀ block, block ∈ agenda) →
        Acc (fun next sweep => f.Visits sweep next) (f.sweepFrom agenda) ∧
        ∀ last, Relation.ReflTransGen f.Visits (f.sweepFrom agenda) last → last.agenda = [] →
          (∀ block reg, reg ∈ last.liveIn.get block ↔ reg ∈ liveness.liveIn.get block) ∧
          ∀ block reg, reg ∈ last.liveOut.get block ↔ reg ∈ liveness.liveOut.get block := by
  have solves : f.Solves _ _ := solves_livenessAlong
  have least {liveIn liveOut : Table f.blocks.length RegSet} (other : f.Solves liveIn liveOut)
      (block : Fin f.blocks.length) (reg : Reg)
      (live : reg ∈ (f.livenessAlong (.ofSuccs f.flow.targets)).liveIn.get block) :
      reg ∈ liveIn.get block := by
    obtain ⟨tracked, needs⟩ := mem_liveIn_iff_needs.mp live
    exact other.mem_of_needs tracked needs
  have known (block : Fin f.blocks.length) (reg : Reg)
      (live : reg ∈ (f.livenessAlong (.ofSuccs f.flow.targets)).liveIn.get block) :
      reg ∈ f.regSet := (mem_liveIn.mp live).1.1
  refine ⟨_, proper.liveness_eq_ok, fun _ _ => mem_liveIn_iff_needs, solves.bottom, solves, ?_, ?_⟩
  · intro liveIn liveOut other block reg
    refine ⟨least other block reg, fun live => ?_⟩
    obtain ⟨succ, joined, live⟩ := (solves.bottom block reg).mp live
    exact (other.bottom block reg).mpr ⟨succ, joined, least other succ reg live⟩
  · intro agenda all
    have underway : f.Underway (f.livenessAlong (.ofSuccs f.flow.targets)).liveIn
        (f.sweepFrom agenda) := underway_sweepFrom all
    refine ⟨underway.acc solves known, fun last reaches ended => ?_⟩
    exact (underway_of_reaches solves underway reaches).ended solves least ended

/-- Counts down with a register that is live through the loop. -/
def counting : Func :=
  { name := "counting"
    blocks :=
      [⟨"entry", [.li (.virtual 0) 3, .li (.virtual 1) 7], .jump 1⟩,
        ⟨"loop", [.aluImm .addi (.virtual 0) (.virtual 0) (-1)],
          .branch .bne (.virtual 0) (.physical .zero) 1 2⟩,
        ⟨"done", [.store (.virtual 1) (.slot 0)], .ret⟩]
    slots := 1
    nextVirtual := 2 }

theorem liveness_exact_counting :
    counting.Proper ∧ ∃ liveness, counting.liveness = .ok liveness ∧
      counting.Needs (.virtual 1) ⟨⟨1, by decide⟩, 0⟩ ∧
      Reg.virtual 1 ∈ liveness.liveIn.get ⟨1, by decide⟩ ∧
      Reg.virtual 1 ∈ liveness.liveOut.get ⟨0, by decide⟩ := by
  have proper : counting.Proper := by
    refine ⟨by decide, fun block isBlock callee argc isCall => ?_⟩
    simp only [counting, List.mem_cons, List.not_mem_nil, or_false] at isBlock
    rcases isBlock with rfl | rfl | rfl <;> simp at isCall
  have needs : counting.Needs (.virtual 1) ⟨⟨1, by decide⟩, 0⟩ := by
    have used : counting.Needs (.virtual 1) ⟨⟨2, by decide⟩, 0⟩ :=
      ⟨_, .refl, .inl ⟨.store (.virtual 1) (.slot 0), rfl, by decide⟩⟩
    have jumped : counting.Needs (.virtual 1) ⟨⟨1, by decide⟩, 1⟩ :=
      used.step (.jump (by decide)) (by rintro ⟨instr, found, _⟩; cases found)
    refine jumped.step (.on (by decide)) ?_
    rintro ⟨instr, found, defined⟩
    cases found
    exact absurd defined (by decide)
  obtain ⟨liveness, found, inside, outside, _⟩ := liveness_exact counting proper
  have live := (inside ⟨1, by decide⟩ (.virtual 1)).mpr ⟨rfl, needs⟩
  exact ⟨proper, liveness, found, needs, live, (outside _ _).mpr ⟨⟨1, by decide⟩, by decide, live⟩⟩

end Func

end Lowering.Machine
