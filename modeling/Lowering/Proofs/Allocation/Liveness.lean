import Lowering.Allocation.Liveness
import Lowering.Proofs.Flow.Edges
import Lowering.Proofs.Flow.Search

/-!
# Live sets

A live set is seen through membership.  What is live into a block contains what the block needs,
given what is live out of it, and what is live out of a block is what is live into a successor.
-/

namespace Lowering.Machine

namespace RegSet

variable {live : RegSet} {regs : List Reg} {reg : Reg}

theorem mem_insert {added : Reg} : reg ∈ live.insert added ↔ reg = added ∨ reg ∈ live := by
  rw [Std.TreeSet.mem_insert, Reg.order_eq_iff, eq_comm]

theorem mem_toList : reg ∈ live.toList ↔ reg ∈ live := by
  rw [← List.contains_iff_mem, Std.TreeSet.contains_toList, Std.TreeSet.contains_iff_mem]

theorem mem_insertMany {more : RegSet} : reg ∈ live.insertMany more ↔ reg ∈ live ∨ reg ∈ more := by
  have listed : live.insertMany more = live.insertMany more.toList := by
    unfold Std.TreeSet.insertMany Std.TreeMap.insertManyIfNewUnit
      Std.DTreeMap.Const.insertManyIfNewUnit Std.DTreeMap.Internal.Impl.Const.insertManyIfNewUnit
    simp only [Std.TreeSet.forIn_eq_forIn_toList]
  rw [listed, Std.TreeSet.mem_insertMany_list, List.contains_iff_mem, mem_toList]

theorem mem_addTracked :
    reg ∈ addTracked live regs ↔ (reg ∈ regs ∧ reg.isTracked = true) ∨ reg ∈ live := by
  unfold addTracked
  rw [← List.mem_filter]
  induction regs.filter Reg.isTracked generalizing live with
  | nil => simp
  | cons added rest ih =>
      rw [List.foldl_cons, ih, mem_insert, List.mem_cons, or_left_comm, or_assoc]

theorem mem_removeAll : reg ∈ removeAll live regs ↔ reg ∈ live ∧ reg ∉ regs := by
  unfold removeAll
  induction regs generalizing live with
  | nil => simp
  | cons removed rest ih =>
      rw [List.foldl_cons, ih, Std.TreeSet.mem_erase, ne_eq, Reg.order_eq_iff,
        List.mem_cons, not_or, eq_comm]
      exact ⟨fun ⟨⟨different, member⟩, absent⟩ => ⟨member, different, absent⟩,
        fun ⟨member, different, absent⟩ => ⟨⟨different, member⟩, absent⟩⟩

end RegSet

theorem Instr.mem_liveBefore {instr : Instr} {live : RegSet} {reg : Reg} :
    reg ∈ instr.liveBefore live ↔
      (reg ∈ instr.uses ∧ reg.isTracked = true) ∨ (reg ∈ live ∧ reg ∉ instr.defs) := by
  unfold liveBefore
  rw [RegSet.mem_addTracked, RegSet.mem_removeAll]

/-- A register is live before some instructions because of them, or because it is live behind them
and they do not define it. -/
theorem mem_foldr_liveBefore {instrs : List Instr} {live : RegSet} {reg : Reg} :
    reg ∈ instrs.foldr Instr.liveBefore live ↔
      reg ∈ instrs.foldr Instr.liveBefore ∅ ∨
        (reg ∈ live ∧ ∀ instr ∈ instrs, reg ∉ instr.defs) := by
  induction instrs with
  | nil => simp
  | cons instr rest ih =>
      rw [List.foldr_cons, List.foldr_cons, Instr.mem_liveBefore, Instr.mem_liveBefore,
        ih, List.forall_mem_cons]
      by_cases defined : reg ∈ instr.defs <;> simp [defined, or_assoc]

namespace Block

variable {block : Block} {reg : Reg}

theorem defines_eq_false_iff :
    block.defines reg = false ↔ ∀ instr ∈ block.instrs, reg ∉ instr.defs := by
  unfold defines
  simp

theorem mem_transfer {liveOut : RegSet} :
    reg ∈ block.transfer liveOut ↔
      reg ∈ block.exposed ∨ (reg ∈ liveOut ∧ block.defines reg = false) := by
  unfold exposed transfer
  rw [mem_foldr_liveBefore, @mem_foldr_liveBefore _ (RegSet.addTracked ∅ _),
    RegSet.mem_addTracked, RegSet.mem_addTracked, defines_eq_false_iff]
  constructor
  · rintro (exposed | ⟨used | out, untouched⟩)
    · exact .inl (.inl exposed)
    · exact .inl (.inr ⟨.inl used, untouched⟩)
    · exact .inr ⟨out, untouched⟩
  · rintro ((exposed | ⟨used | none, untouched⟩) | ⟨out, untouched⟩)
    · exact .inl exposed
    · exact .inr ⟨.inl used, untouched⟩
    · simp at none
    · exact .inr ⟨.inr out, untouched⟩

end Block

namespace Func

variable {f : Func} {edges : Edges f.blocks.length} {block : Fin f.blocks.length} {reg : Reg}

theorem mem_regSet : reg ∈ f.regSet ↔ ∃ block ∈ f.blocks, reg ∈ block.regs := by
  unfold regSet
  rw [Std.TreeSet.mem_ofList, List.contains_iff_mem, List.mem_flatMap]

theorem mem_get_foldl_modify {n : Nat} (blocks : List (Fin n)) (table : Table n RegSet)
    {added : Reg} {block : Fin n} :
    reg ∈ (blocks.foldl (fun table block => table.modify block fun live => live.insert added)
        table).get block ↔
      (reg = added ∧ block ∈ blocks) ∨ reg ∈ table.get block := by
  induction blocks generalizing table with
  | nil => simp
  | cons first rest ih =>
      rw [List.foldl_cons, ih, List.mem_cons]
      unfold Table.modify
      rw [Table.get_set]
      by_cases same : first = block
      · rw [if_pos same, RegSet.mem_insert, same]
        simp only [true_or, and_true]
        exact ⟨fun known => known.elim (fun both => .inl both.1) id, .inr⟩
      · rw [if_neg same]
        simp only [Ne.symm same, false_or]

theorem mem_get_foldl_foldl_modify {n : Nat} (blocksOf : Reg → List (Fin n)) (regs : List Reg)
    (table : Table n RegSet) {block : Fin n} :
    reg ∈ (regs.foldl (fun table reg => (blocksOf reg).foldl
        (fun table block => table.modify block fun live => live.insert reg) table) table).get block ↔
      (reg ∈ regs ∧ block ∈ blocksOf reg) ∨ reg ∈ table.get block := by
  induction regs generalizing table with
  | nil => simp
  | cons first rest ih =>
      rw [List.foldl_cons, ih, mem_get_foldl_modify, List.mem_cons]
      by_cases same : reg = first
      · simp only [same, true_and, true_or]
        exact ⟨fun known => known.elim (fun both => .inl both.2) id, .inr⟩
      · simp only [same, false_and, false_or]

/-- The registers that each block uses before it defines them. -/
def exposedTable (f : Func) : Table f.blocks.length RegSet :=
  Table.tabulate fun block => (f.blocks.get block).exposed

theorem mem_liveIn :
    reg ∈ (f.livenessAlong edges).liveIn.get block ↔
      (reg ∈ f.regSet ∧ reg.isTracked = true) ∧ block ∈ f.liveBlocks edges f.exposedTable reg := by
  refine (mem_get_foldl_foldl_modify (f.liveBlocks edges f.exposedTable) _ _).trans ?_
  rw [List.mem_filter, RegSet.mem_toList]
  simp

theorem mem_foldl_insertMany {n : Nat} (liveIn : Table n RegSet) (succs : List (Fin n))
    (live : RegSet) :
    reg ∈ succs.foldl (fun live succ => live.insertMany (liveIn.get succ)) live ↔
      reg ∈ live ∨ ∃ succ ∈ succs, reg ∈ liveIn.get succ := by
  induction succs generalizing live with
  | nil => simp
  | cons first rest ih =>
      rw [List.foldl_cons, ih, RegSet.mem_insertMany, or_assoc]
      simp only [List.mem_cons, exists_eq_or_imp]

theorem mem_liveOut :
    reg ∈ (f.livenessAlong edges).liveOut.get block ↔
      ∃ succ ∈ edges.succs.get block, reg ∈ (f.livenessAlong edges).liveIn.get succ := by
  unfold livenessAlong
  dsimp only
  rw [Table.get_tabulate, mem_foldl_insertMany]
  simp

/-- Liveness is defined for functions whose jumps and calls are proper. -/
theorem liveness_eq_ok {liveness : Liveness f.blocks.length} (found : f.liveness = .ok liveness) :
    f.arity = .ok () ∧ (∀ block, ∀ target ∈ f.flow.succs block, target < f.blocks.length) ∧
      liveness = f.livenessAlong (.ofSuccs f.flow.targets) := by
  unfold Func.liveness at found
  cases built : Edges.build f.flow with
  | error fault =>
      rw [built] at found
      cases found
  | ok edges =>
      rw [built] at found
      obtain ⟨inside, rfl⟩ := Edges.build_eq_ok_iff.mp built
      cases arity : f.arity with
      | error fault =>
          rw [arity] at found
          cases found
      | ok done =>
          rw [arity] at found
          cases found
          exact ⟨rfl, inside, rfl⟩

/-- Jumps stay inside the function, and there are argument registers for all calls. -/
structure Proper (f : Func) : Prop where
  targets : ∀ block ∈ f.blocks, ∀ target ∈ block.term.targets, target < f.blocks.length
  calls : ∀ block ∈ f.blocks, ∀ callee argc, Instr.call callee argc ∈ block.instrs → argc ≤ 8

theorem Proper.arity_eq_ok (proper : f.Proper) : f.arity = .ok () := by
  refine forM_eq_ok_iff.mpr fun block isBlock => forM_eq_ok_iff.mpr fun instr isInstr => ?_
  cases instr with
  | call callee argc => exact if_pos (proper.calls block isBlock callee argc isInstr)
  | _ => rfl

/-- Functions whose jumps and calls are proper have live sets. -/
theorem Proper.liveness_eq_ok (proper : f.Proper) :
    f.liveness = .ok (f.livenessAlong (.ofSuccs f.flow.targets)) := by
  have built : Edges.build f.flow = .ok (.ofSuccs f.flow.targets) :=
    Edges.build_eq_ok_iff.mpr ⟨fun block => proper.targets _ (List.get_mem _ _), rfl⟩
  unfold Func.liveness
  rw [built, proper.arity_eq_ok]
  rfl

/-- A register that some instructions need is one that they mention. -/
theorem mentioned_of_mem_foldr {instrs : List Instr} {live : RegSet}
    (needed : reg ∈ instrs.foldr Instr.liveBefore live) :
    (reg ∈ instrs.flatMap (fun instr => instr.uses ++ instr.defs) ∧ reg.isTracked = true) ∨
      reg ∈ live := by
  induction instrs with
  | nil => exact .inr needed
  | cons instr rest ih =>
      rw [List.flatMap_cons, List.mem_append, List.mem_append]
      rcases Instr.mem_liveBefore.mp needed with ⟨used, tracked⟩ | ⟨later, _⟩
      · exact .inl ⟨.inl (.inl used), tracked⟩
      · exact (ih later).imp_left fun ⟨mentioned, tracked⟩ =>
          ⟨.inr mentioned, tracked⟩

theorem mem_regSet_of_mem_exposed (exposed : reg ∈ (f.blocks.get block).exposed) :
    reg ∈ f.regSet ∧ reg.isTracked = true := by
  rw [mem_regSet]
  have member : f.blocks.get block ∈ f.blocks := List.get_mem _ _
  unfold Block.exposed Block.transfer at exposed
  rcases mentioned_of_mem_foldr exposed with ⟨mentioned, tracked⟩ | needed
  · exact ⟨⟨_, member, List.mem_append_left _ mentioned⟩, tracked⟩
  · rcases RegSet.mem_addTracked.mp needed with ⟨used, tracked⟩ | none
    · exact ⟨⟨_, member, List.mem_append_right _ used⟩, tracked⟩
    · simp at none

theorem isTracked_of_mem_liveOut (live : reg ∈ (f.livenessAlong edges).liveOut.get block) :
    reg.isTracked = true := by
  obtain ⟨succ, _, liveIn⟩ := mem_liveOut.mp live
  exact (mem_liveIn.mp liveIn).1.2

/-- What a block needs, given what is live out of it, is live into it. -/
theorem mem_liveIn_of_mem_transfer {succ : Fin f.blocks.length → List (Fin f.blocks.length)}
    (needed : reg ∈ (f.blocks.get block).transfer
      ((f.livenessAlong (.ofSuccs succ)).liveOut.get block)) :
    reg ∈ (f.livenessAlong (.ofSuccs succ)).liveIn.get block := by
  rw [mem_liveIn]
  unfold liveBlocks
  rw [Search.mem_breadthFirst_iff]
  rcases Block.mem_transfer.mp needed with exposed | ⟨out, untouched⟩
  · refine ⟨mem_regSet_of_mem_exposed exposed, block, ?_, .refl⟩
    rw [List.mem_filter, exposedTable, Table.get_tabulate, Std.TreeSet.contains_iff_mem]
    exact ⟨List.mem_finRange _, exposed⟩
  · obtain ⟨next, edge, liveNext⟩ := mem_liveOut.mp out
    obtain ⟨known, liveBlock⟩ := mem_liveIn.mp liveNext
    obtain ⟨root, isRoot, reaches⟩ := Search.mem_breadthFirst_iff.mp liveBlock
    refine ⟨known, root, isRoot, reaches.tail ?_⟩
    rw [List.mem_filter, Edges.mem_preds_ofSuccs, untouched]
    exact ⟨edge, rfl⟩

end Func

end Lowering.Machine
