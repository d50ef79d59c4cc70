import Lowering.Proofs.Allocation.Sheltering

/-!
# Interference is exact

Two registers interfere if and only if some instruction defines one of them where the other one is
defined as well or needed behind it, and is not a copy of the other one.  What is needed is said by paths
to uses, without reference to the live sets that the graph is built from.
-/

namespace Lowering.Machine

variable {a b : Reg}

theorem Instr.isMove_and_mem_uses_iff {instr : Instr} {reg : Reg} :
    instr.isMove = true ∧ reg ∈ instr.uses ↔ ∃ dest, instr = .move dest reg := by
  cases instr <;> simp [isMove, uses, eq_comm]

/-- Straight code joins registers at one of its instructions. -/
theorem joined_iff_getElem? {code : List Instr} {live : RegSet} :
    Joined code live a b ↔ ∃ (i : Nat) (instr : Instr), code[i]? = some instr ∧
      instr.Joins ((code.drop (i + 1)).foldr Instr.liveBefore live) a b := by
  induction code with
  | nil => simp [Joined]
  | cons first rest ih =>
      rw [Joined, ih]
      constructor
      · rintro (joins | ⟨i, instr, found, joins⟩)
        · exact ⟨0, first, rfl, joins⟩
        · exact ⟨i + 1, instr, found, joins⟩
      · rintro ⟨_ | i, instr, found, joins⟩
        · cases found
          exact .inl joins
        · exact .inr ⟨i, instr, found, joins⟩

namespace Func

variable {f : Func} {reg : Reg}

theorem needs_of_mem_liveOut {block : Fin f.blocks.length}
    (live : reg ∈ f.liveSets.liveOut.get block) :
    reg.isTracked = true ∧ f.Needs reg ⟨block, (f.blocks.get block).instrs.length⟩ := by
  obtain ⟨succ, joined, live⟩ := (solves_livenessAlong.bottom _ _).mp live
  obtain ⟨tracked, needs⟩ := mem_liveIn_iff_needs.mp live
  refine ⟨tracked, needs.step (.jump joined) ?_⟩
  rintro ⟨instr, found, _⟩
  rw [List.getElem?_eq_none (Nat.le_refl _)] at found
  cases found

/-- The live set at any place of a block holds the tracked registers that are needed there. -/
theorem mem_foldr_drop_iff_needs {block : Fin f.blocks.length} {i : Nat}
    (inside : i ≤ (f.blocks.get block).instrs.length) :
    reg ∈ ((f.blocks.get block).instrs.drop i).foldr Instr.liveBefore
        ((f.blocks.get block).liveEnd (f.liveSets.liveOut.get block)) ↔
      reg.isTracked = true ∧ f.Needs reg ⟨block, i⟩ := by
  constructor
  · intro live
    have found := needs_of_mem_foldr (fun _ => needs_of_mem_liveOut)
      (List.take_append_drop i _).symm live
    rwa [List.length_take, Nat.min_eq_left inside] at found
  · rintro ⟨tracked, needs⟩
    exact solves_livenessAlong.mem_drop tracked needs inside

/-- Some instruction defines `d` where `l` is defined as well or live behind it, and is no copy of
`l`. -/
def Separates (f : Func) (d l : Reg) : Prop :=
  ∃ (block : Fin f.blocks.length) (i : Nat) (instr : Instr),
    (f.blocks.get block).instrs[i]? = some instr ∧ d ∈ instr.defs ∧
      (l ∈ instr.defs ∨ f.Needs l ⟨block, i + 1⟩) ∧ ∀ dest, instr ≠ .move dest l

theorem joins_iff {block : Fin f.blocks.length} {i : Nat} {instr : Instr}
    (found : (f.blocks.get block).instrs[i]? = some instr) (different : a ≠ b) :
    instr.Joins (((f.blocks.get block).instrs.drop (i + 1)).foldr Instr.liveBefore
        ((f.blocks.get block).liveEnd (f.liveSets.liveOut.get block))) a b ↔
      (a.isTracked = true ∧ b.isTracked = true) ∧ a ∈ instr.defs ∧
        (b ∈ instr.defs ∨ f.Needs b ⟨block, i + 1⟩) ∧ ∀ dest, instr ≠ .move dest b := by
  have inside : i + 1 ≤ (f.blocks.get block).instrs.length := (List.getElem?_eq_some_iff.mp found).1
  unfold Instr.Joins
  rw [mem_foldr_drop_iff_needs inside, Instr.isMove_and_mem_uses_iff, not_exists]
  constructor
  · rintro ⟨_, ⟨defined, trackedA⟩, ⟨definedB, trackedB⟩ | ⟨⟨trackedB, needs⟩, notCopied⟩⟩
    · refine ⟨⟨trackedA, trackedB⟩, defined, .inl definedB, ?_⟩
      -- a copy defines its destination only
      rintro dest rfl
      exact different ((List.mem_singleton.mp defined).trans (List.mem_singleton.mp definedB).symm)
    · exact ⟨⟨trackedA, trackedB⟩, defined, .inr needs, notCopied⟩
  · rintro ⟨⟨trackedA, trackedB⟩, defined, definedB | needs, notCopied⟩
    · exact ⟨different, ⟨defined, trackedA⟩, .inl ⟨definedB, trackedB⟩⟩
    · exact ⟨different, ⟨defined, trackedA⟩, .inr ⟨⟨trackedB, needs⟩, notCopied⟩⟩

theorem exists_joined_iff (different : a ≠ b) :
    (∃ block, Joined (f.blocks.get block).instrs
      ((f.blocks.get block).liveEnd (f.liveSets.liveOut.get block)) a b) ↔
      (a.isTracked = true ∧ b.isTracked = true) ∧ f.Separates a b := by
  simp only [joined_iff_getElem?]
  constructor
  · rintro ⟨block, i, instr, found, joins⟩
    obtain ⟨tracked, separates⟩ := (joins_iff found different).mp joins
    exact ⟨tracked, block, i, instr, found, separates⟩
  · rintro ⟨tracked, block, i, instr, found, separates⟩
    exact ⟨block, i, instr, found, (joins_iff found different).mpr ⟨tracked, separates⟩⟩

theorem hasEdge_iff_separates (different : a ≠ b) :
    (f.interference f.liveSets).hasEdge a b = true ↔
      (a.isTracked = true ∧ b.isTracked = true) ∧ (f.Separates a b ∨ f.Separates b a) := by
  rw [hasEdge_liveSets_iff, exists_or, exists_joined_iff different, exists_joined_iff different.symm,
    and_comm (a := b.isTracked = true), ← and_or_left]

/-- The nodes of an interference graph are the tracked registers of the function. -/
theorem mem_nodes_liveSets_iff :
    reg ∈ (f.interference f.liveSets).nodes ↔ reg.isTracked = true ∧ reg ∈ f.regSet := by
  refine ⟨fun node => ⟨?_, mem_regSet_of_mem_nodes node⟩, fun ⟨tracked, mentioned⟩ =>
    mem_nodes_interference _ mentioned tracked⟩
  rcases mem_nodes_interference_cases node with ⟨_, tracked⟩ | ⟨other, edge⟩
  · exact tracked
  · have different : reg ≠ other := by
      rintro rfl
      rw [(undirected_interference _).irrefl] at edge
      cases edge
    exact ((hasEdge_iff_separates different).mp edge).1.1

/-- The interference graph of a function.  Two registers are joined if and only if both are tracked and
some instruction defines one of them where the other one is defined as well or live behind it, without
being a copy of the other one; edges have no direction and join no register with itself; the nodes are
the tracked registers that occur in the function. -/
theorem interference_exact (f : Func) (proper : f.Proper) :
    ∃ liveness, f.liveness = .ok liveness ∧
      (∀ x y, x ≠ y → ((f.interference liveness).hasEdge x y = true ↔
        (x.isTracked = true ∧ y.isTracked = true) ∧ (f.Separates x y ∨ f.Separates y x))) ∧
      (∀ reg, reg ∈ (f.interference liveness).nodes ↔
        reg.isTracked = true ∧ ∃ block ∈ f.blocks, reg ∈ block.regs) ∧
      (∀ x y, (f.interference liveness).hasEdge x y = (f.interference liveness).hasEdge y x) ∧
      ∀ x, (f.interference liveness).hasEdge x x = false := by
  have undirected := undirected_interference (f := f) f.liveSets
  refine ⟨f.liveSets, proper.liveness_eq_ok, fun x y => hasEdge_iff_separates, fun reg => ?_,
    fun x y => ?_, undirected.irrefl⟩
  · rw [mem_nodes_liveSets_iff, mem_regSet]
  · exact Bool.eq_iff_iff.mpr ⟨undirected.symm x y, undirected.symm y x⟩

/-- Doubles a number by way of a copy whose source stays live. -/
def doublingCopy : Func where
  name := "double"
  blocks := [⟨"entry", [.li (.virtual 0) 5, .move (.virtual 1) (.virtual 0),
    .alu .add (.virtual 2) (.virtual 0) (.virtual 1), .store (.virtual 2) (.slot 0)], .ret⟩]
  slots := 1
  nextVirtual := 3

theorem interference_exact_doublingCopy :
    doublingCopy.Proper ∧
      (doublingCopy.Separates (.virtual 1) (.physical .ra) ∨
        doublingCopy.Separates (.physical .ra) (.virtual 1)) ∧
      ¬ (doublingCopy.Separates (.virtual 1) (.virtual 0) ∨
        doublingCopy.Separates (.virtual 0) (.virtual 1)) := by
  have proper : doublingCopy.Proper := by
    refine ⟨by decide, fun block isBlock callee argc isCall => ?_⟩
    cases List.mem_singleton.mp isBlock
    simp at isCall
  obtain ⟨liveness, found, joined, _⟩ := interference_exact doublingCopy proper
  obtain rfl : doublingCopy.liveSets = liveness := Except.ok.inj (proper.liveness_eq_ok.symm.trans found)
  refine ⟨proper, ((joined _ _ (by decide)).mp (by decide)).2, fun separated => ?_⟩
  have edge := (joined _ _ (by decide)).mpr ⟨⟨rfl, rfl⟩, separated⟩
  exact absurd edge (by decide)

end Func

end Lowering.Machine
