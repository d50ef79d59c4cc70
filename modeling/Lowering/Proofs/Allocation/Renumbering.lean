import Lowering.Proofs.Allocation.TwinColors
import Mathlib

/-!
# The numbers of virtual registers

Allocation only looks at the order of virtual registers.  A function whose virtual registers are
renumbered in the same order has the renumbered live sets, copies and interference graph, and is
allocated to the same code in as many rounds, with as many spills and merged copies.
-/

namespace Lowering

/-- Changes the number of a virtual register. -/
def Reg.renumber (rename : Nat → Nat) : Reg → Reg
  | .virtual number => .virtual (rename number)
  | reg => reg

namespace Machine

namespace Allocator

variable {allocator : Allocator} {f : Func} {liveness : Liveness f.blocks.length}

theorem rounds_of_liveness_error {fault : Fault} (missing : f.liveness = .error fault)
    (report : AllocationReport) (left : Nat) :
    (allocator.rounds f report (left + 1)).result = .error fault := by
  replace missing : (liftM f.liveness : Pass (Liveness f.blocks.length)).result = .error fault :=
    missing
  have stopped : (allocator.round f).result = .error fault := Pass.result_bind_of_error missing
  rw [rounds]
  exact Pass.result_bind_of_error stopped

/-- A round without spills colors the registers of its function. -/
theorem exists_color?_finished (found : f.liveness = .ok liveness)
    (noSpill : (allocator.finished liveness).assignColors.spilled = []) (reg : Reg)
    (mentioned : reg ∈ f.regSet) (tracked : reg.isTracked = true) :
    ∃ color, (allocator.finished liveness).assignColors.color? reg = some color := by
  obtain ⟨consistent, ended⟩ := allocator.consistent_finished found
  exact Round.exists_color?_of_no_spill consistent.invariant ended noSpill
    (Func.mem_nodes_interference liveness mentioned tracked)

/-- The same report and the same code, or the same fault. -/
inductive SameOutcome : Except Fault (Func × AllocationReport) →
    Except Fault (Func × AllocationReport) → Prop where
  | ok {allocated other : Func} {report : AllocationReport} : allocated.SameCode other →
      SameOutcome (.ok (allocated, report)) (.ok (other, report))
  | error (fault : Fault) : SameOutcome (.error fault) (.error fault)

end Allocator

namespace Func

variable {f g : Func}

theorem checkInstrs_counter (f : Func) (next : Nat) (label : String) (instrs : List Instr) :
    Func.checkInstrs { f with nextVirtual := next } label instrs = f.checkInstrs label instrs := by
  induction instrs with
  | nil => rfl
  | cons instr rest ih =>
      rw [checkInstrs, checkInstrs, ih]
      rfl

theorem checkBlocks_counter (f : Func) (next : Nat) (blocks : List Block) :
    Func.checkBlocks { f with nextVirtual := next } blocks = f.checkBlocks blocks := by
  induction blocks with
  | nil => rfl
  | cons block rest ih =>
      rw [checkBlocks, checkBlocks, ih, checkInstrs_counter]
      rfl

theorem SameCode.checkAllocated_eq (same : f.SameCode g) : f.checkAllocated = g.checkAllocated := by
  obtain ⟨name, blocks, slots, next⟩ := f
  obtain ⟨_, _, _, otherNext⟩ := g
  obtain ⟨rfl, rfl, rfl⟩ := same
  exact (checkBlocks_counter _ otherNext blocks).symm

/-- A reserved counter is the old one or comes right after a register. -/
theorem reserveVirtuals_attained {reserved : Func} (ok : f.reserveVirtuals = .ok reserved) :
    (∀ number, Reg.virtual number ∈ f.regSet → number + 1 < Width.w32.bound) ∧
      f.nextVirtual ≤ reserved.nextVirtual ∧
      (reserved.nextVirtual = f.nextVirtual ∨
        ∃ number, Reg.virtual number ∈ f.regSet ∧ reserved.nextVirtual = number + 1) := by
  obtain ⟨regs, areRegs, ok⟩ := bind_eq_ok.mp ok
  obtain ⟨next, isNext, ok⟩ := bind_eq_ok.mp ok
  obtain ⟨_, _, areRegs⟩ := bind_eq_ok.mp areRegs
  cases ok
  cases areRegs
  obtain ⟨grows, inside, attained⟩ := foldlM_reserve isNext
  refine ⟨fun number mentioned => (inside number (f.mem_virtuals.mpr mentioned)).2, grows,
    attained.imp_right ?_⟩
  rintro ⟨number, member, isLast⟩
  exact ⟨number, f.mem_virtuals.mp member, isLast⟩

end Func

namespace Pairing

variable {p : Pairing}

theorem rounds_run {m m' : Nat} (size : m = m') (pool : List PhysReg)
    {graph otherGraph : InterferenceGraph} (graphs : p.Graphs graph otherGraph)
    {moves : Table m MoveSite} {otherMoves : Table m' MoveSite}
    (sites : ∀ (move : Fin m) (move' : Fin m'), move.val = move'.val →
      p.Sites (moves.get move) (otherMoves.get move')) :
    p.Colorings (Round.start pool graph moves).run.assignColors
        (Round.start pool otherGraph otherMoves).run.assignColors ∧
      (Round.start pool graph moves).run.mergedSites =
        (Round.start pool otherGraph otherMoves).run.mergedSites := by
  subst size
  have rounds := (Rounds.start pool graphs fun move => sites move move rfl).run
  exact ⟨rounds.assignColors, rounds.mergedSites_eq⟩

namespace Funcs

variable {f g : Func}

theorem finished (funcs : p.Funcs f g) (allocator : Allocator) :
    p.Colorings (allocator.finished f.liveSets).assignColors
        (allocator.finished g.liveSets).assignColors ∧
      (allocator.finished f.liveSets).mergedSites = (allocator.finished g.liveSets).mergedSites := by
  have moves : List.Forall₂ p.Sites (allocator.movesOf f.liveSets)
      (allocator.movesOf g.liveSets) := by
    unfold Allocator.movesOf
    split
    · exact funcs.moves
    · exact .nil
  refine rounds_run moves.length_eq allocator.pool (funcs.interference funcs.livenesses) ?_
  intro move move' same
  rw [Table.get_tabulate, Table.get_tabulate]
  have sites := moves.get move.isLt (same ▸ move'.isLt)
  simpa [same] using sites

/-- Rounds on twins have the same outcome, unless a counter runs out. -/
theorem rounds (funcs : p.Funcs f g) (counters : p.Counters f.nextVirtual g.nextVirtual)
    (allocator : Allocator) (report : AllocationReport) (left : Nat) :
    Alike p.Raises p.Lowers (fun done other => done.1.SameCode other.1 ∧ done.2 = other.2)
      (allocator.rounds f report left).result (allocator.rounds g report left).result := by
  induction left generalizing f g report with
  | zero =>
      have same := funcs.name
      show Alike _ _ _ (.error (.noColoring f.name _ _)) (.error (.noColoring g.name _ _))
      rw [same]
      exact .error _
  | succ left ih =>
      rcases funcs.liveness_cases with ⟨found, otherFound⟩ | ⟨fault, missing, otherMissing⟩
      · obtain ⟨colorings, sameSites⟩ := funcs.finished allocator
        have sameLength := colorings.spilled.length_eq
        by_cases noSpill : (allocator.finished f.liveSets).assignColors.spilled = []
        · have otherNoSpill : (allocator.finished g.liveSets).assignColors.spilled = [] := by
            rw [noSpill] at sameLength
            exact List.length_eq_zero_iff.mp sameLength.symm
          rw [Allocator.rounds_of_colored found noSpill,
            Allocator.rounds_of_colored otherFound otherNoSpill, sameSites]
          refine (funcs.applyColors colorings
            (Allocator.exists_color?_finished found noSpill) _).bind ?_
          rintro ⟨allocated, selfMoves⟩ ⟨otherAllocated, _⟩ ⟨sameCode, rfl⟩
          exact .ok ⟨sameCode, rfl⟩
        · have otherSpills : (allocator.finished g.liveSets).assignColors.spilled ≠ [] := by
            intro otherNoSpill
            rw [otherNoSpill] at sameLength
            exact noSpill (List.length_eq_zero_iff.mp sameLength)
          rw [Allocator.rounds_of_spill found noSpill,
            Allocator.rounds_of_spill otherFound otherSpills, sameLength]
          exact (funcs.spill counters colorings.spilled).bind fun _ _ ⟨relieved, counters⟩ =>
            ih relieved counters _
      · rw [Allocator.rounds_of_liveness_error missing,
          Allocator.rounds_of_liveness_error otherMissing]
        exact .error fault

end Funcs

/-- The pairs so far, and all numbers from two counters on. -/
def extend (p : Pairing) (next next' : Nat)
    (below : ∀ {a b : Nat}, p.pairs a b → a < next ∧ b < next') : Pairing where
  pairs a b := p.pairs a b ∨ ∃ i, a = next + i ∧ b = next' + i
  lt_iff_lt := by
    rintro a b a' b' (first | ⟨i, rfl, rfl⟩) (second | ⟨j, rfl, rfl⟩)
    · exact p.lt_iff_lt first second
    · have := below first
      omega
    · have := below second
      omega
    · omega

namespace Funcs

variable {f g : Func}

variable (funcs : p.Funcs f g)
include funcs

theorem registers :
    Alike p.Raises p.Lowers
      (fun regs others => f.arity = .ok () ∧ regs = f.regSet.toList ∧ others = g.regSet.toList)
      f.registers g.registers := by
  unfold Func.registers
  rw [funcs.arity_eq]
  cases g.arity with
  | error fault => exact .error fault
  | ok done => exact .ok ⟨rfl, rfl, rfl⟩

/-- A counter that gets ahead is pushed by a register with a higher counterpart. -/
theorem raises_of_reserved (sameNext : f.nextVirtual = g.nextVirtual) {kept otherKept : Func}
    (ok : f.reserveVirtuals = .ok kept)
    (otherOk : g.reserveVirtuals = .ok otherKept) (ahead : kept.nextVirtual < otherKept.nextVirtual) :
    p.Raises := by
  obtain ⟨_, _, below⟩ := Func.reserveVirtuals_eq_ok ok
  obtain ⟨_, grown, _⟩ := Func.reserveVirtuals_attained ok
  obtain ⟨_, _, same | ⟨number, mentioned, isNext⟩⟩ := Func.reserveVirtuals_attained otherOk
  · omega
  · obtain ⟨_, twins⟩ := funcs.regSet.right _ mentioned
    cases twins with
    | virtual paired =>
        have lower := below _ ((funcs.regSet.mem_iff (.virtual paired)).mpr mentioned)
        exact ⟨_, number, paired, by omega⟩

theorem raises_of_reserve_error (proper : g.arity = .ok ()) {kept : Func} {fault : Fault}
    (ok : f.reserveVirtuals = .ok kept)
    (stopped : g.reserveVirtuals = .error fault) : p.Raises := by
  obtain ⟨small, _⟩ := Func.reserveVirtuals_attained ok
  by_contra notRaised
  have otherSmall : ∀ number, Reg.virtual number ∈ g.regSet → number + 1 < Width.w32.bound := by
    intro number mentioned
    obtain ⟨_, twins⟩ := funcs.regSet.right _ mentioned
    cases twins with
    | @virtual original _ paired =>
        have low := small original ((funcs.regSet.mem_iff (.virtual paired)).mpr mentioned)
        have notMore : ¬ original < number := fun more => notRaised ⟨original, number, paired, more⟩
        omega
  obtain ⟨next, otherOk⟩ := Func.reserveVirtuals_of_small proper otherSmall
  rw [otherOk] at stopped
  cases stopped

/-- Once their registers are reserved, the fresh registers of twins are twins too. -/
theorem reserved (sameNext : f.nextVirtual = g.nextVirtual) {kept otherKept : Func}
    (ok : f.reserveVirtuals = .ok kept)
    (otherOk : g.reserveVirtuals = .ok otherKept) :
    ∃ q : Pairing, q.Funcs kept otherKept ∧ q.Counters kept.nextVirtual otherKept.nextVirtual ∧
      (q.Raises → p.Raises) ∧ (q.Lowers → p.Lowers) := by
  obtain ⟨sameBlocks, sameSlots, below⟩ := Func.reserveVirtuals_eq_ok ok
  obtain ⟨otherBlocks, otherSlots, otherBelow⟩ := Func.reserveVirtuals_eq_ok otherOk
  let mentioned := p.only fun number => Reg.virtual number ∈ f.regSet
  have bounded {a b : Nat} (paired : mentioned.pairs a b) :
      a < kept.nextVirtual ∧ b < otherKept.nextVirtual :=
    ⟨below a paired.2, otherBelow b ((funcs.regSet.mem_iff (.virtual paired.1)).mp paired.2)⟩
  let q := mentioned.extend kept.nextVirtual otherKept.nextVirtual bounded
  have extended : q.Funcs f g := funcs.imp fun isMentioned twins => by
    cases twins with
    | virtual paired => exact .virtual (.inl ⟨paired, isMentioned⟩)
    | physical reg => exact .physical reg
    | spilled slot => exact .spilled slot
  refine ⟨q, ⟨?_, ?_, ?_⟩, fun i => .inr ⟨i, rfl, rfl⟩, ?_, ?_⟩
  · rw [Func.name_reserveVirtuals ok, Func.name_reserveVirtuals otherOk, funcs.name]
  · rw [sameBlocks, otherBlocks]
    exact extended.blocks
  · rw [sameSlots, otherSlots, funcs.slots]
  · rintro ⟨a, b, ⟨paired, _⟩ | ⟨i, rfl, rfl⟩, more⟩
    · exact ⟨a, b, paired, more⟩
    · exact raises_of_reserved funcs sameNext ok otherOk (by omega)
  · rintro ⟨a, b, ⟨paired, _⟩ | ⟨i, rfl, rfl⟩, less⟩
    · exact ⟨a, b, paired, less⟩
    · obtain ⟨b, a, paired, more⟩ :=
        raises_of_reserved funcs.symm sameNext.symm otherOk ok (by omega)
      exact ⟨a, b, paired, more⟩

/-- Reserving the registers of twins leads to twins, unless some number is too high. -/
theorem reserveVirtuals (sameNext : f.nextVirtual = g.nextVirtual) (proper : f.arity = .ok ()) :
    Alike p.Raises p.Lowers (fun kept otherKept => ∃ q : Pairing, q.Funcs kept otherKept ∧
        q.Counters kept.nextVirtual otherKept.nextVirtual ∧ (q.Raises → p.Raises) ∧
        (q.Lowers → p.Lowers))
      f.reserveVirtuals g.reserveVirtuals := by
  have otherProper : g.arity = .ok () := funcs.arity_eq ▸ proper
  cases ok : f.reserveVirtuals with
  | error fault =>
      cases Func.reserveVirtuals_onlyOverflows proper fault ok
      cases otherOk : g.reserveVirtuals with
      | error fault =>
          cases Func.reserveVirtuals_onlyOverflows otherProper fault otherOk
          exact .error _
      | ok otherKept =>
          obtain ⟨b, a, paired, more⟩ := raises_of_reserve_error funcs.symm proper otherOk ok
          exact .left _ ⟨a, b, paired, more⟩
  | ok kept =>
      cases otherOk : g.reserveVirtuals with
      | error fault =>
          cases Func.reserveVirtuals_onlyOverflows otherProper fault otherOk
          exact .right _ (raises_of_reserve_error funcs otherProper ok otherOk)
      | ok otherKept => exact .ok (funcs.reserved sameNext ok otherOk)

omit funcs in
theorem findSome?_slot? {regs others : List Reg} (paired : List.Forall₂ p.Twins regs others) :
    regs.findSome? Reg.slot? = others.findSome? Reg.slot? := by
  induction paired with
  | nil => rfl
  | cons first _ ih =>
      rw [List.findSome?_cons, List.findSome?_cons, first.slot?_eq, ih]

/-- Allocation of twins has the same outcome, unless a counter runs out. -/
theorem allocate (sameNext : f.nextVirtual = g.nextVirtual) (allocator : Allocator) :
    Alike p.Raises p.Lowers (fun done other => done.1.SameCode other.1 ∧ done.2 = other.2)
      (allocator.allocate f).result (allocator.allocate g).result := by
  unfold Allocator.allocate
  rw [Pass.result_bind, Pass.result_bind]
  refine Alike.bind funcs.registers ?_
  rintro _ _ ⟨proper, rfl, rfl⟩
  rw [findSome?_slot? funcs.regSet.toList, funcs.name]
  cases g.regSet.toList.findSome? Reg.slot? with
  | some slot => exact .error _
  | none =>
      dsimp only
      rw [Pass.result_bind, Pass.result_bind]
      refine Alike.bind (funcs.reserveVirtuals sameNext proper) ?_
      rintro kept otherKept ⟨q, areKept, counters, raises, lowers⟩
      rw [Pass.result_bind, Pass.result_bind]
      have rounds := areKept.rounds counters allocator ⟨0, 0, 0, 0⟩ allocator.maxRounds
      refine (rounds.imp raises lowers fun _ _ => id).bind ?_
      rintro ⟨allocated, report⟩ ⟨other, _⟩ ⟨same, rfl⟩
      dsimp only
      rw [same.checkAllocated_eq, Func.frameSize_congr same.slots, Pass.result_bind,
        Pass.result_bind]
      refine Alike.bind (Alike.refl _) ?_
      rintro verdict _ rfl
      cases verdict with
      | error objection => exact .error _
      | ok done =>
          dsimp only
          rw [Pass.result_bind, Pass.result_bind]
          refine Alike.bind (Alike.refl _) ?_
          rintro frame _ rfl
          exact .ok ⟨same, rfl⟩

end Funcs

end Pairing

def MoveSite.renumber (rename : Nat → Nat) (site : MoveSite) : MoveSite :=
  { site with dest := site.dest.renumber rename, src := site.src.renumber rename }

/-- Changes the numbers of the virtual registers of a function. -/
def Func.renumber (f : Func) (rename : Nat → Nat) : Func := f.mapRegs (Reg.renumber rename)

theorem Func.shiftVirtuals_eq_ok {f g : Func} {distance : Nat}
    (ok : f.shiftVirtuals distance = .ok g) : g = f.renumber (· + distance) := by
  have shift : shiftVirtual distance = Reg.renumber (· + distance) := by
    funext reg
    cases reg <;> rfl
  obtain ⟨_, _, ok⟩ := bind_eq_ok.mp ok
  cases ok
  rw [shift]
  rfl

/-- Live sets and copies of renumbered registers, block by block and in the same order. -/
structure Liveness.Renumbered (rename : Nat → Nat) {n n' : Nat} (liveness : Liveness n)
    (other : Liveness n') : Prop where
  size : n = n'
  liveIn : ∀ (block : Fin n) (block' : Fin n'), block.val = block'.val →
    (other.liveIn.get block').toList = (liveness.liveIn.get block).toList.map (Reg.renumber rename)
  liveOut : ∀ (block : Fin n) (block' : Fin n'), block.val = block'.val →
    (other.liveOut.get block').toList = (liveness.liveOut.get block).toList.map (Reg.renumber rename)
  moves : other.moves = liveness.moves.map (MoveSite.renumber rename)

/-- A graph of renumbered registers, with the same edges. -/
structure InterferenceGraph.Renumbered (rename : Nat → Nat) (graph other : InterferenceGraph) :
    Prop where
  nodes : other.nodes = graph.nodes.map (Reg.renumber rename)
  neighbors : ∀ reg ∈ graph.nodes,
    other.neighbors (reg.renumber rename) = (graph.neighbors reg).map (Reg.renumber rename)

namespace Pairing

section Renumbering

variable {p : Pairing} {change : Reg → Reg}

theorem Instrs.of_mapRegs {instr : Instr}
    (twins : ∀ reg ∈ instr.uses ++ instr.defs, p.Twins reg (change reg)) :
    p.Instrs instr (instr.mapRegs change) := by
  have address {addr : Address} (uses : ∀ reg ∈ addr.uses, p.Twins reg (change reg)) :
      p.Addresses addr (addr.mapRegs change) := by
    cases addr with
    | based base offset => exact .based offset (uses base (by simp [Address.uses]))
    | slot slot => exact .slot slot
  cases instr with
  | li dest imm => exact .li imm (twins dest (by simp [Instr.defs]))
  | la dest symbol => exact .la symbol (twins dest (by simp [Instr.defs]))
  | load dest addr =>
      exact .load (twins dest (by simp [Instr.defs]))
        (address fun reg used => twins reg (by simp [Instr.uses, used]))
  | store src addr =>
      exact .store (twins src (by simp [Instr.uses]))
        (address fun reg used => twins reg (by simp [Instr.uses, used]))
  | move dest src =>
      exact .move (twins dest (by simp [Instr.defs])) (twins src (by simp [Instr.uses]))
  | alu op dest lhs rhs =>
      exact .alu op (twins dest (by simp [Instr.defs])) (twins lhs (by simp [Instr.uses]))
        (twins rhs (by simp [Instr.uses]))
  | aluImm op dest lhs imm =>
      exact .aluImm op imm (twins dest (by simp [Instr.defs])) (twins lhs (by simp [Instr.uses]))
  | cmpZero op dest src =>
      exact .cmpZero op (twins dest (by simp [Instr.defs])) (twins src (by simp [Instr.uses]))
  | call callee argc => exact .call callee argc
  | spGrow => exact .spGrow
  | spRecover => exact .spRecover

theorem Terms.of_mapRegs {term : Terminator}
    (twins : ∀ reg ∈ term.uses, p.Twins reg (change reg)) : p.Terms term (term.mapRegs change) := by
  cases term with
  | ret => exact .ret
  | jump target => exact .jump target
  | branch op lhs rhs thenBlock elseBlock =>
      exact .branch op thenBlock elseBlock (twins lhs (by simp [Terminator.uses]))
        (twins rhs (by simp [Terminator.uses]))

theorem Blocks.of_mapRegs {block : Block} (twins : ∀ reg ∈ block.regs, p.Twins reg (change reg)) :
    p.Blocks block (block.mapRegs change) where
  label := rfl
  instrs := List.forall₂_map_right_iff.mpr (List.forall₂_same.mpr fun instr isInstr =>
    .of_mapRegs fun reg member => twins reg
      (List.mem_append_left _ (List.mem_flatMap.mpr ⟨instr, isInstr, member⟩)))
  term := .of_mapRegs fun reg member => twins reg (List.mem_append_right _ member)

variable {f : Func} {rename : Nat → Nat}
  (increasing : ∀ a b, Reg.virtual a ∈ f.regSet → Reg.virtual b ∈ f.regSet → a < b →
    rename a < rename b)

/-- The numbers of the virtual registers of a function, paired with their new numbers. -/
def renumbering : Pairing where
  pairs a b := Reg.virtual a ∈ f.regSet ∧ b = rename a
  lt_iff_lt := by
    rintro a b _ _ ⟨mentioned, rfl⟩ ⟨otherMentioned, rfl⟩
    rcases Nat.lt_trichotomy a b with less | rfl | more
    · exact iff_of_true less (increasing a b mentioned otherMentioned less)
    · simp
    · have := increasing b a otherMentioned mentioned more
      omega

theorem eq_renumber {a a' : Reg} (twins : (renumbering increasing).Twins a a') :
    a' = a.renumber rename := by
  cases twins with
  | virtual paired => exact congrArg Reg.virtual paired.2
  | physical reg => rfl
  | spilled slot => rfl

theorem eq_map_renumber {regs others : List Reg}
    (paired : List.Forall₂ (renumbering increasing).Twins regs others) :
    others = regs.map (Reg.renumber rename) := by
  induction paired with
  | nil => rfl
  | cons first _ ih =>
      rw [List.map_cons, ← eq_renumber increasing first, ih]

theorem eq_map_renumber_sites {moves others : List MoveSite}
    (paired : List.Forall₂ (renumbering increasing).Sites moves others) :
    others = moves.map (MoveSite.renumber rename) := by
  induction paired with
  | nil => rfl
  | @cons site other _ _ first _ ih =>
      have same : other = site.renumber rename := by
        obtain ⟨block, index, dest, src⟩ := other
        obtain ⟨rfl, rfl, destTwins, srcTwins⟩ := first
        rw [MoveSite.renumber, ← eq_renumber increasing destTwins, ← eq_renumber increasing srcTwins]
      rw [List.map_cons, ← same, ih]

theorem funcs_renumber : (renumbering increasing).Funcs f (f.renumber rename) where
  name := rfl
  blocks := List.forall₂_map_right_iff.mpr (List.forall₂_same.mpr fun block isBlock =>
    .of_mapRegs fun reg member => by
      have mentioned : reg ∈ f.regSet := Func.mem_regSet.mpr ⟨block, isBlock, member⟩
      cases reg with
      | virtual number => exact .virtual ⟨mentioned, rfl⟩
      | physical reg => exact .physical reg
      | spilled slot => exact .spilled slot)
  slots := rfl

theorem renumbered_liveness {n n' : Nat} (size : n = n') {liveness : Liveness n}
    {other : Liveness n'} (livenesses : (renumbering increasing).Livenesses liveness other) :
    liveness.Renumbered rename other where
  size := size
  liveIn block block' same := eq_map_renumber increasing (livenesses.liveIn block block' same).toList
  liveOut block block' same :=
    eq_map_renumber increasing (livenesses.liveOut block block' same).toList
  moves := eq_map_renumber_sites increasing livenesses.moves

theorem renumbered_graph {graph other : InterferenceGraph}
    (graphs : (renumbering increasing).Graphs graph other) :
    InterferenceGraph.Renumbered rename graph other where
  nodes := eq_map_renumber increasing graphs.nodes
  neighbors reg node := by
    obtain ⟨reg', twins⟩ := graphs.left reg node
    rw [← eq_renumber increasing twins]
    exact eq_map_renumber increasing (graphs.neighbors twins)

end Renumbering

end Pairing

/-- Only the order of the virtual registers of a function matters.  Renumbered in the same order, it has
the renumbered live sets, copies and interference graph, or none of them for the same reason.  It is
allocated to the same code with the same report, or allocation stops for the same reason; unless the
one of the two that has some higher number runs out of numbers.  A shift is such a renumbering. -/
theorem Allocator.allocate_renumbered (allocator : Allocator) (f : Func) (rename : Nat → Nat)
    (increasing : ∀ a b, Reg.virtual a ∈ f.regSet → Reg.virtual b ∈ f.regSet → a < b →
      rename a < rename b) :
    ((∃ liveness other, f.liveness = .ok liveness ∧ (f.renumber rename).liveness = .ok other ∧
        liveness.Renumbered rename other ∧
        InterferenceGraph.Renumbered rename (f.interference liveness)
          ((f.renumber rename).interference other)) ∨
      ∃ fault, f.liveness = .error fault ∧ (f.renumber rename).liveness = .error fault) ∧
    (SameOutcome (allocator.allocate f).result (allocator.allocate (f.renumber rename)).result ∨
      ((∃ number, Reg.virtual number ∈ f.regSet ∧ number < rename number) ∧
        (allocator.allocate (f.renumber rename)).result = .error .addOverflow) ∨
      (∃ number, Reg.virtual number ∈ f.regSet ∧ rename number < number) ∧
        (allocator.allocate f).result = .error .addOverflow) ∧
    ∀ distance shifted, f.shiftVirtuals distance = .ok shifted →
      shifted = f.renumber (· + distance) := by
  have funcs := Pairing.funcs_renumber increasing
  refine ⟨?_, ?_, fun _ _ => Func.shiftVirtuals_eq_ok⟩
  · refine funcs.liveness_cases.imp (fun ⟨found, otherFound⟩ => ?_) id
    exact ⟨_, _, found, otherFound,
      Pairing.renumbered_liveness increasing funcs.length_eq funcs.livenesses,
      Pairing.renumbered_graph increasing (funcs.interference funcs.livenesses)⟩
  · have alike := funcs.allocate rfl allocator
    generalize (allocator.allocate f).result = outcome at alike
    generalize (allocator.allocate (f.renumber rename)).result = other at alike
    cases alike with
    | @ok done otherDone both =>
        obtain ⟨allocated, report⟩ := done
        obtain ⟨otherAllocated, otherReport⟩ := otherDone
        obtain ⟨same, rfl⟩ := both
        exact .inl (.ok same)
    | error fault => exact .inl (.error fault)
    | left other lowered =>
        obtain ⟨number, _, ⟨mentioned, rfl⟩, less⟩ := lowered
        exact .inr (.inr ⟨⟨number, mentioned, less⟩, rfl⟩)
    | right first raised =>
        obtain ⟨number, _, ⟨mentioned, rfl⟩, more⟩ := raised
        exact .inr (.inl ⟨⟨number, mentioned, more⟩, rfl⟩)

/-- Has three numbers live at once, and stores one of them at the sum of the others. -/
def Func.scattered : Func :=
  { name := "scattered"
    blocks := [⟨"entry",
      [.li (.virtual 1) 1, .li (.virtual 4) 20, .li (.virtual 6) 300,
        .alu .add (.virtual 4) (.virtual 4) (.virtual 6),
        .store (.virtual 1) (.based (.virtual 4) 0)], .ret⟩]
    slots := 0
    nextVirtual := 7 }

theorem Allocator.allocate_renumbered_scattered :
    Func.scattered.regSet.toList.filterMap Reg.virtual? = [1, 4, 6] ∧
      (Func.scattered.renumber (· / 2)).regSet.toList.filterMap Reg.virtual? = [0, 2, 3] ∧
      (Allocator.allocate ⟨[.temp 0, .temp 1], true, 2⟩ Func.scattered).result.map Prod.snd =
        .ok ⟨2, 1, 0, 0⟩ ∧
      SameOutcome (Allocator.allocate ⟨[.temp 0, .temp 1], true, 2⟩ Func.scattered).result
        (Allocator.allocate ⟨[.temp 0, .temp 1], true, 2⟩
          (Func.scattered.renumber (· / 2))).result := by
  have numbers : Func.scattered.regSet.toList.filterMap Reg.virtual? = [1, 4, 6] := by decide
  have evaluated : (Allocator.allocate ⟨[.temp 0, .temp 1], true, 2⟩ Func.scattered).result.map
      Prod.snd = .ok ⟨2, 1, 0, 0⟩ := by cbv
  refine ⟨numbers, by decide, evaluated, ?_⟩
  have known {number : Nat} (mentioned : Reg.virtual number ∈ Func.scattered.regSet) :
      number = 1 ∨ number = 4 ∨ number = 6 := by
    have member : number ∈ Func.scattered.regSet.toList.filterMap Reg.virtual? :=
      List.mem_filterMap.mpr ⟨_, RegSet.mem_toList.mpr mentioned, rfl⟩
    simpa [numbers] using member
  have same := (Allocator.allocate_renumbered ⟨[.temp 0, .temp 1], true, 2⟩ Func.scattered (· / 2)
    fun a b first second less => by
      have := known first
      have := known second
      omega).2.1
  rcases same with same | ⟨⟨number, _, higher⟩, _⟩ | ⟨_, stopped⟩
  · exact same
  · omega
  · rw [stopped] at evaluated
    cases evaluated

end Machine

end Lowering
