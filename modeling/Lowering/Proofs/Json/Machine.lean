import Lowering.Json.Machine
import Lowering.Proofs.Json.Members

/-!
# Machine functions restored from JSON

A machine function whose numbers have their widths is restored from its written form, and nothing else
is ever read.
-/

namespace Lowering

open Json

namespace PhysReg

theorem ofName?_name (reg : PhysReg) : ofName? reg.name = some reg := by
  cases reg with
  | zero => decide
  | ra => decide
  | sp => decide
  | arg i => revert i; decide
  | saved i => revert i; decide
  | temp i => revert i; decide

theorem restores (reg : PhysReg) : Restores toJson ofJson? reg := by
  intro json same
  cases reorders_str.mp same
  exact reg.ofName?_name

end PhysReg

namespace Reg

/-- The numbers of virtual registers have 32 bits, those of slots 64. -/
def InRange : Reg → Prop
  | virtual number => number < Width.w32.bound
  | physical _ => True
  | spilled slot => slot < Width.w64.bound

theorem restores {reg : Reg} (inRange : reg.InRange) : Restores toJson ofJson? reg := by
  intro json same
  cases reg with
  | virtual number =>
      obtain ⟨data, rfl, written⟩ := exists_of_reorders_tagged same
      exact congrArg (Option.map virtual) (restores_nat inRange data written)
  | physical reg =>
      obtain ⟨data, rfl, written⟩ := exists_of_reorders_tagged same
      exact congrArg (Option.map physical) (reg.restores data written)
  | spilled slot =>
      obtain ⟨data, rfl, written⟩ := exists_of_reorders_tagged same
      exact congrArg (Option.map spilled) (restores_nat inRange data written)

theorem yields : Yields ofJson? InRange := by
  intro json reg found
  unfold ofJson? at found
  obtain ⟨_, _, found⟩ := Option.bind_eq_some_iff.mp found
  split at found
  · split at found
    · obtain ⟨number, isNumber, rfl⟩ := Option.map_eq_some_iff.mp found
      exact yields_natBelow _ _ _ isNumber
    · obtain ⟨reg, _, rfl⟩ := Option.map_eq_some_iff.mp found
      trivial
    · obtain ⟨slot, isSlot, rfl⟩ := Option.map_eq_some_iff.mp found
      exact yields_natBelow _ _ _ isSlot
    · cases found
  · cases found

end Reg

namespace Machine

/-- Immediates and offsets have 32 bits. -/
def Immediate (n : Int) : Prop := -2147483648 ≤ n ∧ n ≤ 2147483647

theorem restores_i32 {n : Int} (inRange : Immediate n) : Restores int i32? n := restores_int inRange

theorem yields_i32 : Yields i32? Immediate := yields_intWithin _ _

namespace Address

def InRange : Address → Prop
  | based base offset => base.InRange ∧ Immediate offset
  | slot s => s < Width.w64.bound

theorem restores {address : Address} (inRange : address.InRange) :
    Restores toJson ofJson? address := by
  intro json same
  cases address with
  | based base offset =>
      obtain ⟨data, _, rfl, members, _ | ⟨writtenBase, _ | ⟨writtenOffset, ⟨⟩⟩⟩⟩ :=
        exists_of_reorders_case ["base", "offset"] [base.toJson, int offset] same rfl (by decide)
      simp [ofJson?, tagged, case?, members, required?, Reg.restores inRange.1 _ writtenBase,
        restores_i32 inRange.2 _ writtenOffset]
  | slot s =>
      obtain ⟨data, rfl, written⟩ := exists_of_reorders_tagged same
      exact congrArg (Option.map slot) (restores_nat inRange data written)

theorem yields : Yields ofJson? InRange := by
  intro json address found
  unfold ofJson? at found
  obtain ⟨_, _, found⟩ := Option.bind_eq_some_iff.mp found
  split at found
  · split at found
    · obtain ⟨_, _, found⟩ := Option.bind_eq_some_iff.mp found
      split at found
      · simp only [Option.bind_eq_bind, Option.bind_eq_some_iff, Option.some.injEq] at found
        obtain ⟨base, isBase, offset, isOffset, rfl⟩ := found
        exact ⟨Reg.yields.required isBase, yields_i32.required isOffset⟩
      · cases found
    · obtain ⟨slot, isSlot, rfl⟩ := Option.map_eq_some_iff.mp found
      exact yields_natBelow _ _ _ isSlot
    · cases found
  · cases found

end Address

/-- A case without data is restored if it is the first one with its name. -/
theorem restores_oneOf {α : Type} {cases : List α} {caseName : α → String} {op : α}
    (first : cases.find? (fun other => caseName other == caseName op) = some op) :
    Restores (fun op => str (caseName op)) (oneOf? cases caseName) op := by
  intro json same
  cases reorders_str.mp same
  simp [oneOf?, case?, first, bare?]

theorem AluOp.restores (op : AluOp) : Restores (fun op => str op.caseName) ofJson? op :=
  restores_oneOf (by cases op <;> rfl)

theorem ImmOp.restores (op : ImmOp) : Restores (fun op => str op.caseName) ofJson? op :=
  restores_oneOf (by cases op <;> rfl)

theorem ZeroCmp.restores (op : ZeroCmp) : Restores (fun op => str op.caseName) ofJson? op :=
  restores_oneOf (by cases op <;> rfl)

theorem BranchOp.restores (op : BranchOp) : Restores (fun op => str op.caseName) ofJson? op :=
  restores_oneOf (by cases op <;> rfl)

namespace Instr

def InRange : Instr → Prop
  | li dest imm => dest.InRange ∧ Immediate imm
  | la dest _ => dest.InRange
  | load dest addr => dest.InRange ∧ addr.InRange
  | store src addr => src.InRange ∧ addr.InRange
  | move dest src => dest.InRange ∧ src.InRange
  | alu _ dest lhs rhs => dest.InRange ∧ lhs.InRange ∧ rhs.InRange
  | aluImm _ dest lhs imm => dest.InRange ∧ lhs.InRange ∧ Immediate imm
  | cmpZero _ dest src => dest.InRange ∧ src.InRange
  | call _ argc => argc < 256
  | spGrow | spRecover => True

theorem restores {instr : Instr} (inRange : instr.InRange) : Restores toJson ofJson? instr := by
  intro json same
  cases instr with
  | li dest imm =>
      obtain ⟨data, _, rfl, members, _ | ⟨writtenDest, _ | ⟨writtenImm, ⟨⟩⟩⟩⟩ :=
        exists_of_reorders_case ["dest", "imm"] [dest.toJson, int imm] same rfl (by decide)
      show ofData? "Li" data = _
      simp [ofData?, members, required?, Reg.restores inRange.1 _ writtenDest,
        restores_i32 inRange.2 _ writtenImm]
  | la dest symbol =>
      obtain ⟨data, _, rfl, members, _ | ⟨writtenDest, _ | ⟨writtenSymbol, ⟨⟩⟩⟩⟩ :=
        exists_of_reorders_case ["dest", "symbol"] [dest.toJson, str symbol] same rfl (by decide)
      show ofData? "La" data = _
      simp [ofData?, members, required?, Reg.restores inRange _ writtenDest,
        restores_str symbol _ writtenSymbol]
  | load dest addr =>
      obtain ⟨data, _, rfl, members, _ | ⟨writtenDest, _ | ⟨writtenAddr, ⟨⟩⟩⟩⟩ :=
        exists_of_reorders_case ["dest", "addr"] [dest.toJson, addr.toJson] same rfl (by decide)
      show ofData? "Load" data = _
      simp [ofData?, members, required?, Reg.restores inRange.1 _ writtenDest,
        Address.restores inRange.2 _ writtenAddr]
  | store src addr =>
      obtain ⟨data, _, rfl, members, _ | ⟨writtenSrc, _ | ⟨writtenAddr, ⟨⟩⟩⟩⟩ :=
        exists_of_reorders_case ["src", "addr"] [src.toJson, addr.toJson] same rfl (by decide)
      show ofData? "Store" data = _
      simp [ofData?, members, required?, Reg.restores inRange.1 _ writtenSrc,
        Address.restores inRange.2 _ writtenAddr]
  | move dest src =>
      obtain ⟨data, _, rfl, members, _ | ⟨writtenDest, _ | ⟨writtenSrc, ⟨⟩⟩⟩⟩ :=
        exists_of_reorders_case ["dest", "src"] [dest.toJson, src.toJson] same rfl (by decide)
      show ofData? "Move" data = _
      simp [ofData?, members, required?, Reg.restores inRange.1 _ writtenDest,
        Reg.restores inRange.2 _ writtenSrc]
  | alu op dest lhs rhs =>
      obtain ⟨data, _, rfl, members, _ | ⟨writtenOp, _ | ⟨writtenDest,
          _ | ⟨writtenLhs, _ | ⟨writtenRhs, ⟨⟩⟩⟩⟩⟩⟩ :=
        exists_of_reorders_case ["op", "dest", "lhs", "rhs"]
          [str op.caseName, dest.toJson, lhs.toJson, rhs.toJson] same rfl (by decide)
      show ofData? "Calc" data = _
      simp [ofData?, members, required?, op.restores _ writtenOp,
        Reg.restores inRange.1 _ writtenDest, Reg.restores inRange.2.1 _ writtenLhs,
        Reg.restores inRange.2.2 _ writtenRhs]
  | aluImm op dest lhs imm =>
      obtain ⟨data, _, rfl, members, _ | ⟨writtenOp, _ | ⟨writtenDest,
          _ | ⟨writtenLhs, _ | ⟨writtenImm, ⟨⟩⟩⟩⟩⟩⟩ :=
        exists_of_reorders_case ["op", "dest", "lhs", "imm"]
          [str op.caseName, dest.toJson, lhs.toJson, int imm] same rfl (by decide)
      show ofData? "CalcI" data = _
      simp [ofData?, members, required?, op.restores _ writtenOp,
        Reg.restores inRange.1 _ writtenDest, Reg.restores inRange.2.1 _ writtenLhs,
        restores_i32 inRange.2.2 _ writtenImm]
  | cmpZero op dest src =>
      obtain ⟨data, _, rfl, members, _ | ⟨writtenOp, _ | ⟨writtenDest, _ | ⟨writtenSrc, ⟨⟩⟩⟩⟩⟩ :=
        exists_of_reorders_case ["op", "dest", "src"] [str op.caseName, dest.toJson, src.toJson] same
          rfl (by decide)
      show ofData? "CmpZ" data = _
      simp [ofData?, members, required?, op.restores _ writtenOp,
        Reg.restores inRange.1 _ writtenDest, Reg.restores inRange.2 _ writtenSrc]
  | call callee argc =>
      obtain ⟨data, _, rfl, members, _ | ⟨writtenCallee, _ | ⟨writtenArgc, ⟨⟩⟩⟩⟩ :=
        exists_of_reorders_case ["callee", "argc"] [str callee, nat argc] same rfl (by decide)
      have count : u8? _ = some argc := restores_nat inRange _ writtenArgc
      show ofData? "Call" data = _
      simp [ofData?, members, required?, restores_str callee _ writtenCallee,
        count]
  | spGrow =>
      cases reorders_str.mp same
      rfl
  | spRecover =>
      cases reorders_str.mp same
      rfl

theorem ofData?_inRange {name : String} {data : Json} {instr : Instr}
    (found : ofData? name data = some instr) : instr.InRange := by
  unfold ofData? at found
  split at found
  case h_10 => cases found
  -- every other case reads the members of a record
  all_goals
    obtain ⟨_, _, found⟩ := Option.bind_eq_some_iff.mp found
    split at found
    case h_2 => cases found
    simp only [Option.bind_eq_bind, Option.bind_eq_some_iff, Option.some.injEq] at found
  · obtain ⟨dest, isDest, imm, isImm, rfl⟩ := found
    exact ⟨Reg.yields.required isDest, yields_i32.required isImm⟩
  · obtain ⟨dest, isDest, symbol, _, rfl⟩ := found
    exact Reg.yields.required isDest
  · obtain ⟨dest, isDest, addr, isAddr, rfl⟩ := found
    exact ⟨Reg.yields.required isDest, Address.yields.required isAddr⟩
  · obtain ⟨src, isSrc, addr, isAddr, rfl⟩ := found
    exact ⟨Reg.yields.required isSrc, Address.yields.required isAddr⟩
  · obtain ⟨dest, isDest, src, isSrc, rfl⟩ := found
    exact ⟨Reg.yields.required isDest, Reg.yields.required isSrc⟩
  · obtain ⟨op, _, dest, isDest, lhs, isLhs, rhs, isRhs, rfl⟩ := found
    exact ⟨Reg.yields.required isDest, Reg.yields.required isLhs, Reg.yields.required isRhs⟩
  · obtain ⟨op, _, dest, isDest, lhs, isLhs, imm, isImm, rfl⟩ := found
    exact ⟨Reg.yields.required isDest, Reg.yields.required isLhs, yields_i32.required isImm⟩
  · obtain ⟨op, _, dest, isDest, src, isSrc, rfl⟩ := found
    exact ⟨Reg.yields.required isDest, Reg.yields.required isSrc⟩
  · obtain ⟨callee, _, argc, isArgc, rfl⟩ := found
    exact (yields_natBelow 256).required isArgc

theorem yields : Yields ofJson? InRange := by
  intro json instr found
  unfold ofJson? at found
  obtain ⟨⟨name, data⟩, _, found⟩ := Option.bind_eq_some_iff.mp found
  dsimp only at found
  split at found
  · exact yields_bare found trivial
  · exact yields_bare found trivial
  · obtain ⟨record, _, found⟩ := Option.bind_eq_some_iff.mp found
    exact ofData?_inRange found

end Instr

namespace Terminator

def InRange : Terminator → Prop
  | ret => True
  | branch _ lhs rhs thenBlock elseBlock => lhs.InRange ∧ rhs.InRange ∧
      thenBlock < Width.w64.bound ∧ elseBlock < Width.w64.bound
  | jump target => target < Width.w64.bound

theorem restores {term : Terminator} (inRange : term.InRange) : Restores toJson ofJson? term := by
  intro json same
  cases term with
  | ret =>
      cases reorders_str.mp same
      rfl
  | branch op lhs rhs thenBlock elseBlock =>
      obtain ⟨data, _, rfl, members, _ | ⟨writtenOp, _ | ⟨writtenLhs, _ | ⟨writtenRhs, _ |
          ⟨writtenThen, _ | ⟨writtenElse, ⟨⟩⟩⟩⟩⟩⟩⟩ :=
        exists_of_reorders_case ["op", "lhs", "rhs", "then", "els"]
          [str op.caseName, lhs.toJson, rhs.toJson, nat thenBlock, nat elseBlock] same rfl (by decide)
      simp [ofJson?, tagged, case?, members, required?, op.restores _ writtenOp,
        Reg.restores inRange.1 _ writtenLhs, Reg.restores inRange.2.1 _ writtenRhs,
        restores_u64 inRange.2.2.1 _ writtenThen, restores_u64 inRange.2.2.2 _ writtenElse]
  | jump target =>
      obtain ⟨data, rfl, written⟩ := exists_of_reorders_tagged same
      exact congrArg (Option.map jump) (restores_u64 inRange data written)

theorem yields : Yields ofJson? InRange := by
  intro json term found
  unfold ofJson? at found
  obtain ⟨⟨name, data⟩, _, found⟩ := Option.bind_eq_some_iff.mp found
  dsimp only at found
  split at found
  · exact yields_bare found trivial
  · obtain ⟨record, _, found⟩ := Option.bind_eq_some_iff.mp found
    obtain ⟨_, _, found⟩ := Option.bind_eq_some_iff.mp found
    split at found
    · simp only [Option.bind_eq_bind, Option.bind_eq_some_iff, Option.some.injEq] at found
      obtain ⟨op, _, lhs, isLhs, rhs, isRhs, thenBlock, isThen, elseBlock, isElse, rfl⟩ := found
      exact ⟨Reg.yields.required isLhs, Reg.yields.required isRhs, yields_u64.required isThen,
        yields_u64.required isElse⟩
    · cases found
  · obtain ⟨target, isTarget, rfl⟩ := Option.map_eq_some_iff.mp found
    exact yields_u64.required isTarget
  · cases found

end Terminator

namespace Block

structure InRange (block : Block) : Prop where
  instrs : ∀ instr ∈ block.instrs, instr.InRange
  term : block.term.InRange

theorem restores {block : Block} (inRange : block.InRange) : Restores toJson ofJson? block := by
  intro json same
  obtain ⟨_, members, _ | ⟨writtenLabel, _ | ⟨writtenInstrs, _ | ⟨writtenTerm, ⟨⟩⟩⟩⟩⟩ :=
    exists_of_reorders_record ["label", "instrs", "term"]
      [str block.label, arr (block.instrs.map Instr.toJson), block.term.toJson] same rfl (by decide)
  have instrs := Restores.list (fun instr isInstr => Instr.restores (inRange.instrs instr isInstr)) _
    writtenInstrs
  simp [ofJson?, members, required?, default?, restores_str _ _ writtenLabel, instrs,
    Terminator.restores inRange.term _ writtenTerm]

theorem yields : Yields ofJson? InRange := by
  intro json block found
  unfold ofJson? at found
  obtain ⟨_, _, found⟩ := Option.bind_eq_some_iff.mp found
  split at found
  · simp only [Option.bind_eq_bind, Option.bind_eq_some_iff, Option.some.injEq] at found
    obtain ⟨label, _, instrs, areInstrs, term, isTerm, rfl⟩ := found
    exact ⟨Instr.yields.list.default (List.forall_mem_nil _) areInstrs,
      Terminator.yields.required isTerm⟩
  · cases found

end Block

namespace Func

/-- The numbers of the function have their widths: registers and arguments, immediates, targets and
slots. -/
structure InRange (f : Func) : Prop where
  blocks : ∀ block ∈ f.blocks, block.InRange
  slots : f.slots < Width.w64.bound
  nextVirtual : f.nextVirtual < Width.w32.bound

theorem restores {f : Func} (inRange : f.InRange) : Restores toJson ofJson? f := by
  intro json same
  obtain ⟨_, members, _ | ⟨writtenName, _ | ⟨writtenBlocks,
      _ | ⟨writtenSlots, _ | ⟨writtenNext, ⟨⟩⟩⟩⟩⟩⟩ :=
    exists_of_reorders_record ["name", "blocks", "slots", "next_virtual"]
      [str f.name, arr (f.blocks.map Block.toJson), nat f.slots, nat f.nextVirtual] same rfl (by decide)
  have blocks := Restores.list (fun block isBlock => Block.restores (inRange.blocks block isBlock)) _
    writtenBlocks
  simp [ofJson?, members, required?, default?, restores_str _ _ writtenName, blocks,
    restores_u64 inRange.slots _ writtenSlots, restores_u32 inRange.nextVirtual _ writtenNext]

theorem yields : Yields ofJson? InRange := by
  intro json f found
  unfold ofJson? at found
  obtain ⟨_, _, found⟩ := Option.bind_eq_some_iff.mp found
  split at found
  · simp only [Option.bind_eq_bind, Option.bind_eq_some_iff, Option.some.injEq] at found
    obtain ⟨name, _, blocks, areBlocks, slots, isSlots, next, isNext, rfl⟩ := found
    exact ⟨Block.yields.list.required areBlocks, yields_u64.default (by decide) isSlots,
      yields_u32.default (by decide) isNext⟩
  · cases found

end Func

end Machine

end Lowering
