import Lowering.Allocation.Allocator
import Lowering.Proofs.Allocation.Coloring
import Lowering.Proofs.Machine.Execution

/-!
# Painted code runs like the code it was painted from

The painted code mirrors the code: the color of a live register holds the word of the register.
A register that is written takes its color from no other live register, except that the source of
a copy holds the same word.
-/

namespace Lowering.Machine

variable {coloring : Coloring} {env : Environment} {s t : State} {reg : Reg}

/-- The state `t` holds the words of live registers of `s` in their colors. -/
structure Mirrors (coloring : Coloring) (live : RegSet) (s t : State) : Prop where
  held : ∀ reg ∈ live, ∀ color, coloring.color? reg = some color →
    ∀ word, s.read reg = some word → t.read (.physical color) = some word
  sp : t.read .sp = s.read .sp
  memory : t.memory = s.memory
  slots : t.slots = s.slots
  trace : t.trace = s.trace

/-- Colors of tracked registers are tracked, and interfering registers differ in color. -/
structure Coloring.Sound (coloring : Coloring) (graph : InterferenceGraph) : Prop where
  tracked : ∀ reg color, reg.isTracked = true → coloring.color? reg = some color →
    color.isUntracked = false
  proper : ∀ a b, graph.hasEdge a b = true → ∀ color, coloring.color? a = some color →
    coloring.color? b ≠ some color

theorem Coloring.Sound.ne_zero {graph : InterferenceGraph} (sound : coloring.Sound graph)
    {color : PhysReg} (tracked : reg.isTracked = true)
    (isColor : coloring.color? reg = some color) : Reg.physical color ≠ .physical .zero := by
  intro isZero
  cases isZero
  cases sound.tracked reg _ tracked isColor

theorem Coloring.Sound.ne_sp {graph : InterferenceGraph} (sound : coloring.Sound graph)
    {color : PhysReg} (tracked : reg.isTracked = true)
    (isColor : coloring.color? reg = some color) : Reg.physical color ≠ .sp := by
  intro isSp
  cases isSp
  cases sound.tracked reg _ tracked isColor

/-- An untracked register is zero or the stack pointer, and its own color. -/
theorem Coloring.color?_of_untracked (untracked : reg.isTracked = false) :
    (reg = .physical .zero ∧ coloring.color? reg = some .zero) ∨
      (reg = .sp ∧ coloring.color? reg = some .sp) := by
  cases reg with
  | physical phys => cases phys <;> simp_all [Reg.isTracked, PhysReg.isUntracked, Reg.sp, color?]
  | virtual number => cases untracked
  | spilled slot => cases untracked

/-- A register that can be painted has a color, and is painted with it. -/
theorem painted_of_paint {name : String} {other : Reg}
    (ok : paint name coloring.colors reg = .ok other) :
    ∃ color, coloring.color? reg = some color ∧
      painted coloring.colors reg = .physical color := by
  cases reg with
  | physical phys => exact ⟨phys, rfl, rfl⟩
  | spilled slot => cases ok
  | virtual number =>
      simp only [paint] at ok
      cases found : coloring.colors.get? (.virtual number) with
      | none =>
          rw [found] at ok
          cases ok
      | some color =>
          refine ⟨color, found, ?_⟩
          simp only [painted, found, Option.map_some, Option.getD_some]

namespace Instr

variable {instr : Instr} {reg dest : Reg}

theorem defs_of_operandDef (defines : instr.operandDef? = some dest) : instr.defs = [dest] := by
  cases instr <;> cases defines <;> rfl

theorem mem_regs_of_operand (operand : reg ∈ instr.operandUses ++ instr.operandDef?.toList) :
    reg ∈ instr.uses ++ instr.defs := by
  rw [List.mem_append] at operand ⊢
  rcases operand with used | defined
  · exact .inl (mem_uses_of_mem_operandUses used)
  · have isDef : instr.operandDef? = some reg := by simpa using defined
    exact .inr (by simp [defs_of_operandDef isDef])

theorem eq_move_of_isMove (defines : instr.operandDef? = some dest)
    (isMove : instr.isMove = true) : ∃ src, instr = .move dest src := by
  cases instr <;> cases isMove
  cases defines
  exact ⟨_, rfl⟩

end Instr

theorem Terminator.mem_uses_of_mem_operandUses {term : Terminator}
    (used : reg ∈ term.operandUses) : reg ∈ term.uses := by
  cases term with
  | ret => cases used
  | jump target => cases used
  | branch op lhs rhs thenBlock elseBlock => exact used

namespace Mirrors

variable {graph : InterferenceGraph} {before after live : RegSet} {color : PhysReg} {word : Word}
  {instr : Instr} {next : State}

theorem mono (mirrors : Mirrors coloring before s t) (fewer : ∀ reg ∈ after, reg ∈ before) :
    Mirrors coloring after s t where
  held reg live := mirrors.held reg (fewer reg live)
  sp := mirrors.sp
  memory := mirrors.memory
  slots := mirrors.slots
  trace := mirrors.trace

/-- The color of a register that is live or not tracked holds its word. -/
theorem read (mirrors : Mirrors coloring before s t) {reg : Reg}
    (live : reg.isTracked = true → reg ∈ before) (isColor : coloring.color? reg = some color)
    (holds : s.read reg = some word) : t.read (.physical color) = some word := by
  cases tracked : reg.isTracked with
  | true => exact mirrors.held reg (live tracked) color isColor word holds
  | false =>
      rcases @Coloring.color?_of_untracked coloring _ tracked with
        ⟨rfl, own⟩ | ⟨rfl, own⟩
      · rw [own] at isColor
        cases isColor
        simpa using holds
      · rw [own] at isColor
        cases isColor
        exact mirrors.sp.trans holds

/-- Writing a register and its color.  What else is live keeps its word: a live register of the same
color holds the word that is written. -/
theorem write (mirrors : Mirrors coloring before s t) (sound : coloring.Sound graph)
    {dest : Reg} (isColor : coloring.color? dest = some color)
    (kept : ∀ reg ∈ after, reg ≠ dest → reg ∈ before)
    (tracked : ∀ reg ∈ after, reg.isTracked = true)
    (shared : ∀ reg ∈ after, reg ≠ dest → dest.isTracked = true →
      coloring.color? reg = some color → s.read reg = some word) :
    Mirrors coloring after (s.write dest word) (t.write (.physical color) word) where
  held reg live other isOther value holds := by
    by_cases same : reg = dest
    · subst same
      have trackedReg := tracked reg live
      rw [isColor] at isOther
      cases isOther
      have notZero : reg ≠ .physical .zero := by
        rintro rfl
        cases trackedReg
      rw [State.read_write_self _ _ notZero] at holds
      rw [State.read_write_self _ _ (sound.ne_zero trackedReg isColor)]
      exact holds
    · rw [State.read_write_ne _ _ same] at holds
      have before := mirrors.held reg (kept reg live same) other isOther value holds
      by_cases clash : other = color
      · subst clash
        cases trackedDest : dest.isTracked with
        | true =>
            have equal := shared reg live same trackedDest isOther
            rw [State.read_write_self _ _ (sound.ne_zero trackedDest isColor), ← equal, holds]
        | false =>
            -- the color of a tracked register is tracked
            rcases @Coloring.color?_of_untracked coloring _ trackedDest with
              ⟨rfl, own⟩ | ⟨rfl, own⟩
            · cases isColor.symm.trans own
              exact absurd rfl (sound.ne_zero (tracked reg live) isOther)
            · cases isColor.symm.trans own
              exact absurd rfl (sound.ne_sp (tracked reg live) isOther)
      · rw [State.read_write_ne _ _ (by simpa using clash)]
        exact before
  sp := by
    cases trackedDest : dest.isTracked with
    | true =>
        have notSp : Reg.sp ≠ dest := by
          rintro rfl
          cases trackedDest
        rw [State.read_write_ne _ _ notSp,
          State.read_write_ne _ _ (sound.ne_sp trackedDest isColor).symm]
        exact mirrors.sp
    | false =>
        rcases @Coloring.color?_of_untracked coloring _ trackedDest with ⟨rfl, own⟩ | ⟨rfl, own⟩
        · cases isColor.symm.trans own
          rw [State.read_write_ne _ _ (by decide), State.read_write_ne _ _ (by decide)]
          exact mirrors.sp
        · cases isColor.symm.trans own
          have notZero : Reg.sp ≠ .physical .zero := by decide
          exact (State.read_write_self _ _ notZero).trans (State.read_write_self _ _ notZero).symm
  memory := by simpa using mirrors.memory
  slots := by simpa using mirrors.slots
  trace := by simpa using mirrors.trace

/-- A copy between registers of the same color can be left out. -/
theorem copy (mirrors : Mirrors coloring before s t) {dest src : Reg}
    (trackedDest : dest.isTracked = true) (live : src ∈ before)
    (isColor : coloring.color? dest = some color) (sameColor : coloring.color? src = some color)
    (holds : s.read src = some word) (kept : ∀ reg ∈ after, reg ≠ dest → reg ∈ before) :
    Mirrors coloring after (s.write dest word) t where
  held reg live other isOther value isValue := by
    by_cases same : reg = dest
    · subst same
      rw [isColor] at isOther
      cases isOther
      have notZero : reg ≠ .physical .zero := by
        rintro rfl
        cases trackedDest
      rw [State.read_write_self _ _ notZero] at isValue
      cases isValue
      exact mirrors.held src ‹_› color sameColor word holds
    · rw [State.read_write_ne _ _ same] at isValue
      exact mirrors.held reg (kept reg live same) other isOther value isValue
  sp := by
    have notSp : Reg.sp ≠ dest := by
      rintro rfl
      cases trackedDest
    rw [State.read_write_ne _ _ notSp]
    exact mirrors.sp
  memory := by simpa using mirrors.memory
  slots := by simpa using mirrors.slots
  trace := by simpa using mirrors.trace

/-- A call, whose results no other live register shares a color with. -/
theorem call (mirrors : Mirrors coloring before s t) (callee : String) (args : List Word)
    (kept : ∀ reg ∈ after, (∀ phys, phys.isCallerSaved = true → reg ≠ .physical phys) →
      reg ∈ before ∧ ∀ phys, phys.isCallerSaved = true → coloring.color? reg ≠ some phys) :
    Mirrors coloring after (s.call env callee args) (t.call env callee args) where
  held reg live color isColor word holds := by
    by_cases overwritten : ∃ phys, phys.isCallerSaved = true ∧ reg = .physical phys
    · obtain ⟨phys, isSaved, rfl⟩ := overwritten
      cases isColor
      rw [State.read_call] at holds ⊢
      simp only [isSaved, if_true, mirrors.memory] at holds ⊢
      exact holds
    · obtain ⟨wasLive, spared⟩ := kept reg live fun phys isSaved same =>
        overwritten ⟨phys, isSaved, same⟩
      have colorSpared : color.isCallerSaved = false := by
        by_contra isSaved
        exact spared color (by simpa using isSaved) isColor
      have before : s.read reg = some word := by
        rw [State.read_call] at holds
        cases reg with
        | physical phys =>
            cases isSaved : phys.isCallerSaved with
            | true => exact absurd ⟨phys, isSaved, rfl⟩ overwritten
            | false => simpa [isSaved] using holds
        | virtual number => exact holds
        | spilled slot => exact holds
      rw [State.read_call]
      simp only [colorSpared, Bool.false_eq_true, if_false]
      exact mirrors.held reg wasLive color isColor word before
  sp := by
    rw [State.read_call, State.read_call]
    exact mirrors.sp
  memory := by
    show (env.call callee args t.memory).memory = _
    rw [mirrors.memory]
    rfl
  slots := mirrors.slots
  trace := by
    show t.trace ++ _ = _
    rw [mirrors.trace]
    rfl

theorem setMemory (mirrors : Mirrors coloring before s t) (address value : Word) :
    Mirrors coloring before (s.setMemory address value) (t.setMemory address value) where
  held := mirrors.held
  sp := mirrors.sp
  memory := by
    simp only [State.setMemory, mirrors.memory]
  slots := mirrors.slots
  trace := by
    simp only [State.setMemory, mirrors.trace]

theorem setSlot (mirrors : Mirrors coloring before s t) (slot : Nat) (value : Word) :
    Mirrors coloring before (s.setSlot slot value) (t.setSlot slot value) where
  held := mirrors.held
  sp := mirrors.sp
  memory := mirrors.memory
  slots := by
    simp only [State.setSlot, mirrors.slots]
  trace := mirrors.trace

theorem read_operand (mirrors : Mirrors coloring (instr.liveBefore live) s t)
    (colored : ∀ reg ∈ instr.operandUses ++ instr.operandDef?.toList, ∃ color,
      coloring.color? reg = some color ∧ painted coloring.colors reg = .physical color)
    {reg : Reg} (used : reg ∈ instr.operandUses) (holds : s.read reg = some word) :
    t.read (painted coloring.colors reg) = some word := by
  obtain ⟨color, isColor, isPainted⟩ := colored reg (List.mem_append_left _ used)
  rw [isPainted]
  apply mirrors.read _ isColor holds
  intro tracked
  exact Instr.mem_liveBefore.mpr (.inl ⟨Instr.mem_uses_of_mem_operandUses used, tracked⟩)

theorem exec_store {src : Reg} {addr : Address}
    (mirrors : Mirrors coloring ((Instr.store src addr).liveBefore live) s t)
    (colored : ∀ reg ∈ (Instr.store src addr).operandUses ++
        (Instr.store src addr).operandDef?.toList,
      ∃ color, coloring.color? reg = some color ∧ painted coloring.colors reg = .physical color)
    (ran : (Instr.store src addr).exec env s = some next) :
    ∃ finish, ((Instr.store src addr).mapRegs (painted coloring.colors)).exec env t = some finish ∧
      Mirrors coloring live next finish := by
  have later : Mirrors coloring live s t := by
    apply mirrors.mono
    intro reg isLive
    exact Instr.mem_liveBefore.mpr (.inr ⟨isLive, List.not_mem_nil⟩)
  obtain ⟨value, isValue, stored⟩ := Instr.exec_store_cases ran
  have readSrc := mirrors.read_operand colored
    (by cases addr <;> simp [Instr.operandUses]) isValue
  rcases stored with ⟨slot, rfl, rfl⟩ | ⟨base, offset, address, rfl, isAddress, rfl⟩
  · exact ⟨_, Instr.exec_store_slot slot readSrc, later.setSlot slot value⟩
  · have readBase := mirrors.read_operand colored (by simp [Instr.operandUses]) isAddress
    exact ⟨_, Instr.exec_store_based offset readSrc readBase, later.setMemory _ value⟩

theorem exec_call {callee : String} {argc : Nat}
    (mirrors : Mirrors coloring ((Instr.call callee argc).liveBefore live) s t)
    (sound : coloring.Sound graph)
    (apart : ∀ d ∈ (Instr.call callee argc).defs, d.isTracked = true → ∀ l ∈ live, d ≠ l →
      ¬ ((Instr.call callee argc).isMove = true ∧ l ∈ (Instr.call callee argc).uses) →
      graph.hasEdge d l = true)
    (ran : (Instr.call callee argc).exec env s = some next) :
    ∃ finish, ((Instr.call callee argc).mapRegs (painted coloring.colors)).exec env t =
        some finish ∧ Mirrors coloring live next finish := by
  simp only [Instr.exec, Option.map_eq_some_iff] at ran
  obtain ⟨args, areArgs, rfl⟩ := ran
  refine ⟨t.call env callee args, ?_, ?_⟩
  · have sameArgs : (Instr.arguments argc).mapM t.read = some args := by
      apply mapM_of_forall areArgs
      intro reg used word holds
      obtain ⟨i, _, rfl⟩ := List.mem_map.mp used
      apply mirrors.read _ rfl holds
      intro tracked
      exact Instr.mem_liveBefore.mpr (.inl ⟨used, tracked⟩)
    simp [Instr.mapRegs, Instr.mapOperands, Instr.exec, sameArgs]
  · apply mirrors.call
    intro reg isLive spared
    have defined {phys : PhysReg} (isSaved : phys.isCallerSaved = true) :
        Reg.physical phys ∈ (Instr.call callee argc).defs :=
      List.mem_map.mpr ⟨phys, PhysReg.mem_callerSaved.mpr isSaved, rfl⟩
    constructor
    · refine Instr.mem_liveBefore.mpr (.inr ⟨isLive, fun member => ?_⟩)
      obtain ⟨phys, isSaved, rfl⟩ := List.mem_map.mp member
      exact spared phys (PhysReg.mem_callerSaved.mp isSaved) rfl
    · intro phys isSaved
      have tracked : (Reg.physical phys).isTracked = true := by
        cases phys <;> first | rfl | cases isSaved
      have edge := apart _ (defined isSaved) tracked reg isLive (spared phys isSaved).symm
        fun copied => by cases copied.1
      exact sound.proper _ reg edge phys rfl

/-- Adjusting the stack pointer defines no tracked register. -/
theorem of_sp_defined (mirrors : Mirrors coloring (instr.liveBefore live) s t)
    (defs : instr.defs = [.sp]) (tracked : ∀ reg ∈ live, reg.isTracked = true) :
    Mirrors coloring live s t := by
  apply mirrors.mono
  intro reg isLive
  refine Instr.mem_liveBefore.mpr (.inr ⟨isLive, ?_⟩)
  rw [defs, List.mem_singleton]
  rintro rfl
  cases tracked _ isLive

theorem exec (mirrors : Mirrors coloring (instr.liveBefore live) s t)
    (sound : coloring.Sound graph) (tracked : ∀ reg ∈ live, reg.isTracked = true)
    (colored : ∀ reg ∈ instr.operandUses ++ instr.operandDef?.toList, ∃ color,
      coloring.color? reg = some color ∧ painted coloring.colors reg = .physical color)
    (apart : ∀ d ∈ instr.defs, d.isTracked = true → ∀ l ∈ live, d ≠ l →
      ¬ (instr.isMove = true ∧ l ∈ instr.uses) → graph.hasEdge d l = true)
    (ran : instr.exec env s = some next) :
    ∃ finish, (instr.mapRegs (painted coloring.colors)).exec env t = some finish ∧
      Mirrors coloring live next finish := by
  cases defines : instr.operandDef? with
  | some dest =>
      obtain ⟨word, isWord, rfl⟩ := Instr.exec_eq_some_of_operandDef defines ran
      obtain ⟨color, isColor, isPainted⟩ := colored dest (by simp [defines])
      have defs := Instr.defs_of_operandDef defines
      refine ⟨t.write (.physical color) word, ?_, ?_⟩
      · have definesPainted : (instr.mapRegs (painted coloring.colors)).operandDef? =
            some (.physical color) := by
          rw [Instr.mapRegs, Instr.operandDef?_mapOperands, defines, Option.map_some, isPainted]
        rw [Instr.exec_of_operandDef definesPainted, Instr.mapRegs, Instr.value_mapOperands
          (fun reg used word => mirrors.read_operand colored used) mirrors.memory
          (fun slot _ => congrFun mirrors.slots slot) isWord, Option.map_some]
      · apply mirrors.write sound isColor _ tracked
        · intro reg isLive different trackedDest sameColor
          by_cases copied : instr.isMove = true ∧ reg ∈ instr.uses
          · obtain ⟨src, rfl⟩ := Instr.eq_move_of_isMove defines copied.1
            cases List.mem_singleton.mp copied.2
            exact isWord
          · have edge := apart dest (by simp [defs]) trackedDest reg isLive (Ne.symm different) copied
            exact absurd sameColor (sound.proper dest reg edge color isColor)
        · intro reg isLive different
          exact Instr.mem_liveBefore.mpr (.inr ⟨isLive, by simp [defs, different]⟩)
  | none =>
      cases instr with
      | li dest imm => cases defines
      | la dest symbol => cases defines
      | load dest addr => cases defines
      | move dest src => cases defines
      | alu op dest lhs rhs => cases defines
      | aluImm op dest lhs imm => cases defines
      | cmpZero op dest src => cases defines
      | store src addr => exact mirrors.exec_store colored ran
      | call callee argc => exact mirrors.exec_call sound apart ran
      | spGrow => exact ⟨t, rfl, Option.some.inj ran ▸ mirrors.of_sp_defined rfl tracked⟩
      | spRecover => exact ⟨t, rfl, Option.some.inj ran ▸ mirrors.of_sp_defined rfl tracked⟩

end Mirrors

/-- Dropping a copy of a register to itself, or an adjustment of an unused frame, changes nothing. -/
theorem exec_tidy {instr : Instr} {finish : State} (frameEmpty : Bool)
    (ran : instr.exec env t = some finish) :
    (tidy frameEmpty instr).1.foldlM (Instr.exec env) t = some finish := by
  have whole : [instr].foldlM (Instr.exec env) t = some finish := by
    simp [ran]
  unfold tidy
  split
  · next dest src =>
      split
      · next same =>
          subst same
          obtain ⟨word, isWord, rfl⟩ := Instr.exec_eq_some_of_operandDef rfl ran
          simpa using (State.write_read isWord).symm
      · exact whole
  · split
    · simpa [Instr.exec] using ran
    · exact whole
  · split
    · simpa [Instr.exec] using ran
    · exact whole
  · exact whole

theorem paint_ok_of_mapM {name : String} {regs others : List Reg}
    (ok : regs.mapM (paint name coloring.colors) = .ok others) :
    ∀ reg ∈ regs, ∃ color, coloring.color? reg = some color ∧
      painted coloring.colors reg = .physical color := by
  induction regs generalizing others with
  | nil =>
      intro reg member
      cases member
  | cons first rest ih =>
      rw [List.mapM_cons] at ok
      obtain ⟨other, isFirst, ok⟩ := bind_eq_ok.mp ok
      obtain ⟨others, areRest, _⟩ := bind_eq_ok.mp ok
      intro reg member
      rcases List.mem_cons.mp member with rfl | later
      · exact painted_of_paint isFirst
      · exact ih areRest reg later

namespace Func

variable {f : Func} {colors : RegMap PhysReg} {isMerged : Nat → Bool} {frameEmpty : Bool}
  {dropped : Nat}

theorem colorInstrs_cons {index : Nat} {instr : Instr} {rest code : List Instr}
    (ok : f.colorInstrs colors isMerged frameEmpty index (instr :: rest) = .ok (code, dropped)) :
    (isMerged index = true ∧
      f.colorInstrs colors isMerged frameEmpty (index + 1) rest = .ok (code, dropped)) ∨
    ∃ others later droppedLater,
      (instr.operandUses ++ instr.operandDef?.toList).mapM (paint f.name colors) = .ok others ∧
      f.colorInstrs colors isMerged frameEmpty (index + 1) rest = .ok (later, droppedLater) ∧
      code = (tidy frameEmpty (instr.mapRegs (painted colors))).1 ++ later := by
  rw [colorInstrs] at ok
  split at ok
  · next merged => exact .inl ⟨merged, ok⟩
  · right
    obtain ⟨others, areOthers, ok⟩ := bind_eq_ok.mp ok
    obtain ⟨⟨later, droppedLater⟩, isLater, ok⟩ := bind_eq_ok.mp ok
    cases ok
    exact ⟨others, later, droppedLater, areOthers, isLater, rfl⟩

variable {liveness : Liveness f.blocks.length} {block : Fin f.blocks.length}
  {merged : List (Nat × Nat)}

/-- The registers live at the end of a block. -/
def liveAtEnd (f : Func) (liveness : Liveness f.blocks.length) (block : Fin f.blocks.length) :
    RegSet :=
  RegSet.addTracked (liveness.liveOut.get block) (f.blocks.get block).term.uses

/-- The copies at some places of a block have operands of the same color. -/
def SameColors (coloring : Coloring) (block : Block) (isMerged : Nat → Bool) : Prop :=
  ∀ index, isMerged index = true → ∃ dest src color,
    block.instrs[index]? = some (.move dest src) ∧ dest.isTracked = true ∧ src.isTracked = true ∧
      coloring.color? dest = some color ∧ coloring.color? src = some color

theorem exec_colorInstrs (sound : coloring.Sound (f.interference liveness))
    (tracked : ∀ reg ∈ liveness.liveOut.get block, reg.isTracked = true)
    (same : SameColors coloring (f.blocks.get block) isMerged)
    {instrs before code : List Instr}
    (split : (f.blocks.get block).instrs = before ++ instrs)
    (ok : f.colorInstrs coloring.colors isMerged frameEmpty before.length instrs =
      .ok (code, dropped))
    (mirrors : Mirrors coloring (instrs.foldr Instr.liveBefore (f.liveAtEnd liveness block)) s t)
    {after : State} (ran : instrs.foldlM (Instr.exec env) s = some after) :
    ∃ finish, code.foldlM (Instr.exec env) t = some finish ∧
      Mirrors coloring (f.liveAtEnd liveness block) after finish := by
  have endTracked : ∀ reg ∈ f.liveAtEnd liveness block, reg.isTracked = true := by
    intro reg member
    exact (RegSet.mem_addTracked.mp member).elim And.right (tracked reg)
  induction instrs generalizing before code dropped s t with
  | nil =>
      cases ok
      cases ran
      exact ⟨t, rfl, mirrors⟩
  | cons instr rest ih =>
      rw [List.foldlM_cons] at ran
      obtain ⟨next, isNext, ran⟩ := Option.bind_eq_some_iff.mp ran
      have splitRest : (f.blocks.get block).instrs = (before ++ [instr]) ++ rest := by
        rw [split, List.append_assoc, List.singleton_append]
      have length : (before ++ [instr]).length = before.length + 1 := by simp
      rcases colorInstrs_cons ok with ⟨merged, okRest⟩ | ⟨others, later, droppedLater, painted,
        okRest, rfl⟩
      · obtain ⟨dest, src, color, isMove, trackedDest, trackedSrc, colorDest, colorSrc⟩ :=
          same before.length merged
        have isInstr : instr = .move dest src := by
          rw [split] at isMove
          simpa using isMove
        subst isInstr
        obtain ⟨word, isWord, rfl⟩ := Instr.exec_eq_some_of_operandDef rfl isNext
        have live : src ∈ (Instr.move dest src).liveBefore
            (rest.foldr Instr.liveBefore (f.liveAtEnd liveness block)) :=
          Instr.mem_liveBefore.mpr (.inl ⟨List.mem_cons_self, trackedSrc⟩)
        have mirrorsRest := mirrors.copy trackedDest live colorDest colorSrc isWord
          fun reg isLive different => Instr.mem_liveBefore.mpr
            (.inr ⟨isLive, fun member => different (List.mem_singleton.mp member)⟩)
        exact ih splitRest (length ▸ okRest) mirrorsRest ran
      · have restTracked : ∀ reg ∈ rest.foldr Instr.liveBefore (f.liveAtEnd liveness block),
            reg.isTracked = true := by
          intro reg member
          exact isTracked_of_mem_foldr endTracked member
        obtain ⟨middle, isMiddle, mirrorsRest⟩ := mirrors.exec sound restTracked
          (paint_ok_of_mapM painted)
          (fun d defined isTracked l isLive different notCopied =>
            f.hasEdge_interference split tracked defined isTracked different isLive notCopied)
          isNext
        obtain ⟨finish, isFinish, mirrorsEnd⟩ :=
          ih splitRest (length ▸ okRest) mirrorsRest ran
        refine ⟨finish, ?_, mirrorsEnd⟩
        rw [List.foldlM_append, exec_tidy frameEmpty isMiddle]
        exact isFinish

theorem colorBlocks_getElem? {blocks out : List Block} {index i : Nat} {block : Block}
    (ok : f.colorBlocks colors merged frameEmpty index blocks = .ok (out, dropped))
    (found : blocks[i]? = some block) :
    ∃ code droppedHere others,
      f.colorInstrs colors (fun k => merged.contains (index + i, k)) frameEmpty 0 block.instrs =
        .ok (code, droppedHere) ∧
      block.term.operandUses.mapM (paint f.name colors) = .ok others ∧
      out[i]? = some { block with instrs := code, term := block.term.mapRegs (painted colors) } := by
  induction blocks generalizing index out dropped i with
  | nil => cases found
  | cons first rest ih =>
      rw [colorBlocks] at ok
      obtain ⟨⟨code, droppedHere⟩, isCode, ok⟩ := bind_eq_ok.mp ok
      obtain ⟨others, areOthers, ok⟩ := bind_eq_ok.mp ok
      obtain ⟨⟨later, droppedLater⟩, isLater, ok⟩ := bind_eq_ok.mp ok
      cases ok
      cases i with
      | zero =>
          cases found
          exact ⟨code, droppedHere, others, isCode, areOthers, rfl⟩
      | succ i =>
          have shifted : index + (i + 1) = index + 1 + i := by omega
          rw [shifted]
          exact ih isLater found

theorem applyColors_getElem? {colored : Func} {selfMoves i : Nat} {block : Block}
    (ok : f.applyColors colors merged = .ok (colored, selfMoves))
    (found : f.blocks[i]? = some block) :
    ∃ frameEmpty code dropped others,
      f.colorInstrs colors (fun k => merged.contains (i, k)) frameEmpty 0 block.instrs =
        .ok (code, dropped) ∧
      block.term.operandUses.mapM (paint f.name colors) = .ok others ∧
      colored.blocks[i]? =
        some { block with instrs := code, term := block.term.mapRegs (painted colors) } := by
  unfold applyColors at ok
  obtain ⟨frame, isFrame, ok⟩ := bind_eq_ok.mp ok
  obtain ⟨⟨blocks, dropped⟩, areBlocks, ok⟩ := bind_eq_ok.mp ok
  cases ok
  have known := colorBlocks_getElem? areBlocks found
  rw [Nat.zero_add] at known
  exact ⟨_, known⟩

/-- The registers live at the top of a block, none for a number that is not a block. -/
def liveAt (liveness : Liveness f.blocks.length) (block : Nat) : RegSet :=
  (liveness.liveIn.get? block).getD ∅

theorem liveAt_eq (liveness : Liveness f.blocks.length) (block : Fin f.blocks.length) :
    liveAt liveness block = liveness.liveIn.get block := by
  simp [liveAt, Table.get?]

/-- What is live into a successor is live at the end of a block. -/
theorem liveAt_subset_liveAtEnd {succ : Fin f.blocks.length → List (Fin f.blocks.length)}
    (target : Fin f.blocks.length) (edge : target ∈ succ block) {reg : Reg}
    (live : reg ∈ liveAt (f.livenessAlong (.ofSuccs succ)) target) :
    reg ∈ f.liveAtEnd (f.livenessAlong (.ofSuccs succ)) block := by
  rw [liveAt_eq] at live
  refine RegSet.mem_addTracked.mpr (.inr (mem_liveOut.mpr ⟨target, ?_, live⟩))
  exact Edges.mem_succs_ofSuccs.mpr edge

theorem exit_painted {after finish : State} {exit : Exit} {others : List Reg}
    (mirrors : Mirrors coloring (f.liveAtEnd liveness block) after finish)
    (colored : (f.blocks.get block).term.operandUses.mapM (paint f.name coloring.colors) =
      .ok others)
    (exits : (f.blocks.get block).term.exit after = some exit) :
    ((f.blocks.get block).term.mapRegs (painted coloring.colors)).exit finish = some exit := by
  have live {reg : Reg} (used : reg ∈ (f.blocks.get block).term.uses)
      (tracked : reg.isTracked = true) : reg ∈ f.liveAtEnd liveness block :=
    RegSet.mem_addTracked.mpr (.inl ⟨used, tracked⟩)
  apply Terminator.exit_mapRegs _ _ exits
  · intro reg used word holds
    obtain ⟨color, isColor, isPainted⟩ := paint_ok_of_mapM colored reg used
    rw [isPainted]
    exact mirrors.read (live (Terminator.mem_uses_of_mem_operandUses used)) isColor holds
  · intro isRet reg used word holds
    have usedByRet := used
    rw [isRet] at usedByRet
    obtain ⟨phys, rfl⟩ := Terminator.physical_of_mem_ret usedByRet
    exact mirrors.read (live used) rfl holds

theorem mirrors_initial (live : RegSet) (file : PhysReg → Word) (memory : Word → Word)
    (slots : Nat → Word) :
    Mirrors coloring live (.initial file memory slots) (.initial file memory slots) where
  held reg _ color isColor word holds := by
    cases reg with
    | physical phys =>
        cases isColor
        exact holds
    | virtual number => cases holds
    | spilled slot => cases holds
  sp := rfl
  memory := rfl
  slots := rfl
  trace := rfl

/-- Colored code refines the code it was colored from. -/
theorem refines_applyColors (found : f.liveness = .ok liveness)
    (sound : coloring.Sound (f.interference liveness))
    (same : ∀ block : Fin f.blocks.length,
      SameColors coloring (f.blocks.get block) fun index => merged.contains (block.val, index))
    {colored : Func} {selfMoves : Nat}
    (ok : f.applyColors coloring.colors merged = .ok (colored, selfMoves)) :
    f.Refines colored := by
  intro env file memory slots count outcome ran
  obtain ⟨_, inside, rfl⟩ := liveness_eq_ok found
  have agree {live : RegSet} {s t : State} (mirrors : Mirrors coloring live s t) :
      State.Agree f.slots s t :=
    ⟨mirrors.memory, fun slot _ => congrFun mirrors.slots slot, mirrors.trace⟩
  have step : f.Simulates colored env
      (fun block => Mirrors coloring (liveAt (f.livenessAlong (.ofSuccs f.flow.targets)) block))
      (State.Agree f.slots) := by
    intro number code s t isCode mirrors after exit ran exits
    obtain ⟨frameEmpty, instrs, dropped, others, areInstrs, areOthers, isBlock⟩ :=
      applyColors_getElem? ok isCode
    obtain ⟨isBlockNumber, rfl⟩ := List.getElem?_eq_some_iff.mp isCode
    have mirrorsTop := mirrors.mono fun reg (needed : reg ∈ (f.blocks.get
        ⟨number, isBlockNumber⟩).transfer ((f.livenessAlong (.ofSuccs f.flow.targets)).liveOut.get
          ⟨number, isBlockNumber⟩)) =>
      (liveAt_eq _ ⟨number, isBlockNumber⟩) ▸ mem_liveIn_of_mem_transfer needed
    obtain ⟨finish, isFinish, mirrorsEnd⟩ := exec_colorInstrs sound
      (fun reg live => isTracked_of_mem_liveOut live) (same ⟨number, isBlockNumber⟩)
      (List.nil_append _).symm areInstrs mirrorsTop ran
    refine ⟨_, isBlock, finish, isFinish, exit_painted mirrorsEnd areOthers exits,
      agree mirrorsEnd, ?_⟩
    rintro target rfl
    apply mirrorsEnd.mono
    intro reg live
    have isTarget := Terminator.mem_targets_of_exit exits
    have targetInside := inside ⟨number, isBlockNumber⟩ target isTarget
    exact liveAt_subset_liveAtEnd ⟨target, targetInside⟩
      (FlowGraph.mem_targets.mpr isTarget) live
  obtain ⟨other, ranOther, related⟩ :=
    step.run (mirrors_initial _ file memory slots) ran
  exact ⟨other, ranOther, related.imp (fun _ _ _ => agree) fun _ _ agree => agree⟩

end Func

end Lowering.Machine
