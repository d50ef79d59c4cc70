import Lowering.Machine.Func

/-!
# Execution of machine code

Registers hold 32-bit words; a register that was never written holds none, and reading it gets
stuck.  Memory and the slots of the frame are disjoint, and adjusting the stack pointer changes
neither.  A call sees the arguments and the memory, and overwrites the caller-saved registers.
Calls and stores to memory leave a trace.
-/

namespace Lowering.Machine

abbrev Word := BitVec 32

/-- What an observer sees of a run. -/
inductive Event where
  | call (callee : String) (arguments : List Word)
  | store (address value : Word)
deriving DecidableEq, Repr

/-- What a call leaves behind. -/
structure CallEffect where
  regs : PhysReg → Word
  memory : Word → Word

/-- What code depends on besides its registers, memory and frame. -/
structure Environment where
  symbol : String → Word
  call : String → List Word → (Word → Word) → CallEffect

namespace AluOp

def eval : AluOp → Word → Word → Word
  | add, x, y => x + y
  | sub, x, y => x - y
  | mul, x, y => x * y
  | div, x, y => if y = 0 then -1 else x.sdiv y
  | rem, x, y => if y = 0 then x else x.srem y
  | and, x, y => x &&& y
  | or, x, y => x ||| y
  | xor, x, y => x ^^^ y
  | sll, x, y => x <<< (y.toNat % 32)
  | sra, x, y => x.sshiftRight (y.toNat % 32)
  | slt, x, y => if x.slt y then 1 else 0
  | sltu, x, y => if x.ult y then 1 else 0

end AluOp

namespace ImmOp

/-- The operation on two registers that an immediate takes part in. -/
def aluOp : ImmOp → AluOp
  | addi => .add
  | andi => .and
  | ori => .or
  | xori => .xor
  | slli => .sll
  | srai => .sra
  | slti => .slt

def eval (op : ImmOp) (x : Word) (imm : Int) : Word := op.aluOp.eval x (.ofInt 32 imm)

end ImmOp

def ZeroCmp.eval : ZeroCmp → Word → Word
  | seqz, x => if x = 0 then 1 else 0
  | snez, x => if x = 0 then 0 else 1
  | sltz, x => if x.slt 0 then 1 else 0
  | sgtz, x => if BitVec.slt 0 x then 1 else 0

def BranchOp.holds : BranchOp → Word → Word → Bool
  | beq, x, y => x == y
  | bne, x, y => x != y
  | blt, x, y => x.slt y
  | bge, x, y => !x.slt y

structure State where
  regs : Reg → Option Word
  memory : Word → Word
  slots : Nat → Word
  /-- Events so far, the earliest first. -/
  trace : List Event

namespace State

/-- The state a function is entered in: no virtual register is written. -/
def initial (file : PhysReg → Word) (memory : Word → Word) (slots : Nat → Word) : State where
  regs
    | .physical reg => some (file reg)
    | .virtual _ | .spilled _ => none
  memory := memory
  slots := slots
  trace := []

def read (s : State) (reg : Reg) : Option Word :=
  if reg = .physical .zero then some 0 else s.regs reg

/-- Writes to the constant zero are dropped. -/
def write (s : State) (reg : Reg) (value : Word) : State :=
  if reg = .physical .zero then s
  else { s with regs := fun other => if other = reg then some value else s.regs other }

def setSlot (s : State) (slot : Nat) (value : Word) : State :=
  { s with slots := fun other => if other = slot then value else s.slots other }

def setMemory (s : State) (address value : Word) : State :=
  { s with
    memory := fun other => if other = address then value else s.memory other
    trace := s.trace ++ [.store address value] }

def call (s : State) (env : Environment) (callee : String) (arguments : List Word) : State :=
  let effect := env.call callee arguments s.memory
  { s with
    regs
      | .physical reg => if reg.isCallerSaved then some (effect.regs reg) else s.regs (.physical reg)
      | reg => s.regs reg
    memory := effect.memory
    trace := s.trace ++ [.call callee arguments] }

def load (s : State) : Address → Option Word
  | .based base offset => (s.read base).map fun address => s.memory (address + .ofInt 32 offset)
  | .slot slot => some (s.slots slot)

def store (s : State) (value : Word) : Address → Option State
  | .based base offset =>
      (s.read base).map fun address => s.setMemory (address + .ofInt 32 offset) value
  | .slot slot => some (s.setSlot slot value)

end State

namespace Instr

/-- The value of the register that an instruction defines as its operand. -/
def value (env : Environment) (s : State) : Instr → Option Word
  | li _ imm => some (.ofInt 32 imm)
  | la _ symbol => some (env.symbol symbol)
  | load _ addr => s.load addr
  | move _ src => s.read src
  | alu op _ lhs rhs => (s.read lhs).bind fun x => (s.read rhs).map fun y => op.eval x y
  | aluImm op _ lhs imm => (s.read lhs).map fun x => op.eval x imm
  | cmpZero op _ src => (s.read src).map op.eval
  | store _ _ | call _ _ | spGrow | spRecover => none

/-- Runs an instruction, unless it reads a register that was never written. -/
def exec (env : Environment) (s : State) (instr : Instr) : Option State :=
  match instr with
  | li dest _ | la dest _ | load dest _ | move dest _ | alu _ dest _ _ | aluImm _ dest _ _
  | cmpZero _ dest _ => (instr.value env s).map (s.write dest)
  | store src addr => (s.read src).bind fun value => s.store value addr
  | call callee argc => ((arguments argc).mapM s.read).map (s.call env callee)
  | spGrow | spRecover => some s

end Instr

/-- The register that a result is returned in, `a0`. -/
def resultReg : Reg := .arg ⟨0, Nat.zero_lt_succ _⟩

/-- Where control goes at the end of a block. -/
inductive Exit where
  | goto (target : Nat)
  | leave (result returnAddress : Word)
deriving DecidableEq, Repr

def Terminator.exit (s : State) : Terminator → Option Exit
  | ret =>
      (s.read (.physical .ra)).bind fun returnAddress => (s.read resultReg).map fun result =>
        .leave result returnAddress
  | jump target => some (.goto target)
  | branch op lhs rhs thenBlock elseBlock =>
      (s.read lhs).bind fun x => (s.read rhs).map fun y =>
        .goto (if op.holds x y then thenBlock else elseBlock)

def Block.exec (env : Environment) (s : State) (block : Block) : Option State :=
  block.instrs.foldlM (Instr.exec env) s

/-- Where a run has got to. -/
inductive Outcome where
  | running (block : Nat) (state : State)
  | returned (result returnAddress : Word) (state : State)

/-- Runs a function from the top of a block, for at most `count` blocks.  There is no outcome if a
register is read that was never written. -/
def Func.run (f : Func) (env : Environment) : Nat → Nat → State → Option Outcome
  | 0, block, s => some (.running block s)
  | count + 1, block, s =>
      f.blocks[block]?.bind fun code =>
      (code.exec env s).bind fun after =>
      (code.term.exit after).bind fun exit =>
      match exit with
      | .goto target => f.run env count target after
      | .leave result returnAddress => some (.returned result returnAddress after)

namespace State

variable {s t : State} {reg other : Reg} {value : Word}

@[simp]
theorem read_zero (s : State) : s.read (.physical .zero) = some 0 := by
  simp [read]

theorem read_write (s : State) (reg other : Reg) (value : Word) :
    (s.write reg value).read other =
      if other = reg ∧ reg ≠ .physical .zero then some value else s.read other := by
  unfold read write
  by_cases isZero : reg = .physical .zero
  · simp [isZero]
  · by_cases same : other = reg
    · simp [isZero, same]
    · simp [isZero, same]

theorem read_write_ne (s : State) (value : Word) (different : other ≠ reg) :
    (s.write reg value).read other = s.read other := by
  simp [read_write, different]

theorem read_write_self (s : State) (value : Word) (notZero : reg ≠ .physical .zero) :
    (s.write reg value).read reg = some value := by
  simp [read_write, notZero]

@[simp]
theorem read_write_virtual (s : State) (number : Nat) (value : Word) :
    (s.write (.virtual number) value).read (.virtual number) = some value :=
  read_write_self s value (by simp)

@[simp]
theorem memory_write (s : State) (reg : Reg) (value : Word) :
    (s.write reg value).memory = s.memory := by
  unfold write
  split <;> rfl

@[simp]
theorem slots_write (s : State) (reg : Reg) (value : Word) :
    (s.write reg value).slots = s.slots := by
  unfold write
  split <;> rfl

@[simp]
theorem trace_write (s : State) (reg : Reg) (value : Word) :
    (s.write reg value).trace = s.trace := by
  unfold write
  split <;> rfl

/-- Writing a register's own value back changes nothing. -/
theorem write_read (held : s.read reg = some value) : s.write reg value = s := by
  unfold read at held
  unfold write
  split
  · rfl
  · next notZero =>
      rw [if_neg notZero] at held
      have same : (fun other => if other = reg then some value else s.regs other) = s.regs := by
        funext other
        split
        · next equal => rw [equal, held]
        · rfl
      rw [same]

@[simp]
theorem read_setSlot (s : State) (slot : Nat) (value : Word) :
    (s.setSlot slot value).read = s.read := rfl

@[simp]
theorem read_setMemory (s : State) (address value : Word) :
    (s.setMemory address value).read = s.read := rfl

theorem read_call (s : State) (env : Environment) (callee : String) (args : List Word)
    (reg : Reg) :
    (s.call env callee args).read reg =
      match reg with
      | .physical phys =>
          if phys.isCallerSaved then some ((env.call callee args s.memory).regs phys)
          else s.read reg
      | _ => s.read reg := by
  unfold read call
  cases reg with
  | physical phys =>
      by_cases isZero : phys = .zero
      · simp [isZero, PhysReg.isCallerSaved]
      · simp [isZero]
  | virtual number => rfl
  | spilled slot => rfl

end State

theorem mapM_of_forall {f g : Reg → Option Word} {regs : List Reg} {values : List Word}
    (found : regs.mapM f = some values)
    (agree : ∀ reg ∈ regs, ∀ value, f reg = some value → g reg = some value) :
    regs.mapM g = some values := by
  induction regs generalizing values with
  | nil => simpa using found
  | cons first rest ih =>
      rw [List.mapM_cons] at found ⊢
      simp only [Option.bind_eq_bind, Option.bind_eq_some_iff] at found ⊢
      obtain ⟨value, isValue, others, areOthers, isAll⟩ := found
      refine ⟨value, agree first List.mem_cons_self value isValue, others, ?_, isAll⟩
      apply ih areOthers
      intro reg member
      exact agree reg (List.mem_cons_of_mem _ member)

namespace Instr

variable {env : Environment} {instr : Instr} {s t : State} {use definition : Reg → Reg}

theorem exec_of_operandDef {dest : Reg} (defines : instr.operandDef? = some dest) :
    instr.exec env s = (instr.value env s).map (s.write dest) := by
  cases instr <;> cases defines <;> rfl

/-- An instruction computes the same value from replaced operands that hold the same words. -/
theorem value_mapOperands
    (reads : ∀ reg ∈ instr.operandUses, ∀ word, s.read reg = some word →
      t.read (use reg) = some word)
    (memory : t.memory = s.memory)
    (slots : ∀ slot, instr.slot? = some slot → t.slots slot = s.slots slot)
    {word : Word} (found : instr.value env s = some word) :
    (instr.mapOperands use definition).value env t = some word := by
  cases instr with
  | li dest imm => exact found
  | la dest symbol => exact found
  | load dest addr =>
      cases addr with
      | slot slot =>
          have same := slots slot rfl
          simp only [value, State.load, mapOperands, Address.mapRegs] at found ⊢
          rw [same]
          exact found
      | based base offset =>
          simp only [value, State.load, mapOperands, Address.mapRegs,
            Option.map_eq_some_iff] at found ⊢
          obtain ⟨address, isAddress, isWord⟩ := found
          exact ⟨address, reads base (by simp [operandUses]) address isAddress, memory ▸ isWord⟩
  | store src addr => cases found
  | move dest src => exact reads src (by simp [operandUses]) word found
  | alu op dest lhs rhs =>
      simp only [value, mapOperands, Option.bind_eq_some_iff, Option.map_eq_some_iff] at found ⊢
      obtain ⟨x, isX, y, isY, isWord⟩ := found
      exact ⟨x, reads lhs (by simp [operandUses]) x isX, y, reads rhs (by simp [operandUses]) y isY,
        isWord⟩
  | aluImm op dest lhs imm =>
      simp only [value, mapOperands, Option.map_eq_some_iff] at found ⊢
      obtain ⟨x, isX, isWord⟩ := found
      exact ⟨x, reads lhs (by simp [operandUses]) x isX, isWord⟩
  | cmpZero op dest src =>
      simp only [value, mapOperands, Option.map_eq_some_iff] at found ⊢
      obtain ⟨x, isX, isWord⟩ := found
      exact ⟨x, reads src (by simp [operandUses]) x isX, isWord⟩
  | call callee argc => cases found
  | spGrow => cases found
  | spRecover => cases found

theorem operandDef?_mapOperands :
    (instr.mapOperands use definition).operandDef? = instr.operandDef?.map definition := by
  cases instr <;> rfl

/-- What an instruction with a defined operand does: it computes a word and writes it. -/
theorem exec_eq_some_of_operandDef {dest : Reg} {after : State}
    (defines : instr.operandDef? = some dest) (ran : instr.exec env s = some after) :
    ∃ word, instr.value env s = some word ∧ after = s.write dest word := by
  rw [exec_of_operandDef defines, Option.map_eq_some_iff] at ran
  obtain ⟨word, found, isAfter⟩ := ran
  exact ⟨word, found, isAfter.symm⟩

end Instr

namespace Instr

variable {env : Environment} {s t after : State} {src base : Reg} {value address : Word}
  {instr : Instr} {use definition : Reg → Reg}

theorem exec_store_slot (slot : Nat) (held : t.read src = some value) :
    (store src (.slot slot)).exec env t = some (t.setSlot slot value) := by
  simp [exec, State.store, held]

theorem exec_store_based (offset : Int) (held : t.read src = some value)
    (heldBase : t.read base = some address) :
    (store src (.based base offset)).exec env t =
      some (t.setMemory (address + .ofInt 32 offset) value) := by
  simp [exec, State.store, held, heldBase]

/-- What a store does: it sets a slot or a word of memory. -/
theorem exec_store_cases {addr : Address} (ran : (store src addr).exec env s = some after) :
    ∃ value, s.read src = some value ∧
      ((∃ slot, addr = .slot slot ∧ after = s.setSlot slot value) ∨
        ∃ base offset address, addr = .based base offset ∧ s.read base = some address ∧
          after = s.setMemory (address + .ofInt 32 offset) value) := by
  simp only [exec, Option.bind_eq_some_iff] at ran
  obtain ⟨value, isValue, stored⟩ := ran
  refine ⟨value, isValue, ?_⟩
  cases addr with
  | slot slot =>
      cases stored
      exact .inl ⟨slot, rfl, rfl⟩
  | based base offset =>
      simp only [State.store, Option.map_eq_some_iff] at stored
      obtain ⟨address, isAddress, rfl⟩ := stored
      exact .inr ⟨base, offset, address, rfl, isAddress, rfl⟩

theorem operandUses_mapOperands :
    (instr.mapOperands use definition).operandUses = instr.operandUses.map use := by
  cases instr with
  | load dest addr => cases addr <;> rfl
  | store src addr => cases addr <;> rfl
  | _ => rfl

theorem mapOperands_mapOperands {use' definition' : Reg → Reg} :
    (instr.mapOperands use definition).mapOperands use' definition' =
      instr.mapOperands (use' ∘ use) (definition' ∘ definition) := by
  cases instr with
  | load dest addr => cases addr <;> rfl
  | store src addr => cases addr <;> rfl
  | _ => rfl

theorem mapOperands_eq_self (uses : ∀ reg ∈ instr.operandUses, use reg = reg)
    (defs : ∀ reg ∈ instr.operandDef?.toList, definition reg = reg) :
    instr.mapOperands use definition = instr := by
  cases instr with
  | load dest addr => cases addr <;> simp_all [mapOperands, operandUses, operandDef?, Address.mapRegs]
  | store src addr => cases addr <;> simp_all [mapOperands, operandUses, operandDef?, Address.mapRegs]
  | _ => simp_all [mapOperands, operandUses, operandDef?]

theorem mapOperands_id (instr : Instr) : instr.mapOperands id id = instr :=
  mapOperands_eq_self (fun _ _ => rfl) fun _ _ => rfl

/-- The registers that an instruction uses are its operands and fixed physical registers. -/
theorem exists_fixed_uses (instr : Instr) : ∃ fixed : List Reg,
    (∀ reg ∈ fixed, reg.isPhysical = true) ∧ instr.uses = instr.operandUses ++ fixed ∧
      ∀ use definition, (instr.mapOperands use definition).uses = instr.operandUses.map use ++ fixed := by
  have sp : ∀ reg ∈ [Reg.sp], reg.isPhysical = true := by simp [Reg.sp, Reg.isPhysical]
  cases instr with
  | load dest addr =>
      cases addr with
      | based base offset => exact ⟨[], by simp, rfl, fun _ _ => rfl⟩
      | slot slot => exact ⟨[.sp], sp, rfl, fun _ _ => rfl⟩
  | store src addr =>
      cases addr with
      | based base offset => exact ⟨[], by simp, rfl, fun _ _ => rfl⟩
      | slot slot => exact ⟨[.sp], sp, rfl, fun _ _ => rfl⟩
  | call callee argc =>
      refine ⟨arguments argc, fun reg member => ?_, rfl, fun _ _ => rfl⟩
      obtain ⟨i, _, rfl⟩ := List.mem_map.mp member
      rfl
  | spGrow => exact ⟨[.sp], sp, rfl, fun _ _ => rfl⟩
  | spRecover => exact ⟨[.sp], sp, rfl, fun _ _ => rfl⟩
  | _ => exact ⟨[], by simp, rfl, fun _ _ => rfl⟩

/-- The registers that an instruction defines are its operand and fixed physical registers. -/
theorem exists_fixed_defs (instr : Instr) : ∃ fixed : List Reg,
    (∀ reg ∈ fixed, reg.isPhysical = true) ∧ instr.defs = instr.operandDef?.toList ++ fixed ∧
      ∀ use definition, (instr.mapOperands use definition).defs =
        instr.operandDef?.toList.map definition ++ fixed := by
  have sp : ∀ reg ∈ [Reg.sp], reg.isPhysical = true := by simp [Reg.sp, Reg.isPhysical]
  cases instr with
  | call callee argc =>
      refine ⟨PhysReg.callerSaved.map Reg.physical, fun reg member => ?_, rfl, fun _ _ => rfl⟩
      obtain ⟨phys, _, rfl⟩ := List.mem_map.mp member
      rfl
  | spGrow => exact ⟨[.sp], sp, rfl, fun _ _ => rfl⟩
  | spRecover => exact ⟨[.sp], sp, rfl, fun _ _ => rfl⟩
  | _ => exact ⟨[], by simp, rfl, fun _ _ => rfl⟩

theorem mem_uses_of_mem_operandUses {reg : Reg} (used : reg ∈ instr.operandUses) : reg ∈ instr.uses := by
  obtain ⟨fixed, _, same, _⟩ := instr.exists_fixed_uses
  rw [same]
  exact List.mem_append_left _ used

theorem slot?_mapOperands :
    (instr.mapOperands use definition).slot? = instr.slot? := by
  cases instr with
  | load dest addr => cases addr <;> rfl
  | store src addr => cases addr <;> rfl
  | _ => rfl

end Instr

variable {s : State}

/-- A block is left in the same way if the terminator's registers hold the same words. -/
theorem Terminator.exit_mapRegs {term : Terminator} {t : State} {use : Reg → Reg}
    (reads : ∀ reg ∈ term.operandUses, ∀ word, s.read reg = some word →
      t.read (use reg) = some word)
    (returns : term = .ret → ∀ reg ∈ term.uses, ∀ word, s.read reg = some word →
      t.read reg = some word)
    {exit : Exit} (found : term.exit s = some exit) :
    (term.mapRegs use).exit t = some exit := by
  cases term with
  | ret =>
      simp only [Terminator.exit, Terminator.mapRegs, Option.bind_eq_some_iff,
        Option.map_eq_some_iff] at found ⊢
      obtain ⟨x, isX, y, isY, isExit⟩ := found
      have usesRa : .physical .ra ∈ ret.uses := List.mem_cons_self
      have usesResult : resultReg ∈ ret.uses := List.mem_cons_of_mem _ List.mem_cons_self
      exact ⟨x, returns rfl _ usesRa x isX, y, returns rfl _ usesResult y isY, isExit⟩
  | jump target => exact found
  | branch op lhs rhs thenBlock elseBlock =>
      simp only [Terminator.exit, Terminator.mapRegs, Option.bind_eq_some_iff,
        Option.map_eq_some_iff] at found ⊢
      obtain ⟨x, isX, y, isY, isExit⟩ := found
      exact ⟨x, reads lhs (by simp [operandUses]) x isX, y,
        reads rhs (by simp [operandUses]) y isY, isExit⟩

theorem Terminator.physical_of_mem_ret {reg : Reg} (used : reg ∈ Terminator.ret.uses) :
    ∃ phys, reg = .physical phys := by
  simp only [uses, List.mem_cons, List.not_mem_nil, or_false] at used
  rcases used with rfl | rfl
  · exact ⟨_, rfl⟩
  · exact ⟨_, rfl⟩

theorem Terminator.mem_targets_of_exit {term : Terminator} {target : Nat}
    (found : term.exit s = some (.goto target)) : target ∈ term.targets := by
  cases term with
  | ret =>
      simp only [Terminator.exit, Option.bind_eq_some_iff, Option.map_eq_some_iff] at found
      obtain ⟨x, _, y, _, isTarget⟩ := found
      cases isTarget
  | jump only =>
      cases found
      exact List.mem_cons_self
  | branch op lhs rhs thenBlock elseBlock =>
      simp only [Terminator.exit, Option.bind_eq_some_iff, Option.map_eq_some_iff] at found
      obtain ⟨x, _, y, _, isTarget⟩ := found
      cases isTarget
      by_cases taken : op.holds x y = true
      · simp [targets, taken]
      · simp [targets, taken]

/-- Two outcomes at the same place and with the same result, whose states are related. -/
inductive Outcome.Related (atBlock : Nat → State → State → Prop) (atReturn : State → State → Prop) :
    Outcome → Outcome → Prop
  | running {block : Nat} {s t : State} (related : atBlock block s t) :
      Related atBlock atReturn (.running block s) (.running block t)
  | returned {result returnAddress : Word} {s t : State} (related : atReturn s t) :
      Related atBlock atReturn (.returned result returnAddress s)
        (.returned result returnAddress t)

theorem Outcome.Related.imp {atBlock atBlock' : Nat → State → State → Prop}
    {atReturn atReturn' : State → State → Prop} {outcome other : Outcome}
    (related : Outcome.Related atBlock atReturn outcome other)
    (blocks : ∀ block s t, atBlock block s t → atBlock' block s t)
    (returns : ∀ s t, atReturn s t → atReturn' s t) :
    Outcome.Related atBlock' atReturn' outcome other := by
  cases related with
  | running related => exact .running (blocks _ _ _ related)
  | returned related => exact .returned (returns _ _ related)

/-- Blocks of the same number take related states to related states and are left alike. -/
def Func.Simulates (f g : Func) (env : Environment) (atBlock : Nat → State → State → Prop)
    (atReturn : State → State → Prop) : Prop :=
  ∀ (block : Nat) (code : Block) (s t : State), f.blocks[block]? = some code → atBlock block s t →
    ∀ after exit, code.exec env s = some after → code.term.exit after = some exit →
    ∃ other, g.blocks[block]? = some other ∧ ∃ finish, other.exec env t = some finish ∧
      other.term.exit finish = some exit ∧ atReturn after finish ∧
      ∀ target, exit = .goto target → atBlock target after finish

/-- What every pair of blocks keeps, whole runs keep. -/
theorem Func.Simulates.run {f g : Func} {env : Environment}
    {atBlock : Nat → State → State → Prop} {atReturn : State → State → Prop}
    (step : f.Simulates g env atBlock atReturn)
    {count block : Nat} {t : State} {outcome : Outcome} (related : atBlock block s t)
    (ran : f.run env count block s = some outcome) :
    ∃ other, g.run env count block t = some other ∧
      Outcome.Related atBlock atReturn outcome other := by
  induction count generalizing block s t with
  | zero =>
      cases ran
      exact ⟨_, rfl, .running related⟩
  | succ count ih =>
      simp only [Func.run, Option.bind_eq_some_iff] at ran
      obtain ⟨code, isCode, after, isAfter, exit, isExit, continued⟩ := ran
      obtain ⟨other, isOther, finish, isFinish, sameExit, returns, continues⟩ :=
        step block code s t isCode related after exit isAfter isExit
      simp only [Func.run, isOther, isFinish, sameExit, Option.bind_some]
      cases exit with
      | goto target => exact ih (continues target rfl) continued
      | leave result returnAddress =>
          cases continued
          exact ⟨_, rfl, .returned returns⟩

/-- Two states with the same memory and trace that agree on the first slots of the frame. -/
structure State.Agree (slots : Nat) (s t : State) : Prop where
  memory : t.memory = s.memory
  slots : ∀ slot < slots, t.slots slot = s.slots slot
  trace : t.trace = s.trace

namespace Func

/-- Whatever a function does without reading a register that was never written, the other function
does as well: it makes the same calls and stores to memory, goes through the same blocks, leaves the
slots of the first frame the same, and returns the same result to the same address. -/
def Refines (f g : Func) : Prop :=
  ∀ env file memory slots count outcome,
    f.run env count FlowGraph.entry (.initial file memory slots) = some outcome →
    ∃ other, g.run env count FlowGraph.entry (.initial file memory slots) = some other ∧
      Outcome.Related (fun _ => State.Agree f.slots) (State.Agree f.slots) outcome other

variable {f g : Func}

theorem Refines.trans {h : Func} (first : f.Refines g) (second : g.Refines h)
    (grows : f.slots ≤ g.slots) : f.Refines h := by
  intro env file memory slots count outcome ran
  obtain ⟨middle, ranMiddle, toMiddle⟩ := first env file memory slots count outcome ran
  obtain ⟨other, ranOther, toOther⟩ := second env file memory slots count middle ranMiddle
  refine ⟨other, ranOther, ?_⟩
  have compose {s t u : State} (agree : State.Agree f.slots s t) (agreeNext : State.Agree g.slots t u) :
      State.Agree f.slots s u :=
    { memory := agreeNext.memory.trans agree.memory
      slots := fun slot inside =>
        (agreeNext.slots slot (Nat.lt_of_lt_of_le inside grows)).trans (agree.slots slot inside)
      trace := agreeNext.trace.trans agree.trace }
  cases toMiddle with
  | running agree =>
      cases toOther with
      | running agreeNext => exact .running (compose agree agreeNext)
  | returned agree =>
      cases toOther with
      | returned agreeNext => exact .returned (compose agree agreeNext)

theorem run_congr (same : f.blocks = g.blocks) (env : Environment) (count block : Nat)
    (s : State) : f.run env count block s = g.run env count block s := by
  induction count generalizing block s with
  | zero => rfl
  | succ count ih =>
      simp only [Func.run, same, ih]

theorem Refines.congr {h : Func} (refines : g.Refines h) (sameBlocks : g.blocks = f.blocks)
    (sameSlots : g.slots = f.slots) : f.Refines h := by
  intro env file memory slots count outcome ran
  rw [run_congr sameBlocks.symm] at ran
  rw [← sameSlots]
  exact refines env file memory slots count outcome ran

end Func

end Lowering.Machine
