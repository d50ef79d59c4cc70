import Lowering.Ssa.Func

/-!
# Execution of SSA functions

The meaning of operations and calls is left open.  An `alloca` denotes one slot per activation, named
by its result and holding `undef` at the start.  The phis of a block are evaluated together, by the
block control came from; at the start of the function they all are `undef`.  A callee touches no slot
whose address it cannot have learned.  Calls and stores leave a trace.
-/

namespace Lowering.Ssa

/-- What a call leaves behind. -/
structure CallEffect (Val World : Type) where
  result : Val
  memory : Val → Val
  world : World

/-- Slots that are hidden: no argument, no memory cell and nothing outside tells their address. -/
structure Hides {Val World : Type} (mentions : Val → Nat → Prop) (knows : World → Nat → Prop)
    (hidden : Nat → Prop) (arguments : List Val) (memory : Val → Val) (world : World) : Prop where
  arguments : ∀ slot, hidden slot → ∀ argument ∈ arguments, ¬ mentions argument slot
  memory : ∀ slot, hidden slot → ∀ address, ¬ mentions (memory address) slot
  world : ∀ slot, hidden slot → ¬ knows world slot

/-- What the values, operations and calls of a function mean. -/
structure Interpretation where
  Val : Type
  /-- What is outside of the memory that the function shares with its callees. -/
  World : Type
  decEq : DecidableEq Val
  const : Int → Val
  undef : Val
  /-- The address of the slot that a value names. -/
  slot : Nat → Val
  /-- Operations may trap. -/
  binary : BinOp → Val → Val → Option Val
  cmp : CmpOp → Val → Val → Option Val
  truthy : Val → Bool
  /-- Calls may never return. -/
  call : String → List Val → (Val → Val) → World → Option (CallEffect Val World)
  /-- Does a value tell the address of a slot? -/
  mentions : Val → Nat → Prop
  knows : World → Nat → Prop
  mentions_const : ∀ c slot, ¬ mentions (const c) slot
  mentions_undef : ∀ slot, ¬ mentions undef slot
  mentions_slot : ∀ made told, mentions (slot made) told ↔ made = told
  mentions_binary : ∀ {op x y z slot}, binary op x y = some z → mentions z slot →
    mentions x slot ∨ mentions y slot
  mentions_cmp : ∀ {op x y z slot}, cmp op x y = some z → mentions z slot →
    mentions x slot ∨ mentions y slot
  /-- A call does not depend on what hidden slots hold. -/
  call_local : ∀ {hidden callee arguments world first second effect},
    Hides mentions knows hidden arguments first world →
    Hides mentions knows hidden arguments second world →
    (∀ address, (∀ s, hidden s → address ≠ slot s) → first address = second address) →
    call callee arguments first world = some effect →
    ∃ other, call callee arguments second world = some other ∧ other.result = effect.result ∧
      other.world = effect.world ∧
      ∀ address, (∀ s, hidden s → address ≠ slot s) → effect.memory address = other.memory address
  /-- A call leaves hidden slots as they are and hidden. -/
  call_keeps : ∀ {hidden callee arguments memory world effect},
    Hides mentions knows hidden arguments memory world →
    call callee arguments memory world = some effect →
    (∀ s, hidden s → effect.memory (slot s) = memory (slot s)) ∧
      Hides mentions knows hidden [effect.result] effect.memory effect.world

instance (I : Interpretation) : DecidableEq I.Val := I.decEq

/-- What an observer sees of a run. -/
inductive Event (Val : Type) where
  | call (callee : String) (arguments : List Val)
  | store (address value : Val)

/-- A state of one activation. -/
structure State (I : Interpretation) where
  env : Nat → Option I.Val
  memory : I.Val → I.Val
  world : I.World
  /-- Events so far, the earliest first. -/
  trace : List (Event I.Val)

/-- A result, or the events up to where execution stopped: at a value that was never computed, an
operation that trapped or a call that did not return. -/
abbrev Execution (I : Interpretation) (α : Type) := Except (List (Event I.Val)) α

namespace State

variable {I : Interpretation}

/-- The state a function is entered in. -/
def initial (params : List Nat) (arguments : List I.Val) (memory : I.Val → I.Val)
    (world : I.World) : State I where
  env := fun v => (params.zip arguments).lookup v
  memory := memory
  world := world
  trace := []

def read (s : State I) : Operand → Option I.Val
  | .value v => s.env v
  | .const c => some (I.const c)
  | .undef => some I.undef

def set (s : State I) (dest : Nat) (x : I.Val) : State I :=
  { s with env := fun v => if v = dest then some x else s.env v }

def store (s : State I) (address x : I.Val) : State I :=
  { s with
    memory := fun other => if other = address then x else s.memory other
    trace := s.trace ++ [.store address x] }

/-- Goes on with a value, or stops if there is none. -/
def require {α : Type} (s : State I) : Option α → Execution I α
  | some x => .ok x
  | none => .error s.trace

def call (s : State I) (dest : Option Nat) (callee : String) (arguments : List I.Val) :
    Execution I (State I) :=
  match I.call callee arguments s.memory s.world with
  | none => .error (s.trace ++ [.call callee arguments])
  | some effect =>
      .ok
        { env := fun v => if some v = dest then some effect.result else s.env v
          memory := effect.memory
          world := effect.world
          trace := s.trace ++ [.call callee arguments] }

/-- What a phi selects when control comes from a block, or at the start of the function. -/
def select (s : State I) (origin : Option Nat) (phi : Phi) : Option I.Val :=
  match origin with
  | none => some I.undef
  | some block => (phi.incoming.get? block).bind s.read

/-- Evaluates the phis of a block together. -/
def enter (s : State I) (origin : Option Nat) (phis : List Phi) : Execution I (State I) :=
  if phis.all fun phi => (s.select origin phi).isSome then
    .ok
      { s with
        env := fun v =>
          match phis.find? fun phi => phi.dest == v with
          | some phi => s.select origin phi
          | none => s.env v }
  else .error s.trace

end State

/-- Runs an instruction. -/
def Inst.exec {I : Interpretation} (s : State I) : Inst → Execution I (State I)
  | alloca dest => .ok (s.set dest (I.slot dest))
  | load dest addr => do
      let address ← s.require (s.read addr)
      return s.set dest (s.memory address)
  | store value addr => do
      let x ← s.require (s.read value)
      let address ← s.require (s.read addr)
      return s.store address x
  | binary op dest lhs rhs => do
      let x ← s.require (s.read lhs)
      let y ← s.require (s.read rhs)
      let z ← s.require (I.binary op x y)
      return s.set dest z
  | cmp op dest lhs rhs => do
      let x ← s.require (s.read lhs)
      let y ← s.require (s.read rhs)
      let z ← s.require (I.cmp op x y)
      return s.set dest z
  | call dest callee args => do
      let arguments ← s.require (args.mapM s.read)
      s.call dest callee arguments

namespace Inst

variable {I : Interpretation} {s : State I}

theorem exec_load {dest : Nat} {addr : Operand} {address : I.Val}
    (read : s.read addr = some address) :
    (load dest addr).exec s = .ok (s.set dest (s.memory address)) := by
  rw [exec, read]
  rfl

theorem exec_store {value addr : Operand} {x address : I.Val} (readValue : s.read value = some x)
    (readAddr : s.read addr = some address) :
    (store value addr).exec s = .ok (s.store address x) := by
  rw [exec, readValue, readAddr]
  rfl

theorem exec_call {dest : Option Nat} {callee : String} {args : List Operand} {xs : List I.Val}
    (readAll : args.mapM s.read = some xs) :
    (call dest callee args).exec s = s.call dest callee xs := by
  rw [exec, readAll]
  rfl

end Inst

/-- Where control goes at the end of a block. -/
inductive Exit (Val : Type) where
  | goto (target : Nat)
  | leave (value : Option Val)

def Terminator.exit {I : Interpretation} (s : State I) : Terminator → Execution I (Exit I.Val)
  | ret none => .ok (.leave none)
  | ret (some value) => do
      let x ← s.require (s.read value)
      return .leave (some x)
  | branch cond thenBlock elseBlock => do
      let x ← s.require (s.read cond)
      return .goto (if I.truthy x then thenBlock else elseBlock)
  | jump target => .ok (.goto target)

namespace Terminator

variable {I : Interpretation} {s : State I} {x : I.Val}

theorem exit_ret {value : Operand} (read : s.read value = some x) :
    (ret (some value)).exit s = .ok (.leave (some x)) := by
  rw [exit, read]
  rfl

theorem exit_branch {cond : Operand} {thenBlock elseBlock : Nat} (read : s.read cond = some x) :
    (branch cond thenBlock elseBlock).exit s =
      .ok (.goto (if I.truthy x then thenBlock else elseBlock)) := by
  rw [exit, read]
  rfl

end Terminator

/-- Runs a block that control enters from another one. -/
def Block.exec {I : Interpretation} (s : State I) (origin : Option Nat) (block : Block) :
    Execution I (State I × Exit I.Val) := do
  let entered ← s.enter origin block.phis
  let after ← block.insts.foldlM Inst.exec entered
  let exit ← block.term.exit after
  return (after, exit)

/-- How far a run has got, with the events so far. -/
inductive Outcome (Val : Type) where
  | running (trace : List (Event Val))
  | returned (value : Option Val) (trace : List (Event Val))
  | stopped (trace : List (Event Val))

def Outcome.mapTrace {Val : Type} (f : List (Event Val) → List (Event Val)) :
    Outcome Val → Outcome Val
  | running trace => running (f trace)
  | returned value trace => returned value (f trace)
  | stopped trace => stopped (f trace)

@[simp]
theorem Outcome.mapTrace_id {Val : Type} (outcome : Outcome Val) : outcome.mapTrace id = outcome := by
  cases outcome with
  | running trace => rfl
  | returned value trace => rfl
  | stopped trace => rfl

namespace Func

variable {I : Interpretation}

/-- Runs a function from the top of a block, for at most `count` blocks. -/
def runFrom (f : Func) : Nat → Option Nat → Nat → State I → Outcome I.Val
  | 0, _, _, s => .running s.trace
  | count + 1, origin, block, s =>
      match f.blocks[block]? with
      | none => .stopped s.trace
      | some code =>
          match code.exec s origin with
          | .error trace => .stopped trace
          | .ok (after, .goto target) => f.runFrom count (some block) target after
          | .ok (after, .leave value) => .returned value after.trace

/-- Runs a function for at most `count` blocks. -/
def run (f : Func) (arguments : List I.Val) (memory : I.Val → I.Val) (world : I.World)
    (count : Nat) : Outcome I.Val :=
  f.runFrom count none FlowGraph.entry (.initial f.params arguments memory world)

/-! ## Runs in step -/

/-- Two executed blocks stop alike, return alike, or go on to related blocks and states. -/
inductive Follows (view : List (Event I.Val) → List (Event I.Val))
    (next : Nat → State I → Nat → State I → Prop) :
    Execution I (State I × Exit I.Val) → Execution I (State I × Exit I.Val) → Prop where
  | stopped {trace : List (Event I.Val)} : Follows view next (.error trace) (.error (view trace))
  | goto {first second : Nat} {s t : State I} : next first s second t →
      Follows view next (.ok (s, .goto first)) (.ok (t, .goto second))
  | leave {value : Option I.Val} {s t : State I} : t.trace = view s.trace →
      Follows view next (.ok (s, .leave value)) (.ok (t, .leave value))

theorem Follows.imp {view : List (Event I.Val) → List (Event I.Val)}
    {next other : Nat → State I → Nat → State I → Prop}
    {first second : Execution I (State I × Exit I.Val)} (follows : Follows view next first second)
    (weaken : ∀ {a s b t}, next a s b t → other a s b t) : Follows view other first second := by
  cases follows with
  | stopped => exact .stopped
  | goto related => exact .goto (weaken related)
  | leave same => exact .leave same

/-- Two functions whose related blocks follow each other have the same runs, but for what the view of
the trace leaves out. -/
theorem runFrom_eq {f g : Func} {view : List (Event I.Val) → List (Event I.Val)}
    (related : Option Nat → Nat → State I → Option Nat → Nat → State I → Prop)
    (traces : ∀ {origin block s origin' block' t}, related origin block s origin' block' t →
      t.trace = view s.trace)
    (step : ∀ {origin block s origin' block' t}, related origin block s origin' block' t →
      (f.blocks[block]? = none ∧ g.blocks[block']? = none) ∨
      ∃ code code', f.blocks[block]? = some code ∧ g.blocks[block']? = some code' ∧
        Follows view (fun next s next' t => related (some block) next s (some block') next' t)
          (code.exec s origin) (code'.exec t origin'))
    {origin origin' : Option Nat} {block block' : Nat} {s t : State I}
    (start : related origin block s origin' block' t) (count : Nat) :
    g.runFrom count origin' block' t = (f.runFrom count origin block s).mapTrace view := by
  induction count generalizing origin origin' block block' s t with
  | zero =>
      rw [runFrom, runFrom, traces start]
      rfl
  | succ count ih =>
      rw [runFrom, runFrom]
      rcases step start with ⟨noneF, noneG⟩ | ⟨code, code', someF, someG, follows⟩
      · rw [noneF, noneG, traces start]
        rfl
      · simp only [someF, someG]
        generalize code.exec s origin = first at follows
        generalize code'.exec t origin' = second at follows
        cases follows with
        | stopped => rfl
        | goto related => exact ih related
        | leave same => exact congrArg (Outcome.returned _) same

end Func

end Lowering.Ssa
