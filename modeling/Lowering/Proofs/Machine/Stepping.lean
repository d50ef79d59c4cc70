import Lowering.Proofs.Machine.Execution

/-!
# Machine code step by step

A run is followed from instruction to instruction.  Steps show the accesses to the first slots of the
frame and the jumps they take; calls and stores to memory are in the trace of the state.
-/

namespace Lowering.Machine

inductive Signal where
  | load (slot : Nat) (value : Word)
  | store (slot : Nat) (value : Word)
  | goto (target : Nat)
deriving DecidableEq, Repr

/-- The accesses of an instruction to the first slots. -/
def Instr.accesses (slots : Nat) (s : State) : Instr → List Signal
  | load _ (.slot slot) => if slot < slots then [.load slot (s.slots slot)] else []
  | store src (.slot slot) => if slot < slots then (s.read src).toList.map (.store slot) else []
  | _ => []

/-- Runs instructions, and lists their accesses to the first slots. -/
def observe (env : Environment) (slots : Nat) : List Instr → State → Option (State × List Signal)
  | [], s => some (s, [])
  | instr :: rest, s =>
      (instr.exec env s).bind fun after =>
      (observe env slots rest after).map fun seen => (seen.1, instr.accesses slots s ++ seen.2)

/-- A place that control has come to, with the state there. -/
structure Config where
  block : Nat
  /-- The instructions before this position have been run. -/
  position : Nat
  state : State

namespace Func

/-- Goes some steps from a place to another one. -/
inductive Steps (f : Func) (env : Environment) (slots : Nat) :
    Config → List Signal → Config → Prop where
  | stay (config : Config) : Steps f env slots config [] config
  | instr {block i : Nat} {code : Block} {instr : Instr} {s after : State}
      {signals : List Signal} {last : Config} :
      f.blocks[block]? = some code → code.instrs[i]? = some instr →
      instr.exec env s = some after → Steps f env slots ⟨block, i + 1, after⟩ signals last →
      Steps f env slots ⟨block, i, s⟩ (instr.accesses slots s ++ signals) last
  | jump {block target : Nat} {code : Block} {s : State} {signals : List Signal} {last : Config} :
      f.blocks[block]? = some code → code.term.exit s = some (.goto target) →
      Steps f env slots ⟨target, 0, s⟩ signals last →
      Steps f env slots ⟨block, code.instrs.length, s⟩ (.goto target :: signals) last

/-- Goes some steps from a place to a return. -/
def ReturnsFrom (f : Func) (env : Environment) (slots : Nat) (config : Config)
    (signals : List Signal) (result returnAddress : Word) (s : State) : Prop :=
  ∃ block code, f.blocks[block]? = some code ∧
    f.Steps env slots config signals ⟨block, code.instrs.length, s⟩ ∧
    code.term.exit s = some (.leave result returnAddress)

end Func

variable {env : Environment} {slots : Nat} {signals : List Signal} {s last : State}

theorem Func.Steps.trans {f : Func} {first middle last : Config} {more : List Signal}
    (steps : f.Steps env slots first signals middle) (rest : f.Steps env slots middle more last) :
    f.Steps env slots first (signals ++ more) last := by
  induction steps with
  | stay => exact rest
  | instr isCode isInstr ran _ ih =>
      rw [List.append_assoc]
      exact .instr isCode isInstr ran (ih rest)
  | jump isCode exits _ ih => exact .jump isCode exits (ih rest)

/-- Instructions that touch other slots only make no access to the first ones. -/
theorem Instr.accesses_eq_nil {instr : Instr} (beyond : ∀ slot, instr.slot? = some slot → slots ≤ slot)
    (s : State) : instr.accesses slots s = [] := by
  cases instr with
  | load dest addr =>
      cases addr with
      | slot slot => exact if_neg (Nat.not_lt.mpr (beyond slot rfl))
      | based base offset => rfl
  | store src addr =>
      cases addr with
      | slot slot => exact if_neg (Nat.not_lt.mpr (beyond slot rfl))
      | based base offset => rfl
  | _ => rfl

theorem observe_eq_of_beyond {code : List Instr}
    (beyond : ∀ instr ∈ code, ∀ slot, instr.slot? = some slot → slots ≤ slot)
    (ran : code.foldlM (Instr.exec env) s = some last) :
    observe env slots code s = some (last, []) := by
  induction code generalizing s with
  | nil => exact congrArg (Option.map (·, [])) ran
  | cons instr rest ih =>
      obtain ⟨after, isAfter, ran⟩ := Option.bind_eq_some_iff.mp ran
      rw [observe, isAfter, Option.bind_some,
        ih (fun other member => beyond other (List.mem_cons_of_mem _ member)) ran,
        Option.map_some, Instr.accesses_eq_nil (beyond instr List.mem_cons_self)]
      rfl

theorem exec_of_observe {code : List Instr}
    (seen : observe env slots code s = some (last, signals)) :
    code.foldlM (Instr.exec env) s = some last := by
  induction code generalizing s signals with
  | nil =>
      cases seen
      rfl
  | cons instr rest ih =>
      obtain ⟨after, isAfter, seen⟩ := Option.bind_eq_some_iff.mp seen
      obtain ⟨⟨_, later⟩, isLater, seen⟩ := Option.map_eq_some_iff.mp seen
      cases seen
      rw [List.foldlM_cons, isAfter]
      exact ih isLater

theorem observe_append {first second : List Instr} {middle : State} {more : List Signal}
    (ran : observe env slots first s = some (middle, signals))
    (ranMore : observe env slots second middle = some (last, more)) :
    observe env slots (first ++ second) s = some (last, signals ++ more) := by
  induction first generalizing s signals with
  | nil =>
      cases ran
      exact ranMore
  | cons instr rest ih =>
      obtain ⟨after, isAfter, ran⟩ := Option.bind_eq_some_iff.mp ran
      obtain ⟨⟨_, later⟩, isLater, ran⟩ := Option.map_eq_some_iff.mp ran
      cases ran
      rw [List.cons_append, observe, isAfter, Option.bind_some, ih isLater,
        Option.map_some, List.append_assoc]

/-- Running a stretch of a block is going through it step by step. -/
theorem Func.steps_of_observe {f : Func} {block position : Nat} {code : Block}
    (isCode : f.blocks[block]? = some code) {stretch rest : List Instr}
    (found : code.instrs.drop position = stretch ++ rest)
    (ran : observe env slots stretch s = some (last, signals)) :
    f.Steps env slots ⟨block, position, s⟩ signals ⟨block, position + stretch.length, last⟩ := by
  induction stretch generalizing position s signals with
  | nil =>
      cases ran
      exact .stay _
  | cons instr later ih =>
      obtain ⟨after, isAfter, ran⟩ := Option.bind_eq_some_iff.mp ran
      obtain ⟨⟨_, signals⟩, isLater, ran⟩ := Option.map_eq_some_iff.mp ran
      cases ran
      have here : code.instrs[position]? = some instr := by
        rw [← Nat.add_zero position, ← List.getElem?_drop, found]
        rfl
      have behind : code.instrs.drop (position + 1) = later ++ rest := by
        rw [← List.drop_drop, found]
        rfl
      refine .instr isCode here isAfter ?_
      rw [List.length_cons, Nat.add_comm later.length, ← Nat.add_assoc]
      exact ih behind isLater

end Lowering.Machine
