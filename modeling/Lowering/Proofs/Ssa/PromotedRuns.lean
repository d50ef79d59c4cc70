import Lowering.Proofs.Ssa.Arrival
import Lowering.Proofs.Ssa.Pruning

/-!
# Runs of promoted functions

A promoted function has the runs of the function, but for the stores to the promoted slots: block by
block the runs arrive together, match behind the phis and keep in step up to the end of the block.
-/

namespace Lowering.Ssa

variable {f : Func} {I : Interpretation}

namespace Promotion

variable {p : Promotion f} {block : Fin f.blocks.length} {i : Nat} {s t : State I}

/-- The runs keep in step from an instruction to the end of its block. -/
theorem Matches.rest (matched : p.Matches block i s t)
    (inside : i ≤ (f.blocks.get block).insts.length) :
    Together f.promotableSlots (p.Matches block (f.blocks.get block).insts.length)
      (((f.blocks.get block).insts.drop i).foldlM Inst.exec s)
      (((((f.blocks.get block).insts.drop i).filter (!p.plan.removes ·)).map
        (Inst.mapOperands p.resolve)).foldlM Inst.exec t) := by
  generalize isRest : (f.blocks.get block).insts.drop i = rest
  induction rest generalizing i s t with
  | nil =>
      obtain rfl := Nat.le_antisymm inside (List.drop_eq_nil_iff.mp isRest)
      exact .ok matched
  | cons inst rest ih =>
      have found : (f.blocks.get block).insts[i]? = some inst := by
        rw [← List.head?_drop, isRest]
        rfl
      have isLater : (f.blocks.get block).insts.drop (i + 1) = rest := by
        rw [← List.tail_drop, isRest]
        rfl
      have inside : i + 1 ≤ (f.blocks.get block).insts.length :=
        (List.getElem?_eq_some_iff.mp found).1
      cases kept : p.plan.removes inst with
      | true =>
          obtain ⟨s', ran, next⟩ := matched.removed found kept
          rw [List.foldlM_cons, ran, List.filter_cons_of_neg (by simp [kept])]
          exact ih next inside isLater
      | false =>
          rw [List.filter_cons_of_pos (by simp [kept]), List.map_cons, List.foldlM_cons,
            List.foldlM_cons]
          exact (matched.kept found kept).bind fun next => ih next inside isLater

theorem Matches.exit (matched : p.Matches block (f.blocks.get block).insts.length s t) :
    ∃ exit, (f.blocks.get block).term.exit s = .ok exit ∧
      (p.block block).term.exit t = .ok exit ∧
      ∀ target, exit = .goto target → target ∈ (f.blocks.get block).term.targets := by
  have read {operand : Operand} (member : operand ∈ (f.blocks.get block).term.operands) :=
    matched.read (p.strict.termUses operand member) (free_of_term member)
  show ∃ exit, _ ∧ ((f.blocks.get block).term.mapOperands p.resolve).exit t = _ ∧ _
  generalize (f.blocks.get block).term = term at read
  cases term with
  | ret value =>
      cases value with
      | none => exact ⟨.leave none, rfl, rfl, nofun⟩
      | some value =>
          obtain ⟨x, readS, readT, _⟩ := read (List.mem_singleton_self value)
          exact ⟨_, Terminator.exit_ret readS, Terminator.exit_ret readT, nofun⟩
  | branch cond thenBlock elseBlock =>
      obtain ⟨x, readS, readT, _⟩ := read (List.mem_singleton_self cond)
      refine ⟨_, Terminator.exit_branch readS, Terminator.exit_branch readT, ?_⟩
      rintro target ⟨⟩
      split
      · exact List.mem_cons_self
      · exact List.mem_cons_of_mem _ (List.mem_singleton_self _)
  | jump target =>
      refine ⟨.goto target, rfl, rfl, ?_⟩
      rintro _ ⟨⟩
      exact List.mem_singleton_self target

/-- From where both runs arrive at a block, they stop alike, return alike, or arrive at the next. -/
theorem Arrives.follows (keyed : f.Keyed) {origin : Option Nat}
    (arrives : p.Arrives block origin s t) :
    Func.Follows (I.view f.promotableSlots)
      (fun target s number t => number = target ∧
        ∃ next : Fin f.blocks.length, target = next.val ∧ p.Arrives next (some block.val) s t)
      ((f.blocks.get block).exec s origin) ((p.block block).exec t origin) := by
  obtain ⟨s', t', enteredS, enteredT, matched⟩ := arrives.enter
  have together := matched.rest (Nat.zero_le _)
  unfold Block.exec
  rw [enteredS, enteredT]
  change Together _ _ ((f.blocks.get block).insts.foldlM Inst.exec s')
    ((p.block block).insts.foldlM Inst.exec t') at together
  simp only [bind, Except.bind]
  generalize (f.blocks.get block).insts.foldlM Inst.exec s' = first at together
  generalize (p.block block).insts.foldlM Inst.exec t' = second at together
  cases together with
  | stopped => exact .stopped
  | ok matched =>
      obtain ⟨exit, exitS, exitT, targets⟩ := matched.exit
      simp only [exitS, exitT]
      cases exit with
      | leave value => exact .leave matched.agree.trace
      | goto target =>
          have listed := targets target rfl
          have inside : target < f.blocks.length := p.strict.closed block target listed
          exact .goto ⟨rfl, ⟨target, inside⟩, rfl, matched.arrives keyed listed⟩

/-- Promotion keeps the runs, but for the stores to promoted slots. -/
theorem run_func (p : Promotion f) (keyed : f.Keyed) {arguments : List I.Val}
    {memory : I.Val → I.Val} {world : I.World} (all : arguments.length = f.params.length)
    (hides : Hides I.mentions I.knows (· ∈ f.promotableSlots) arguments memory world)
    (clear : ∀ slot ∈ f.promotableSlots, memory (I.slot slot) = I.undef) (count : Nat) :
    p.func.run arguments memory world count =
      (f.run arguments memory world count).mapTrace (I.view f.promotableSlots) := by
  refine Func.runFrom_eq (fun origin block s origin' block' t => origin' = origin ∧ block' = block ∧
    ∃ index : Fin f.blocks.length, block = index.val ∧ p.Arrives index origin s t) ?_ ?_
    ⟨rfl, rfl, p.root, p.strict.entry.symm, p.arrives_root all hides clear⟩ count
  · rintro origin block s origin' block' t ⟨_, _, index, _, arrives⟩
    exact arrives.agree.trace
  · rintro origin block s origin' block' t ⟨rfl, rfl, index, rfl, arrives⟩
    refine .inr ⟨_, _, List.getElem?_eq_getElem index.isLt, p.getElem?_blocks index, ?_⟩
    refine (arrives.follows keyed).imp ?_
    rintro target s number t ⟨rfl, next, isNext, arrived⟩
    exact ⟨rfl, rfl, next, isNext, arrived⟩

end Promotion

namespace Func

theorem run_nextValue (f : Func) (nextValue : Nat) (arguments : List I.Val)
    (memory : I.Val → I.Val) (world : I.World) (count : Nat) :
    { f with nextValue }.run arguments memory world count =
      f.run arguments memory world count := by
  have from_block (origin : Option Nat) (block : Nat) (s : State I) :
      { f with nextValue }.runFrom count origin block s = f.runFrom count origin block s := by
    induction count generalizing origin block s with
    | zero => rfl
    | succ count ih => simp only [runFrom, ih]
  exact from_block _ _ _

/-- Promotion keeps the meaning of a function: every run calls the same with the same arguments, stores
the same outside of the promoted slots, and returns the same or goes on as long. -/
theorem run_promote {f pruned : Func} {removed : Nat}
    (ok : f.prune.result = .ok (pruned, removed)) (phis : pruned.checkPhis = .ok (.ok ()))
    (dominance : pruned.checkDominance.result = .ok (.ok ()))
    (room : f.promote.result ≠ .error .addOverflow) :
    ∃ promoted stats, f.promote.result = .ok (promoted, stats) ∧
      stats.slots = pruned.promotableSlots ∧
      ∀ (I : Interpretation) (arguments : List I.Val) (memory : I.Val → I.Val) (world : I.World),
        arguments.length = f.params.length →
        Hides I.mentions I.knows (· ∈ stats.slots) arguments memory world →
        (∀ slot ∈ stats.slots, memory (I.slot slot) = I.undef) → ∀ count,
          promoted.run arguments memory world count =
            (f.run arguments memory world count).mapTrace (I.view stats.slots) := by
  rcases promote_cases ok dominance with ⟨overflow, _⟩ | ⟨reserved, isReserved, cases⟩
  · exact absurd overflow room
  have sameParams : reserved.params = f.params := by
    rw [← params_prune ok, isReserved]
  have same {I : Interpretation} (arguments : List I.Val) (memory : I.Val → I.Val) (world : I.World)
      (count : Nat) : reserved.run arguments memory world count =
        f.run arguments memory world count := by
    rw [← run_prune ok, isReserved, run_nextValue]
  rcases cases with ⟨empty, kept⟩ | ⟨p, stats, isSlots, done⟩
  · refine ⟨reserved, _, kept, ?_, ?_⟩
    · rw [isReserved] at empty
      exact empty.symm
    · intro I arguments memory world _ _ _ count
      rw [Interpretation.view_nil, Outcome.mapTrace_id, same]
  · have keyed : reserved.Keyed := by
      rw [isReserved]
      exact (checkPhis_eq_ok_iff.mp phis).2
    refine ⟨p.func, stats, done, ?_, ?_⟩
    · rw [isSlots, isReserved]
      rfl
    · rw [isSlots]
      intro I arguments memory world all hides clear count
      rw [← same, p.run_func keyed (sameParams ▸ all) hides clear]

end Func

/-- A number or the address of a slot. -/
inductive Word where
  | number (n : Int)
  | address (slot : Nat)
deriving DecidableEq

/-- The memory once the given addresses are cleared. -/
def Word.cleared (arguments : List Word) (memory : Word → Word) (place : Word) : Word :=
  if place ∈ arguments then .number 0 else memory place

/-- Numbers that can be added, subtracted and compared; a callee clears the slots whose addresses it is
given. -/
def Interpretation.words : Interpretation where
  Val := Word
  World := Unit
  decEq := inferInstance
  const := .number
  undef := .number 0
  slot := .address
  binary
    | .add, .number a, .number b => some (.number (a + b))
    | .sub, .number a, .number b => some (.number (a - b))
    | _, _, _ => none
  cmp
    | .gt, .number a, .number b => some (.number (if b < a then 1 else 0))
    | _, _, _ => none
  truthy x := x ≠ .number 0
  call _ arguments memory world := some ⟨.number 0, Word.cleared arguments memory, world⟩
  mentions x slot := x = .address slot
  knows _ _ := False
  mentions_const := fun _ _ => nofun
  mentions_undef := fun _ => nofun
  mentions_slot := fun _ _ => iff_of_eq (Word.address.injEq _ _)
  mentions_binary := by
    rintro op x y z slot made rfl
    split at made <;> cases made
  mentions_cmp := by
    rintro op x y z slot made rfl
    split at made <;> cases made
  call_local := by
    rintro hidden callee arguments world first second effect _ _ agree ⟨⟩
    refine ⟨_, rfl, rfl, rfl, fun address apart => ?_⟩
    show (if address ∈ arguments then _ else first address) = if address ∈ arguments then _ else _
    rw [agree address apart]
  call_keeps := by
    rintro hidden callee arguments memory world effect hides ⟨⟩
    refine ⟨fun s isHidden => if_neg fun given => hides.arguments s isHidden _ given rfl, ?_, ?_,
      hides.world⟩
    · rintro slot _ _ given
      rw [List.mem_singleton.mp given]
      nofun
    · intro slot isHidden address
      show ¬ (if address ∈ arguments then Word.number 0 else memory address) = Word.address slot
      split
      · nofun
      · exact hides.memory slot isHidden address

namespace Func

theorem checkPhis_countdown : countdownPruned.checkPhis = .ok (.ok ()) := by
  cbv

theorem hides_countdown : Hides Interpretation.words.mentions Interpretation.words.knows
    (· ∈ [1, 2]) [Word.number 3] (fun _ => Word.number 0) () where
  arguments := by
    rintro slot _ argument given told
    cases List.mem_singleton.mp given
    cases told
  memory _ _ _ told := Word.noConfusion told
  world _ _ := id

theorem run_promote_countdown :
    ∃ promoted stats, countdown.promote.result = .ok (promoted, stats) ∧ stats.slots = [1, 2] ∧
      (∀ count, promoted.run (I := .words) [Word.number 3] (fun _ => Word.number 0) () count =
        (countdown.run (I := .words) [Word.number 3] (fun _ => Word.number 0) () count).mapTrace
          (Interpretation.words.view [1, 2])) ∧
      promoted.run (I := .words) [Word.number 3] (fun _ => Word.number 0) () 9 =
        .returned (some (Word.number 6)) [] := by
  obtain ⟨promoted, stats, done, isSlots, same⟩ :=
    run_promote prune_countdown checkPhis_countdown checkDominance_countdown room_countdown
  rw [promotableSlots_countdown] at isSlots
  rw [isSlots] at same
  have alike := same .words [Word.number 3] (fun _ => Word.number 0) () rfl hides_countdown fun _ _ => rfl
  refine ⟨promoted, stats, done, isSlots, alike, ?_⟩
  rw [alike]
  rfl

end Func

end Lowering.Ssa
