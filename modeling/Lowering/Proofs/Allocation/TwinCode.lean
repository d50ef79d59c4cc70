import Lowering.Allocation.Interference
import Lowering.Proofs.Allocation.Sheltering
import Lowering.Proofs.Allocation.TwinRounds
import Mathlib

/-!
# Code on twins

Instructions, blocks and functions that differ in their virtual registers only.  What is live where,
the copies and the interference graph of one of two such functions are those of the other one, twin
by twin.
-/

namespace Lowering.Machine

namespace Pairing

variable {p : Pairing} {a b a' b' : Reg}

inductive Addresses (p : Pairing) : Address → Address → Prop where
  | based {base base' : Reg} (offset : Int) : p.Twins base base' →
      Addresses p (.based base offset) (.based base' offset)
  | slot (slot : Nat) : Addresses p (.slot slot) (.slot slot)

/-- The same instruction on twins. -/
inductive Instrs (p : Pairing) : Instr → Instr → Prop where
  | li {dest dest' : Reg} (imm : Int) : p.Twins dest dest' → Instrs p (.li dest imm) (.li dest' imm)
  | la {dest dest' : Reg} (symbol : String) : p.Twins dest dest' →
      Instrs p (.la dest symbol) (.la dest' symbol)
  | load {dest dest' : Reg} {addr addr' : Address} : p.Twins dest dest' → p.Addresses addr addr' →
      Instrs p (.load dest addr) (.load dest' addr')
  | store {src src' : Reg} {addr addr' : Address} : p.Twins src src' → p.Addresses addr addr' →
      Instrs p (.store src addr) (.store src' addr')
  | move {dest dest' src src' : Reg} : p.Twins dest dest' → p.Twins src src' →
      Instrs p (.move dest src) (.move dest' src')
  | alu (op : AluOp) {dest dest' lhs lhs' rhs rhs' : Reg} : p.Twins dest dest' → p.Twins lhs lhs' →
      p.Twins rhs rhs' → Instrs p (.alu op dest lhs rhs) (.alu op dest' lhs' rhs')
  | aluImm (op : ImmOp) {dest dest' lhs lhs' : Reg} (imm : Int) : p.Twins dest dest' →
      p.Twins lhs lhs' → Instrs p (.aluImm op dest lhs imm) (.aluImm op dest' lhs' imm)
  | cmpZero (op : ZeroCmp) {dest dest' src src' : Reg} : p.Twins dest dest' → p.Twins src src' →
      Instrs p (.cmpZero op dest src) (.cmpZero op dest' src')
  | call (callee : String) (argc : Nat) : Instrs p (.call callee argc) (.call callee argc)
  | spGrow : Instrs p .spGrow .spGrow
  | spRecover : Instrs p .spRecover .spRecover

/-- The same terminator on twins. -/
inductive Terms (p : Pairing) : Terminator → Terminator → Prop where
  | ret : Terms p .ret .ret
  | jump (target : Nat) : Terms p (.jump target) (.jump target)
  | branch (op : BranchOp) {lhs lhs' rhs rhs' : Reg} (thenBlock elseBlock : Nat) :
      p.Twins lhs lhs' → p.Twins rhs rhs' →
      Terms p (.branch op lhs rhs thenBlock elseBlock) (.branch op lhs' rhs' thenBlock elseBlock)

/-- Blocks of the same code on twins. -/
structure Blocks (p : Pairing) (block other : Block) : Prop where
  label : block.label = other.label
  instrs : List.Forall₂ p.Instrs block.instrs other.instrs
  term : p.Terms block.term other.term

/-- Functions of the same code on twins. -/
structure Funcs (p : Pairing) (f g : Func) : Prop where
  name : f.name = g.name
  blocks : List.Forall₂ p.Blocks f.blocks g.blocks
  slots : f.slots = g.slots

theorem forall₂_physical {regs : List Reg} (physical : ∀ reg ∈ regs, reg.isPhysical = true) :
    List.Forall₂ p.Twins regs regs := by
  induction regs with
  | nil => exact .nil
  | cons reg rest ih =>
      exact .cons (twins_of_isPhysical (physical reg List.mem_cons_self))
        (ih fun other member => physical other (List.mem_cons_of_mem _ member))

namespace Instrs

variable {instr other : Instr}

variable (instrs : p.Instrs instr other)
include instrs

theorem uses : List.Forall₂ p.Twins instr.uses other.uses := by
  cases instrs with
  | li imm dest => exact .nil
  | la symbol dest => exact .nil
  | load dest addr =>
      cases addr with
      | based offset base => exact .cons base .nil
      | slot slot => exact .cons (.physical .sp) .nil
  | store src addr =>
      cases addr with
      | based offset base => exact .cons src (.cons base .nil)
      | slot slot => exact .cons src (.cons (.physical .sp) .nil)
  | move dest src => exact .cons src .nil
  | alu op dest lhs rhs => exact .cons lhs (.cons rhs .nil)
  | aluImm op imm dest lhs => exact .cons lhs .nil
  | cmpZero op dest src => exact .cons src .nil
  | call callee argc =>
      refine forall₂_physical fun reg member => ?_
      obtain ⟨i, _, rfl⟩ := List.mem_map.mp member
      rfl
  | spGrow => exact .cons (.physical .sp) .nil
  | spRecover => exact .cons (.physical .sp) .nil

theorem defs : List.Forall₂ p.Twins instr.defs other.defs := by
  cases instrs with
  | li imm dest => exact .cons dest .nil
  | la symbol dest => exact .cons dest .nil
  | load dest addr => exact .cons dest .nil
  | store src addr => exact .nil
  | move dest src => exact .cons dest .nil
  | alu op dest lhs rhs => exact .cons dest .nil
  | aluImm op imm dest lhs => exact .cons dest .nil
  | cmpZero op dest src => exact .cons dest .nil
  | call callee argc =>
      refine forall₂_physical fun reg member => ?_
      obtain ⟨phys, _, rfl⟩ := List.mem_map.mp member
      rfl
  | spGrow => exact .cons (.physical .sp) .nil
  | spRecover => exact .cons (.physical .sp) .nil

theorem operandUses :
    List.Forall₂ p.Twins instr.operandUses other.operandUses := by
  cases instrs with
  | li imm dest => exact .nil
  | la symbol dest => exact .nil
  | load dest addr =>
      cases addr with
      | based offset base => exact .cons base .nil
      | slot slot => exact .nil
  | store src addr =>
      cases addr with
      | based offset base => exact .cons src (.cons base .nil)
      | slot slot => exact .cons src .nil
  | move dest src => exact .cons src .nil
  | alu op dest lhs rhs => exact .cons lhs (.cons rhs .nil)
  | aluImm op imm dest lhs => exact .cons lhs .nil
  | cmpZero op dest src => exact .cons src .nil
  | call callee argc => exact .nil
  | spGrow => exact .nil
  | spRecover => exact .nil

theorem operandDef? :
    Option.Rel p.Twins instr.operandDef? other.operandDef? := by
  cases instrs with
  | li imm dest => exact .some dest
  | la symbol dest => exact .some dest
  | load dest addr => exact .some dest
  | store src addr => exact .none
  | move dest src => exact .some dest
  | alu op dest lhs rhs => exact .some dest
  | aluImm op imm dest lhs => exact .some dest
  | cmpZero op dest src => exact .some dest
  | call callee argc => exact .none
  | spGrow => exact .none
  | spRecover => exact .none

theorem isMove_eq : instr.isMove = other.isMove := by
  cases instrs <;> rfl

theorem arity_eq : instr.arity = other.arity := by
  cases instrs <;> rfl

/-- Replacing operands by twins gives the same instruction on twins. -/
theorem mapOperands {q : Pairing} {use use' definition definition' : Reg → Reg}
    (uses : ∀ {a a' : Reg}, p.Twins a a' → q.Twins (use a) (use' a'))
    (definitions : ∀ {a a' : Reg}, p.Twins a a' → q.Twins (definition a) (definition' a')) :
    q.Instrs (instr.mapOperands use definition) (other.mapOperands use' definition') := by
  have address {addr addr' : Address} (addresses : p.Addresses addr addr') :
      q.Addresses (addr.mapRegs use) (addr'.mapRegs use') := by
    cases addresses with
    | based offset base => exact .based offset (uses base)
    | slot slot => exact .slot slot
  cases instrs with
  | li imm dest => exact .li imm (definitions dest)
  | la symbol dest => exact .la symbol (definitions dest)
  | load dest addr => exact .load (definitions dest) (address addr)
  | store src addr => exact .store (uses src) (address addr)
  | move dest src => exact .move (definitions dest) (uses src)
  | alu op dest lhs rhs => exact .alu op (definitions dest) (uses lhs) (uses rhs)
  | aluImm op imm dest lhs => exact .aluImm op imm (definitions dest) (uses lhs)
  | cmpZero op dest src => exact .cmpZero op (definitions dest) (uses src)
  | call callee argc => exact .call callee argc
  | spGrow => exact .spGrow
  | spRecover => exact .spRecover

end Instrs

namespace Terms

variable {term other : Terminator}

variable (terms : p.Terms term other)
include terms

theorem targets_eq : term.targets = other.targets := by
  cases terms <;> rfl

theorem uses : List.Forall₂ p.Twins term.uses other.uses := by
  cases terms with
  | ret => exact .cons (.physical .ra) (.cons (.physical _) .nil)
  | jump target => exact .nil
  | branch op thenBlock elseBlock lhs rhs => exact .cons lhs (.cons rhs .nil)

theorem operandUses :
    List.Forall₂ p.Twins term.operandUses other.operandUses := by
  cases terms with
  | ret => exact .nil
  | jump target => exact .nil
  | branch op thenBlock elseBlock lhs rhs => exact .cons lhs (.cons rhs .nil)

theorem mapRegs {q : Pairing} {change change' : Reg → Reg}
    (changes : ∀ {a a' : Reg}, p.Twins a a' → q.Twins (change a) (change' a')) :
    q.Terms (term.mapRegs change) (other.mapRegs change') := by
  cases terms with
  | ret => exact .ret
  | jump target => exact .jump target
  | branch op thenBlock elseBlock lhs rhs =>
      exact .branch op thenBlock elseBlock (changes lhs) (changes rhs)

end Terms

variable {block other : Block}

theorem Blocks.mapRegs {q : Pairing} {change change' : Reg → Reg} (blocks : p.Blocks block other)
    (changes : ∀ {a a' : Reg}, p.Twins a a' → q.Twins (change a) (change' a')) :
    q.Blocks (block.mapRegs change) (other.mapRegs change') where
  label := blocks.label
  instrs := List.rel_map (fun _ _ instrs => instrs.mapOperands changes changes) blocks.instrs
  term := blocks.term.mapRegs changes

theorem Blocks.regs (blocks : p.Blocks block other) :
    List.Forall₂ p.Twins block.regs other.regs :=
  List.rel_append
    (List.rel_flatMap blocks.instrs fun _ _ instrs => List.rel_append instrs.uses instrs.defs)
    blocks.term.uses

section Symmetry

theorem Addresses.symm {addr addr' : Address} (addresses : p.Addresses addr addr') :
    p.symm.Addresses addr' addr := by
  cases addresses with
  | based offset base => exact .based offset base.symm
  | slot slot => exact .slot slot

theorem Instrs.symm {instr other : Instr} (instrs : p.Instrs instr other) :
    p.symm.Instrs other instr := by
  cases instrs with
  | li imm dest => exact .li imm dest.symm
  | la symbol dest => exact .la symbol dest.symm
  | load dest addr => exact .load dest.symm addr.symm
  | store src addr => exact .store src.symm addr.symm
  | move dest src => exact .move dest.symm src.symm
  | alu op dest lhs rhs => exact .alu op dest.symm lhs.symm rhs.symm
  | aluImm op imm dest lhs => exact .aluImm op imm dest.symm lhs.symm
  | cmpZero op dest src => exact .cmpZero op dest.symm src.symm
  | call callee argc => exact .call callee argc
  | spGrow => exact .spGrow
  | spRecover => exact .spRecover

theorem Terms.symm {term other : Terminator} (terms : p.Terms term other) :
    p.symm.Terms other term := by
  cases terms with
  | ret => exact .ret
  | jump target => exact .jump target
  | branch op thenBlock elseBlock lhs rhs =>
      exact .branch op thenBlock elseBlock lhs.symm rhs.symm

theorem Blocks.symm {block other : Block} (blocks : p.Blocks block other) :
    p.symm.Blocks other block where
  label := blocks.label.symm
  instrs := (blocks.instrs.imp fun _ _ instrs => instrs.symm).flip
  term := blocks.term.symm

theorem Funcs.symm {f g : Func} (funcs : p.Funcs f g) : p.symm.Funcs g f where
  name := funcs.name.symm
  blocks := (funcs.blocks.imp fun _ _ blocks => blocks.symm).flip
  slots := funcs.slots.symm

end Symmetry

namespace Sets

variable {live other : RegSet} {regs others : List Reg}

theorem addTracked (sets : p.Sets live other) (paired : List.Forall₂ p.Twins regs others) :
    p.Sets (RegSet.addTracked live regs) (RegSet.addTracked other others) where
  mem_iff twins := by
    rw [RegSet.mem_addTracked, RegSet.mem_addTracked, mem_iff_of_forall₂ paired twins, twins.isTracked_eq,
      sets.mem_iff twins]
  left a member := by
    rcases RegSet.mem_addTracked.mp member with ⟨added, _⟩ | member
    · exact (exists_of_forall₂_left paired added).imp fun _ => And.right
    · exact sets.left a member
  right a' member := by
    rcases RegSet.mem_addTracked.mp member with ⟨added, _⟩ | member
    · exact (exists_of_forall₂_right paired added).imp fun _ => And.right
    · exact sets.right a' member

theorem removeAll (sets : p.Sets live other) (paired : List.Forall₂ p.Twins regs others) :
    p.Sets (RegSet.removeAll live regs) (RegSet.removeAll other others) where
  mem_iff twins := by
    rw [RegSet.mem_removeAll, RegSet.mem_removeAll, sets.mem_iff twins, mem_iff_of_forall₂ paired twins]
  left a member := sets.left a (RegSet.mem_removeAll.mp member).1
  right a' member := sets.right a' (RegSet.mem_removeAll.mp member).1

theorem liveBefore {instr otherInstr : Instr} (sets : p.Sets live other)
    (instrs : p.Instrs instr otherInstr) : p.Sets (instr.liveBefore live) (otherInstr.liveBefore other) :=
  (sets.removeAll instrs.defs).addTracked instrs.uses

end Sets

namespace Blocks

variable {block other : Block}

theorem exposed (blocks : p.Blocks block other) : p.Sets block.exposed other.exposed :=
  List.rel_foldr (R := p.Instrs) (P := p.Sets) (fun _ _ instrs _ _ sets => sets.liveBefore instrs)
    (Sets.empty.addTracked blocks.term.uses) blocks.instrs

theorem defines_eq (blocks : p.Blocks block other) (twins : p.Twins a a') :
    block.defines a = other.defines a' := by
  unfold Block.defines
  have instrs := blocks.instrs
  generalize block.instrs = code at instrs
  generalize other.instrs = otherCode at instrs
  induction instrs with
  | nil => rfl
  | @cons instr otherInstr _ _ first _ ih =>
      have same : instr.defs.contains a = otherInstr.defs.contains a' := by
        rw [Bool.eq_iff_iff, List.contains_iff_mem, List.contains_iff_mem,
          mem_iff_of_forall₂ first.defs twins]
      rw [List.any_cons, List.any_cons, ih, same]

end Blocks

/-- What is live where, in twins. -/
structure Livenesses (p : Pairing) {n n' : Nat} (liveness : Liveness n) (other : Liveness n') :
    Prop where
  liveIn : ∀ (block : Fin n) (block' : Fin n'), block.val = block'.val →
    p.Sets (liveness.liveIn.get block) (other.liveIn.get block')
  liveOut : ∀ (block : Fin n) (block' : Fin n'), block.val = block'.val →
    p.Sets (liveness.liveOut.get block) (other.liveOut.get block')
  moves : List.Forall₂ p.Sites liveness.moves other.moves

namespace Funcs

variable {f g : Func}

variable (funcs : p.Funcs f g)
include funcs

theorem regSet : p.Sets f.regSet g.regSet :=
  .ofList (List.rel_flatMap funcs.blocks fun _ _ blocks => blocks.regs)

theorem length_eq : f.blocks.length = g.blocks.length :=
  funcs.blocks.length_eq

variable {block : Fin f.blocks.length} {block' : Fin g.blocks.length}

theorem get
    (same : block.val = block'.val) : p.Blocks (f.blocks.get block) (g.blocks.get block') := by
  obtain ⟨i, inside⟩ := block
  obtain ⟨j, otherInside⟩ := block'
  cases (same : i = j)
  exact funcs.blocks.get inside otherInside

theorem mem_targets {target : Fin f.blocks.length} {target' : Fin g.blocks.length}
    (same : block.val = block'.val)
    (sameTarget : target.val = target'.val) (isTarget : target ∈ f.flow.targets block) :
    target' ∈ g.flow.targets block' := by
  rw [FlowGraph.mem_targets] at isTarget ⊢
  show target'.val ∈ (g.blocks.get block').term.targets
  rw [← sameTarget, ← (funcs.get same).term.targets_eq]
  exact isTarget

theorem mem_liveIn (same : block.val = block'.val) (twins : p.Twins a a')
    (live : a ∈ f.liveSets.liveIn.get block) : a' ∈ g.liveSets.liveIn.get block' := by
  obtain ⟨⟨mentioned, tracked⟩, isLive⟩ := Func.mem_liveIn.mp live
  refine Func.mem_liveIn.mpr
    ⟨⟨(funcs.regSet.mem_iff twins).mp mentioned, twins.isTracked_eq ▸ tracked⟩, ?_⟩
  unfold Func.liveBlocks at isLive ⊢
  obtain ⟨root, isRoot, reaches⟩ := Search.mem_breadthFirst_iff.mp isLive
  have isTwin : Fin.cast funcs.length_eq block = block' := Fin.ext same
  rw [← isTwin]
  refine Search.mem_breadthFirst_iff.mpr ⟨root.cast funcs.length_eq, ?_, ?_⟩
  · rw [List.mem_filter, Func.exposedTable, Table.get_tabulate, Std.TreeSet.contains_iff_mem]
      at isRoot ⊢
    exact ⟨List.mem_finRange _, ((funcs.get rfl).exposed.mem_iff twins).mp isRoot.2⟩
  · refine Relation.ReflTransGen.lift (Fin.cast funcs.length_eq) (fun before after step => ?_)
      root block reaches
    show Fin.cast funcs.length_eq after ∈ _
    rw [List.mem_filter, Edges.mem_preds_ofSuccs, Edges.mem_succs_ofSuccs] at step ⊢
    refine ⟨funcs.mem_targets rfl rfl step.1, ?_⟩
    rw [← (funcs.get rfl).defines_eq twins]
    exact step.2

theorem liveIn (block : Fin f.blocks.length) (block' : Fin g.blocks.length)
    (same : block.val = block'.val) :
    p.Sets (f.liveSets.liveIn.get block) (g.liveSets.liveIn.get block') where
  mem_iff twins := ⟨funcs.mem_liveIn same twins, funcs.symm.mem_liveIn same.symm twins.symm⟩
  left a live := funcs.regSet.left a (Func.mem_liveIn.mp live).1.1
  right a' live := funcs.regSet.right a' (Func.mem_liveIn.mp live).1.1

theorem mem_liveOut (same : block.val = block'.val) (twins : p.Twins a a')
    (live : a ∈ f.liveSets.liveOut.get block) : a' ∈ g.liveSets.liveOut.get block' := by
  obtain ⟨succ, isSucc, isLive⟩ := Func.mem_liveOut.mp live
  refine Func.mem_liveOut.mpr ⟨succ.cast funcs.length_eq, ?_, funcs.mem_liveIn rfl twins isLive⟩
  rw [Edges.mem_succs_ofSuccs] at isSucc ⊢
  exact funcs.mem_targets same rfl isSucc

theorem liveOut (block : Fin f.blocks.length) (block' : Fin g.blocks.length)
    (same : block.val = block'.val) :
    p.Sets (f.liveSets.liveOut.get block) (g.liveSets.liveOut.get block') where
  mem_iff twins := ⟨funcs.mem_liveOut same twins, funcs.symm.mem_liveOut same.symm twins.symm⟩
  left a live := by
    obtain ⟨succ, _, isLive⟩ := Func.mem_liveOut.mp live
    exact funcs.regSet.left a (Func.mem_liveIn.mp isLive).1.1
  right a' live := by
    obtain ⟨succ, _, isLive⟩ := Func.mem_liveOut.mp live
    exact funcs.regSet.right a' (Func.mem_liveIn.mp isLive).1.1

omit funcs in
theorem forall₂_mapIdx {α β γ δ : Type} {related : α → β → Prop} {made : γ → δ → Prop}
    {list : List α} {other : List β} {make : Nat → α → γ} {otherMake : Nat → β → δ}
    (paired : List.Forall₂ related list other)
    (makes : ∀ (i : Nat) {a : α} {b : β}, related a b → made (make i a) (otherMake i b)) :
    List.Forall₂ made (list.mapIdx make) (other.mapIdx otherMake) := by
  induction paired generalizing make otherMake with
  | nil => exact .nil
  | cons first _ ih =>
      rw [List.mapIdx_cons, List.mapIdx_cons]
      exact .cons (makes 0 first) (ih fun i _ _ both => makes (i + 1) both)

theorem moves :
    List.Forall₂ p.Sites f.liveSets.moves g.liveSets.moves := by
  refine List.rel_flatten (forall₂_mapIdx funcs.blocks fun index block other blocks => ?_)
  refine List.rel_flatten (forall₂_mapIdx blocks.instrs fun position instr otherInstr instrs => ?_)
  cases instrs with
  | move dest src =>
      dsimp only
      rw [dest.isTracked_eq, src.isTracked_eq]
      split
      · exact .cons ⟨rfl, rfl, dest, src⟩ .nil
      · exact .nil
  | _ => exact .nil

theorem livenesses : p.Livenesses f.liveSets g.liveSets :=
  ⟨funcs.liveIn, funcs.liveOut, funcs.moves⟩

omit funcs in
theorem forM_congr {α β : Type} {related : α → β → Prop} {check : α → Except Fault Unit}
    {otherCheck : β → Except Fault Unit} (same : ∀ {a b}, related a b → check a = otherCheck b)
    {list : List α} {other : List β} (paired : List.Forall₂ related list other) :
    list.forM check = other.forM otherCheck := by
  induction paired with
  | nil => rfl
  | @cons a b rest otherRest first _ ih =>
      show (do check a; rest.forM check) = (do otherCheck b; otherRest.forM otherCheck)
      rw [ih, same first]

theorem arity_eq : f.arity = g.arity :=
  forM_congr (fun blocks => forM_congr (fun instrs => instrs.arity_eq) blocks.instrs) funcs.blocks

omit funcs in
theorem fault?_congr {n n' : Nat} {graph : FlowGraph n} {other : FlowGraph n'} (sameSize : n = n')
    (same : ∀ (block : Fin n) (block' : Fin n'), block.val = block'.val →
      graph.succs block = other.succs block') : Edges.fault? graph = Edges.fault? other := by
  cases sameSize
  have equal : graph.succs = other.succs := funext fun block => same block block rfl
  cases graph
  cases other
  cases equal
  rfl

/-- Twins have live sets both, or neither of them for the same reason. -/
theorem liveness_cases :
    (f.liveness = .ok f.liveSets ∧ g.liveness = .ok g.liveSets) ∨
      ∃ fault, f.liveness = .error fault ∧ g.liveness = .error fault := by
  have sameFault : Edges.fault? f.flow = Edges.fault? g.flow :=
    fault?_congr funcs.length_eq fun _ _ same => (funcs.get same).term.targets_eq
  unfold Func.liveness
  cases found : Edges.fault? g.flow with
  | some fault =>
      rw [Edges.build_eq_error_iff.mpr (sameFault.trans found), Edges.build_eq_error_iff.mpr found]
      exact .inr ⟨fault, rfl, rfl⟩
  | none =>
      rw [Edges.build_of_fault?_eq_none (sameFault.trans found), Edges.build_of_fault?_eq_none found,
        funcs.arity_eq]
      cases g.arity with
      | error fault => exact .inr ⟨fault, rfl, rfl⟩
      | ok done => exact .inl ⟨rfl, rfl⟩

end Funcs

theorem Graphs.joinAll {graph other : InterferenceGraph} {defs otherDefs : List Reg}
    {live otherLive : RegSet} (graphs : p.Graphs graph other)
    (paired : List.Forall₂ p.Twins defs otherDefs) (sets : p.Sets live otherLive) :
    p.Graphs (graph.joinAll defs live) (other.joinAll otherDefs otherLive) := by
  refine foldl_twins (fun {graph other d d'} graphs twins => ?_) paired graphs
  rw [Std.TreeSet.foldl_eq_foldl_toList, Std.TreeSet.foldl_eq_foldl_toList]
  exact foldl_twins (fun graphs other => graphs.addEdge twins other) sets.toList graphs

/-- Graphs under construction, with what is live at that point, in twins. -/
def Fronts (p : Pairing) (below other : InterferenceGraph × RegSet) : Prop :=
  p.Graphs below.1 other.1 ∧ p.Sets below.2 other.2

theorem Instrs.interfere {instr other : Instr} {below otherBelow : InterferenceGraph × RegSet}
    (instrs : p.Instrs instr other) (fronts : p.Fronts below otherBelow) :
    p.Fronts (instr.interfere below) (other.interfere otherBelow) := by
  obtain ⟨graphs, sets⟩ := fronts
  have defs := filter_twins (fun twins => twins.isTracked_eq) instrs.defs
  have uses := filter_twins (fun twins => twins.isTracked_eq) instrs.uses
  have kept : p.Sets
      (if instr.isMove then RegSet.removeAll below.2 (instr.uses.filter Reg.isTracked) else below.2)
      (if other.isMove then RegSet.removeAll otherBelow.2 (other.uses.filter Reg.isTracked)
        else otherBelow.2) := by
    rw [instrs.isMove_eq]
    split
    · exact sets.removeAll uses
    · exact sets
  have after := kept.addTracked defs
  exact ⟨graphs.joinAll defs after, (after.removeAll defs).addTracked uses⟩

theorem Blocks.interfere {live otherLive : RegSet} {graph otherGraph : InterferenceGraph}
    (blocks : p.Blocks block other)
    (sets : p.Sets live otherLive) (graphs : p.Graphs graph otherGraph) :
    p.Graphs (block.interfere live graph) (other.interfere otherLive otherGraph) := by
  have ends : p.Fronts (graph, RegSet.addTracked live block.term.uses)
      (otherGraph, RegSet.addTracked otherLive other.term.uses) :=
    ⟨graphs, sets.addTracked blocks.term.uses⟩
  exact (List.rel_foldr (R := p.Instrs) (P := p.Fronts)
    (fun _ _ instrs _ _ fronts => instrs.interfere fronts) ends blocks.instrs).1

theorem forall₂_finRange {n n' : Nat} (same : n = n') :
    List.Forall₂ (fun (i : Fin n) (j : Fin n') => i.val = j.val) (List.finRange n)
      (List.finRange n') := by
  cases same
  exact List.forall₂_same.mpr fun _ _ => rfl

theorem Funcs.interference {f g : Func} {liveness : Liveness f.blocks.length}
    {otherLiveness : Liveness g.blocks.length} (funcs : p.Funcs f g)
    (livenesses : p.Livenesses liveness otherLiveness) :
    p.Graphs (f.interference liveness) (g.interference otherLiveness) := by
  refine List.rel_foldl (P := p.Graphs) (fun _ _ graphs block block' same => ?_) ?_
    (forall₂_finRange funcs.length_eq)
  · exact (funcs.get same).interfere (livenesses.liveOut block block' same) graphs
  · exact foldl_twins (fun graphs twins => graphs.addNode twins)
      (filter_twins (fun twins => twins.isTracked_eq) funcs.regSet.toList) Graphs.empty

end Pairing

end Lowering.Machine
