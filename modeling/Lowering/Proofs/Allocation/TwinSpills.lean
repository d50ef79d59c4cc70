import Lowering.Allocation.Spill
import Lowering.Proofs.Allocation.Spilling
import Lowering.Proofs.Allocation.TwinCode
import Mathlib

/-!
# Spill code on twins

Fresh registers are numbered from counters that are paired from some number on.  So spilling twins
gives the same code on twins again, unless one of the counters runs out before the other one does.
-/

namespace Lowering.Machine

/-- Computations with related results or the same fault.  The first one may also stop on its own if
something was lowered, and the second one if something was raised. -/
inductive Alike (raised lowered : Prop) {α β : Type} (related : α → β → Prop) :
    Except Fault α → Except Fault β → Prop where
  | ok {a : α} {b : β} : related a b → Alike raised lowered related (.ok a) (.ok b)
  | error (fault : Fault) : Alike raised lowered related (.error fault) (.error fault)
  | left (other : Except Fault β) : lowered → Alike raised lowered related (.error .addOverflow) other
  | right (first : Except Fault α) : raised → Alike raised lowered related first (.error .addOverflow)

namespace Alike

variable {raised lowered : Prop} {α β γ δ : Type} {related : α → β → Prop} {made : γ → δ → Prop}

theorem bind {first : Except Fault α} {second : Except Fault β} {next : α → Except Fault γ}
    {otherNext : β → Except Fault δ} (alike : Alike raised lowered related first second)
    (nexts : ∀ a b, related a b → Alike raised lowered made (next a) (otherNext b)) :
    Alike raised lowered made (first >>= next) (second >>= otherNext) := by
  cases alike with
  | ok both => exact nexts _ _ both
  | error fault => exact .error fault
  | left other isLowered => exact .left _ isLowered
  | right first isRaised => exact .right _ isRaised

/-- What is computed in the same way on both sides is alike. -/
theorem refl (computed : Except Fault α) : Alike raised lowered Eq computed computed := by
  cases computed with
  | ok result => exact .ok rfl
  | error fault => exact .error fault

theorem imp {first : Except Fault α} {second : Except Fault β} {raised' lowered' : Prop}
    {related' : α → β → Prop} (alike : Alike raised lowered related first second)
    (raises : raised → raised') (lowers : lowered → lowered')
    (weaker : ∀ a b, related a b → related' a b) : Alike raised' lowered' related' first second := by
  cases alike with
  | ok both => exact .ok (weaker _ _ both)
  | error fault => exact .error fault
  | left other isLowered => exact .left _ (lowers isLowered)
  | right first isRaised => exact .right _ (raises isRaised)

end Alike

namespace Pairing

variable {p : Pairing} {a b a' b' : Reg} {next next' : Nat} {temps others : List (Nat × Nat)}

/-- Some number has a higher counterpart. -/
def Raises (p : Pairing) : Prop := ∃ a b, p.pairs a b ∧ a < b

/-- Some number has a lower counterpart. -/
def Lowers (p : Pairing) : Prop := ∃ a b, p.pairs a b ∧ b < a

/-- Counters that hand out twins from now on. -/
def Counters (p : Pairing) (next next' : Nat) : Prop := ∀ i, p.pairs (next + i) (next' + i)

theorem Counters.twins (counters : p.Counters next next') :
    p.Twins (.virtual next) (.virtual next') := .virtual (counters 0)

/-- Counting on keeps counters together, unless the one that is ahead runs out. -/
theorem Counters.succ (counters : p.Counters next next') :
    Alike p.Raises p.Lowers p.Counters (Width.w32.add next 1) (Width.w32.add next' 1) := by
  unfold Width.add
  split <;> split
  · refine .ok fun i => ?_
    rw [Nat.add_assoc, Nat.add_assoc]
    exact counters (1 + i)
  · exact .right _ ⟨next, next', counters 0, by omega⟩
  · exact .left _ ⟨next, next', counters 0, by omega⟩
  · exact .error _

/-- Slots with the twins handed out for them. -/
inductive Temps (p : Pairing) : Nat × Nat → Nat × Nat → Prop where
  | pair (slot : Nat) {number other : Nat} : p.pairs number other →
      Temps p (slot, number) (slot, other)

theorem Temps.slot_eq {temp other : Nat × Nat} (temps : p.Temps temp other) : temp.1 = other.1 := by
  cases temps
  rfl

theorem assignTemps (counters : p.Counters next next') (slots : List Nat) :
    Alike p.Raises p.Lowers (fun handed other => (List.Forall₂ p.Temps handed.1 other.1 ∧
        handed.1.map Prod.fst = slots) ∧ p.Counters handed.2 other.2)
      (assignTemps next slots) (assignTemps next' slots) := by
  induction slots generalizing next next' with
  | nil => exact .ok ⟨⟨.nil, rfl⟩, counters⟩
  | cons slot rest ih =>
      refine Alike.bind counters.succ fun after after' later => ?_
      refine Alike.bind (ih later) ?_
      rintro ⟨temps, last⟩ ⟨others, otherLast⟩ ⟨⟨paired, areSlots⟩, lasts⟩
      exact .ok ⟨⟨.cons (.pair slot (counters 0)) paired, by simpa using areSlots⟩, lasts⟩

theorem map_fst_eq (paired : List.Forall₂ p.Temps temps others) :
    temps.map Prod.fst = others.map Prod.fst := by
  induction paired with
  | nil => rfl
  | cons first _ ih =>
      rw [List.map_cons, List.map_cons, first.slot_eq, ih]

theorem sortTemps (paired : List.Forall₂ p.Temps temps others)
    (distinct : (temps.map Prod.fst).Nodup) :
    List.Forall₂ p.Temps (sortTemps temps) (sortTemps others) := by
  have otherDistinct : (others.map Prod.fst).Nodup := map_fst_eq paired ▸ distinct
  refine forall₂_of_ordered (fun first second => byNumber first.1 second.1 = .lt)
    (fun first second => byNumber first.1 second.1 = .lt) ?_ ?_ ?_
    Std.TreeMap.ordered_keys_toList Std.TreeMap.ordered_keys_toList ?_ ?_
  · intro first second less more
    rw [Std.OrientedCmp.gt_of_lt less] at more
    cases more
  · intro pair less
    rw [byNumber_eq_iff.mpr rfl] at less
    cases less
  · intro _ _ _ _ first second
    rw [first.slot_eq, second.slot_eq]
  · intro temp member
    obtain ⟨other, isOther, both⟩ := exists_of_forall₂_left paired ((mem_sortTemps distinct).mp member)
    exact ⟨other, (mem_sortTemps otherDistinct).mpr isOther, both⟩
  · intro other member
    obtain ⟨temp, isTemp, both⟩ := exists_of_forall₂_right paired ((mem_sortTemps otherDistinct).mp member)
    exact ⟨temp, (mem_sortTemps distinct).mpr isTemp, both⟩

theorem lookup (paired : List.Forall₂ p.Temps temps others)
    (slot : Nat) : Option.Rel p.pairs (temps.lookup slot) (others.lookup slot) := by
  induction paired with
  | nil => exact .none
  | cons first _ ih =>
      cases first with
      | pair key known =>
          rw [List.lookup_cons, List.lookup_cons]
          split
          · exact .some known
          · exact ih

theorem replaceSpilled (paired : List.Forall₂ p.Temps temps others) (twins : p.Twins a a') :
    p.Twins (replaceSpilled temps a) (replaceSpilled others a') := by
  cases twins with
  | virtual known => exact .virtual known
  | physical reg => exact .physical reg
  | spilled slot =>
      have found := lookup paired slot
      rw [Machine.replaceSpilled, Machine.replaceSpilled]
      generalize temps.lookup slot = temp at found
      generalize others.lookup slot = other at found
      cases found with
      | none => exact .spilled slot
      | some known => exact .virtual known

theorem loadsOf (paired : List.Forall₂ p.Temps temps others) :
    List.Forall₂ p.Instrs (loadsOf temps) (loadsOf others) :=
  List.rel_map (fun _ _ both => by
    cases both with
    | pair slot known => exact .load (.virtual known) (.slot slot)) paired

theorem tempRegs (paired : List.Forall₂ p.Temps temps others) :
    List.Forall₂ p.Twins (tempRegs temps) (tempRegs others) :=
  List.rel_map (fun _ _ both => by
    cases both with
    | pair slot known => exact .virtual known) paired

theorem spilledSlots_eq {regs others : List Reg} (paired : List.Forall₂ p.Twins regs others) :
    spilledSlots regs = spilledSlots others := by
  have same : regs.filterMap Reg.slot? = others.filterMap Reg.slot? := by
    induction paired with
    | nil => rfl
    | cons first _ ih =>
        rw [List.filterMap_cons, List.filterMap_cons, first.slot?_eq, ih]
  unfold spilledSlots
  rw [same]

/-- Spill code on twins, with counters that stay together. -/
structure Codes (p : Pairing) (code other : SpillCode) : Prop where
  instrs : List.Forall₂ p.Instrs code.instrs other.instrs
  fresh : List.Forall₂ p.Twins code.fresh other.fresh
  next : p.Counters code.next other.next

theorem Instrs.spillPlain {instr other : Instr} (instrs : p.Instrs instr other)
    (counters : p.Counters next next') :
    Alike p.Raises p.Lowers p.Codes (instr.spillPlain next) (other.spillPlain next') := by
  unfold Instr.spillPlain
  have sameDef : (instr.operandDef?.bind Reg.slot?).toList =
      (other.operandDef?.bind Reg.slot?).toList := by
    have defs := instrs.operandDef?
    generalize instr.operandDef? = definition at defs
    generalize other.operandDef? = otherDefinition at defs
    cases defs with
    | none => rfl
    | some twins => exact congrArg Option.toList twins.slot?_eq
  rw [spilledSlots_eq instrs.operandUses, sameDef]
  refine Alike.bind (assignTemps counters _) ?_
  rintro ⟨loaded, next⟩ ⟨otherLoaded, next'⟩ ⟨⟨loads, areSlots⟩, counters⟩
  refine Alike.bind (assignTemps counters _) ?_
  rintro ⟨stored, next⟩ ⟨otherStored, next'⟩ ⟨⟨stores, _⟩, counters⟩
  have distinct : (loaded.map Prod.fst).Nodup := areSlots ▸ nodup_eraseDups _
  have sorted := sortTemps loads distinct
  refine .ok ⟨?_, List.rel_append (tempRegs stores) (tempRegs sorted), counters⟩
  refine List.rel_append (loadsOf sorted) (.cons ?_ ?_)
  · exact instrs.mapOperands (replaceSpilled loads) (replaceSpilled stores)
  · exact List.rel_map (fun _ _ both => by
      cases both with
      | pair slot known => exact .store (.virtual known) (.slot slot)) stores

theorem Instrs.spill {instr other : Instr} (instrs : p.Instrs instr other)
    (counters : p.Counters next next') :
    Alike p.Raises p.Lowers p.Codes (instr.spill next) (other.spill next') := by
  have plain := instrs.spillPlain counters
  cases instrs with
  | move dest src =>
      cases dest with
      | spilled slot =>
          cases src with
          | spilled source =>
              rw [Instr.spill, Instr.spill]
              by_cases same : slot = source
              · rw [if_pos same, if_pos same]
                exact .ok ⟨.nil, .nil, counters⟩
              · rw [if_neg same, if_neg same]
                refine Alike.bind counters.succ fun after after' later => ?_
                exact .ok ⟨.cons (.load counters.twins (.slot _))
                  (.cons (.store counters.twins (.slot _)) .nil), .cons counters.twins .nil, later⟩
          | virtual known =>
              exact .ok ⟨.cons (.store (.virtual known) (.slot _)) .nil, .nil, counters⟩
          | physical reg =>
              exact .ok ⟨.cons (.store (.physical reg) (.slot _)) .nil, .nil, counters⟩
      | virtual known =>
          cases src with
          | spilled source =>
              exact .ok ⟨.cons (.load (.virtual known) (.slot _)) .nil, .nil, counters⟩
          | virtual other =>
              exact .ok ⟨.cons (.move (.virtual known) (.virtual other)) .nil, .nil, counters⟩
          | physical reg =>
              exact .ok ⟨.cons (.move (.virtual known) (.physical reg)) .nil, .nil, counters⟩
      | physical reg =>
          cases src with
          | spilled source =>
              exact .ok ⟨.cons (.load (.physical reg) (.slot _)) .nil, .nil, counters⟩
          | virtual other =>
              exact .ok ⟨.cons (.move (.physical reg) (.virtual other)) .nil, .nil, counters⟩
          | physical other =>
              exact .ok ⟨.cons (.move (.physical reg) (.physical other)) .nil, .nil, counters⟩
  | _ => exact plain

theorem spillInstrs {instrs others : List Instr} (paired : List.Forall₂ p.Instrs instrs others)
    (counters : p.Counters next next') :
    Alike p.Raises p.Lowers p.Codes (spillInstrs next instrs) (spillInstrs next' others) := by
  induction paired generalizing next next' with
  | nil => exact .ok ⟨.nil, .nil, counters⟩
  | cons first _ ih =>
      refine Alike.bind (first.spill counters) fun code other codes => ?_
      refine Alike.bind (ih codes.next) fun later otherLater laters => ?_
      exact .ok ⟨List.rel_append codes.instrs laters.instrs,
        List.rel_append codes.fresh laters.fresh, laters.next⟩

theorem Blocks.spill {block other : Block} (blocks : p.Blocks block other)
    (counters : p.Counters next next') :
    Alike p.Raises p.Lowers (fun relieved otherRelieved => p.Blocks relieved.1 otherRelieved.1 ∧
        p.Counters relieved.2.2 otherRelieved.2.2) (block.spill next) (other.spill next') := by
  unfold Block.spill
  rw [spilledSlots_eq blocks.term.operandUses]
  refine Alike.bind (spillInstrs blocks.instrs counters) fun code otherCode codes => ?_
  refine Alike.bind (assignTemps codes.next _) ?_
  rintro ⟨loaded, next⟩ ⟨otherLoaded, next'⟩ ⟨⟨loads, areSlots⟩, counters⟩
  have distinct : (loaded.map Prod.fst).Nodup := areSlots ▸ nodup_eraseDups _
  exact .ok ⟨⟨blocks.label,
    List.rel_append codes.instrs (loadsOf (sortTemps loads distinct)),
    blocks.term.mapRegs (replaceSpilled loads)⟩, counters⟩

theorem spillBlocks {blocks others : List Block} (paired : List.Forall₂ p.Blocks blocks others)
    (counters : p.Counters next next') :
    Alike p.Raises p.Lowers
      (fun relieved otherRelieved => List.Forall₂ p.Blocks relieved.1 otherRelieved.1 ∧
        p.Counters relieved.2.2 otherRelieved.2.2)
      (spillBlocks next blocks) (spillBlocks next' others) := by
  induction paired generalizing next next' with
  | nil => exact .ok ⟨.nil, counters⟩
  | cons first _ ih =>
      refine Alike.bind (first.spill counters) ?_
      rintro ⟨block, fresh, next⟩ ⟨other, otherFresh, next'⟩ ⟨blocks, counters⟩
      refine Alike.bind (ih counters) ?_
      rintro ⟨later, freshLater, next⟩ ⟨otherLater, otherFreshLater, next'⟩ ⟨laters, counters⟩
      exact .ok ⟨.cons blocks laters, counters⟩

theorem markSpilled {slotOf otherSlotOf : RegMap Nat} (slots : p.Maps Eq slotOf otherSlotOf)
    (twins : p.Twins a a') : p.Twins (markSpilled slotOf a) (markSpilled otherSlotOf a') := by
  unfold Machine.markSpilled
  rw [slots.get?_eq twins]
  cases otherSlotOf.get? a' with
  | some slot => exact .spilled slot
  | none => exact twins

namespace Funcs

variable {f g : Func}

theorem result_assignSlots_cons {slotOf : RegMap Nat} {reg : Reg}
    (notPhysical : reg.isPhysical = false) (rest : List Reg) : (f.assignSlots slotOf (reg :: rest)).result =
      f.newSlot >>= fun grown => (grown.1.assignSlots (slotOf.insert reg grown.2) rest).result := by
  rw [Func.assignSlots, Pass.result_bind]
  · simp only [Pass.result_bind, Pass.result_note]
    rfl
  · rintro phys rfl
    cases notPhysical

theorem newSlot (funcs : p.Funcs f g) :
    Alike p.Raises p.Lowers (fun grown otherGrown => (p.Funcs grown.1 otherGrown.1 ∧
        grown.1.nextVirtual = f.nextVirtual ∧ otherGrown.1.nextVirtual = g.nextVirtual) ∧
        grown.2 = otherGrown.2) f.newSlot g.newSlot := by
  unfold Func.newSlot
  rw [funcs.slots]
  refine Alike.bind (.refl (Width.w64.add g.slots 1)) fun slots _ same => ?_
  cases same
  exact .ok ⟨⟨{ funcs with slots := rfl }, rfl, rfl⟩, rfl⟩

theorem assignSlots (funcs : p.Funcs f g) {spilled others : List Reg}
    (paired : List.Forall₂ p.Twins spilled others) {slotOf otherSlotOf : RegMap Nat}
    (slots : p.Maps Eq slotOf otherSlotOf) :
    Alike p.Raises p.Lowers (fun grown otherGrown => (p.Funcs grown.1 otherGrown.1 ∧
        grown.1.nextVirtual = f.nextVirtual ∧ otherGrown.1.nextVirtual = g.nextVirtual) ∧
        p.Maps Eq grown.2 otherGrown.2)
      (f.assignSlots slotOf spilled).result (g.assignSlots otherSlotOf others).result := by
  induction paired generalizing f g slotOf otherSlotOf with
  | nil => exact .ok ⟨⟨funcs, rfl, rfl⟩, slots⟩
  | @cons reg other rest otherRest first _ ih =>
      cases kind : reg.isPhysical with
      | true =>
          cases first with
          | virtual known => cases kind
          | spilled slot => cases kind
          | physical phys =>
              show Alike _ _ _ (.error (.physicalSpill f.name phys.name)) (.error _)
              rw [funcs.name]
              exact .error _
      | false =>
          rw [result_assignSlots_cons kind, result_assignSlots_cons (first.isPhysical_eq ▸ kind)]
          refine Alike.bind funcs.newSlot ?_
          rintro ⟨grown, slot⟩ ⟨otherGrown, otherSlot⟩ ⟨⟨grownFuncs, same, otherSame⟩, sameSlot⟩
          refine (ih grownFuncs (slots.insert first sameSlot)).imp id id ?_
          rintro _ _ ⟨⟨funcs, next, otherNext⟩, slots⟩
          exact ⟨⟨funcs, next.trans same, otherNext.trans otherSame⟩, slots⟩

/-- Spilling twins gives twins, unless a counter runs out. -/
theorem spill (funcs : p.Funcs f g) (counters : p.Counters f.nextVirtual g.nextVirtual)
    {spilled others : List Reg} (paired : List.Forall₂ p.Twins spilled others) :
    Alike p.Raises p.Lowers (fun relieved otherRelieved => p.Funcs relieved.1 otherRelieved.1 ∧
        p.Counters relieved.1.nextVirtual otherRelieved.1.nextVirtual)
      (f.spill spilled).result (g.spill others).result := by
  unfold Func.spill
  rw [Pass.result_bind, Pass.result_bind]
  refine Alike.bind (funcs.assignSlots paired Maps.empty) ?_
  rintro ⟨grown, slotOf⟩ ⟨otherGrown, otherSlotOf⟩ ⟨⟨grownFuncs, same, otherSame⟩, slots⟩
  have marked := List.rel_map (R := p.Blocks) (P := p.Blocks)
    (fun _ _ blocks => blocks.mapRegs fun twins => markSpilled slots twins) grownFuncs.blocks
  rw [← same, ← otherSame] at counters
  have relieved := spillBlocks marked counters
  dsimp only
  rw [Pass.result_bind, Pass.result_bind]
  refine Alike.bind relieved ?_
  rintro ⟨blocks, fresh, next⟩ ⟨otherBlocks, otherFresh, next'⟩ ⟨areBlocks, counters⟩
  exact .ok ⟨{ grownFuncs with blocks := areBlocks }, counters⟩

end Funcs

end Pairing

end Lowering.Machine
