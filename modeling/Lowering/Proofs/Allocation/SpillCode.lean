import Mathlib.Data.List.Nodup
import Mathlib.Order.Nat
import Lowering.Allocation.Spill
import Lowering.Proofs.RelatedLists
import Lowering.Proofs.Repetitions

/-!
# What spill code consists of

A counter hands out the registers of spill code, each once.  Every instruction is relieved on its own,
from where the counter stands: a copy becomes a load, a store or both, and any other instruction stands
between loads and stores of its own.
-/

namespace Lowering

/-- A register that code may refer to: virtual and below a bound, or physical. -/
def Reg.Plain (bound : Nat) : Reg → Prop
  | virtual number => number < bound
  | physical _ => True
  | spilled _ => False

instance (bound : Nat) : (reg : Reg) → Decidable (reg.Plain bound)
  | .virtual number => inferInstanceAs (Decidable (number < bound))
  | .physical _ => isTrue trivial
  | .spilled _ => isFalse id

theorem Reg.Plain.mono {bound larger : Nat} {reg : Reg} (plain : reg.Plain bound)
    (le : bound ≤ larger) : reg.Plain larger := by
  cases reg with
  | virtual number => exact Nat.lt_of_lt_of_le plain le
  | physical phys => trivial
  | spilled slot => exact plain

namespace Machine

/-- The registers handed out for some slots lie in a range of their own, a different one for each
slot. -/
structure TempsFor (first last : Nat) (slots : List Nat) (temps : List (Nat × Nat)) : Prop where
  le : first ≤ last
  slots : temps.map Prod.fst = slots
  inside : ∀ pair ∈ temps, first ≤ pair.2 ∧ pair.2 < last
  own : ∀ a ∈ temps, ∀ b ∈ temps, a.2 = b.2 → a = b
  all : ∀ number, first ≤ number → number < last → ∃ pair ∈ temps, pair.2 = number

variable {temps : List (Nat × Nat)}

theorem assignTemps_eq_ok {slots : List Nat} {next last : Nat}
    (ok : assignTemps next slots = .ok (temps, last)) : TempsFor next last slots temps := by
  induction slots generalizing next temps with
  | nil =>
      cases ok
      exact ⟨Nat.le_refl _, rfl, by simp, by simp, by omega⟩
  | cons slot rest ih =>
      obtain ⟨after, isAfter, ok⟩ := bind_eq_ok.mp ok
      obtain ⟨⟨later, _⟩, areLater, ok⟩ := bind_eq_ok.mp ok
      cases ok
      obtain ⟨rfl, _⟩ := Width.add_eq_ok_iff.mp isAfter
      have known := ih areLater
      have le := known.le
      refine ⟨by omega, by simp [known.slots], ?_, ?_, ?_⟩
      · intro pair member
        rcases List.mem_cons.mp member with rfl | member
        · exact ⟨Nat.le_refl _, by omega⟩
        · have inside := known.inside pair member
          omega
      · intro a memberA b memberB same
        rcases List.mem_cons.mp memberA with rfl | memberA
        · rcases List.mem_cons.mp memberB with rfl | memberB
          · rfl
          · have inside := known.inside b memberB
            simp only at same
            omega
        · rcases List.mem_cons.mp memberB with rfl | memberB
          · have inside := known.inside a memberA
            simp only at same
            omega
          · exact known.own a memberA b memberB same
      · intro number low high
        rcases Nat.eq_or_lt_of_le low with rfl | above
        · exact ⟨_, List.mem_cons_self, rfl⟩
        · obtain ⟨pair, member, same⟩ := known.all number above high
          exact ⟨pair, List.mem_cons_of_mem _ member, same⟩

theorem TempsFor.lookup {first last slot : Nat} {slots : List Nat}
    (handed : TempsFor first last slots temps) (member : slot ∈ slots) :
    ∃ temp, temps.lookup slot = some temp ∧ (slot, temp) ∈ temps := by
  rw [← handed.slots] at member
  obtain ⟨pair, isPair, rfl⟩ := List.mem_map.mp member
  cases found : temps.lookup pair.1 with
  | none =>
      have different := List.lookup_eq_none_iff.mp found pair isPair
      simp at different
  | some temp =>
      obtain ⟨before, behind, rfl, _⟩ := List.lookup_eq_some_iff.mp found
      exact ⟨temp, rfl, by simp⟩

theorem mem_sortTemps (distinct : (temps.map Prod.fst).Nodup)
    {pair : Nat × Nat} : pair ∈ sortTemps temps ↔ pair ∈ temps := by
  have apart : temps.Pairwise fun a b => ¬ byNumber a.1 b.1 = .eq := by
    rw [List.Nodup, List.pairwise_map] at distinct
    exact distinct.imp fun different same => different (Std.LawfulEqCmp.eq_of_compare same)
  obtain ⟨slot, temp⟩ := pair
  unfold sortTemps
  rw [Std.TreeMap.mem_toList_iff_getElem?_eq_some]
  constructor
  · intro found
    by_cases known : slot ∈ temps.map Prod.fst
    · obtain ⟨⟨_, other⟩, member, rfl⟩ := List.mem_map.mp known
      rw [Std.TreeMap.getElem?_ofList_of_mem Std.ReflCmp.compare_self apart member] at found
      cases found
      exact member
    · rw [Std.TreeMap.getElem?_ofList_of_contains_eq_false (by simpa using known)] at found
      cases found
  · intro member
    exact Std.TreeMap.getElem?_ofList_of_mem Std.ReflCmp.compare_self apart member

theorem nodup_sortTemps (temps : List (Nat × Nat)) : (sortTemps temps).Nodup := by
  have apart := Std.TreeMap.distinct_keys_toList (t := Std.TreeMap.ofList temps byNumber)
  refine apart.imp fun different equal => different ?_
  rw [equal]
  exact Std.ReflCmp.compare_self

theorem sortTemps_perm (distinct : (temps.map Prod.fst).Nodup) :
    (sortTemps temps).Perm temps :=
  (List.perm_ext_iff_of_nodup (nodup_sortTemps temps) distinct.of_map).mpr fun _ =>
    mem_sortTemps distinct

/-- The virtual registers handed out while a counter goes from one number to another. -/
structure Handed (first last : Nat) (regs : List Reg) : Prop where
  le : first ≤ last
  nodup : regs.Nodup
  mem_iff : ∀ {reg}, reg ∈ regs ↔ ∃ number, reg = .virtual number ∧ first ≤ number ∧ number < last

namespace Handed

variable {first middle last : Nat} {regs others : List Reg}

theorem nil (first : Nat) : Handed first first [] :=
  ⟨Nat.le_refl _, List.nodup_nil, by simp⟩

theorem append (here : Handed first middle regs) (behind : Handed middle last others) :
    Handed first last (regs ++ others) := by
  have le := here.le
  have leBehind := behind.le
  refine ⟨le.trans leBehind, here.nodup.append behind.nodup fun reg isHere isBehind => ?_, ?_⟩
  · obtain ⟨number, rfl, _, below⟩ := here.mem_iff.mp isHere
    obtain ⟨same, isSame, above, _⟩ := behind.mem_iff.mp isBehind
    cases isSame
    omega
  · intro reg
    rw [List.mem_append, here.mem_iff, behind.mem_iff]
    constructor
    · rintro (⟨number, rfl, low, high⟩ | ⟨number, rfl, low, high⟩)
      · exact ⟨number, rfl, low, by omega⟩
      · exact ⟨number, rfl, by omega, high⟩
    · rintro ⟨number, rfl, low, high⟩
      by_cases early : number < middle
      · exact .inl ⟨number, rfl, low, early⟩
      · exact .inr ⟨number, rfl, Nat.not_lt.mp early, high⟩

theorem of_perm (handed : Handed first last regs) (perm : others.Perm regs) :
    Handed first last others :=
  ⟨handed.le, perm.nodup_iff.mpr handed.nodup, by
    intro reg
    rw [perm.mem_iff, handed.mem_iff]⟩

theorem perm (one : Handed first last regs) (other : Handed first last others) :
    regs.Perm others :=
  (List.perm_ext_iff_of_nodup one.nodup other.nodup).mpr fun _ => one.mem_iff.trans other.mem_iff.symm

theorem single (next : Nat) : Handed next (next + 1) [.virtual next] := by
  refine ⟨Nat.le_succ _, List.nodup_singleton _, fun {reg} => ?_⟩
  rw [List.mem_singleton]
  constructor
  · rintro rfl
    exact ⟨next, rfl, Nat.le_refl _, Nat.lt_succ_self _⟩
  · rintro ⟨number, rfl, low, high⟩
    rw [Nat.le_antisymm low (Nat.le_of_lt_succ high)]

end Handed

section Handing

variable {next last : Nat} {code : SpillCode} {fresh : List Reg}

theorem TempsFor.handed {slots : List Nat} {temps : List (Nat × Nat)}
    (temporaries : TempsFor next last slots temps) (distinct : slots.Nodup) :
    Handed next last (tempRegs temps) := by
  have keys : (temps.map Prod.fst).Nodup := temporaries.slots ▸ distinct
  refine ⟨temporaries.le, keys.of_map.map_on fun a memberA b memberB same => ?_, fun {reg} => ?_⟩
  · exact temporaries.own a memberA b memberB (Reg.virtual.inj same)
  · rw [tempRegs, List.mem_map]
    constructor
    · rintro ⟨pair, member, rfl⟩
      exact ⟨pair.2, rfl, temporaries.inside pair member⟩
    · rintro ⟨number, rfl, low, high⟩
      obtain ⟨pair, member, rfl⟩ := temporaries.all number low high
      exact ⟨pair, member, rfl⟩

theorem handed_assignTemps {slots : List Nat} (distinct : slots.Nodup) {temps : List (Nat × Nat)}
    (ok : assignTemps next slots = .ok (temps, last)) :
    Handed next last (tempRegs temps) ∧ Handed next last (tempRegs (sortTemps temps)) := by
  have temporaries := assignTemps_eq_ok ok
  have keys : (temps.map Prod.fst).Nodup := temporaries.slots ▸ distinct
  have handed := temporaries.handed distinct
  exact ⟨handed, handed.of_perm ((sortTemps_perm keys).map _)⟩

theorem Instr.handed_spillPlain {instr : Instr}
    (ok : instr.spillPlain next = .ok code) : Handed next code.next code.fresh := by
  obtain ⟨⟨loaded, middle⟩, isLoaded, ok⟩ := bind_eq_ok.mp ok
  obtain ⟨⟨stored, last⟩, isStored, ok⟩ := bind_eq_ok.mp ok
  cases ok
  have single : (instr.operandDef?.bind Reg.slot?).toList.Nodup := by
    cases instr.operandDef?.bind Reg.slot? <;> simp
  have loads := (handed_assignTemps (nodup_eraseDups _) isLoaded).2
  have stores := (handed_assignTemps single isStored).1
  exact (loads.append stores).of_perm List.perm_append_comm

theorem Instr.handed_spill {instr : Instr} (ok : instr.spill next = .ok code) :
    Handed next code.next code.fresh := by
  unfold Instr.spill at ok
  split at ok
  · split at ok
    · cases ok
      exact .nil next
    · obtain ⟨after, isAfter, ok⟩ := bind_eq_ok.mp ok
      cases ok
      obtain ⟨rfl, _⟩ := Width.add_eq_ok_iff.mp isAfter
      exact .single next
  · cases ok
    exact .nil next
  · cases ok
    exact .nil next
  · cases ok
    exact .nil next
  · exact Instr.handed_spillPlain ok

theorem handed_spillInstrs {instrs : List Instr}
    (ok : spillInstrs next instrs = .ok code) : Handed next code.next code.fresh := by
  induction instrs generalizing next code with
  | nil =>
      cases ok
      exact .nil next
  | cons instr rest ih =>
      obtain ⟨first, isFirst, ok⟩ := bind_eq_ok.mp ok
      obtain ⟨later, isLater, ok⟩ := bind_eq_ok.mp ok
      cases ok
      exact (Instr.handed_spill isFirst).append (ih isLater)

theorem Block.handed_spill {block relieved : Block}
    (ok : block.spill next = .ok (relieved, fresh, last)) : Handed next last fresh := by
  obtain ⟨code, isCode, ok⟩ := bind_eq_ok.mp ok
  obtain ⟨⟨loaded, _⟩, isLoaded, ok⟩ := bind_eq_ok.mp ok
  cases ok
  exact (handed_spillInstrs isCode).append (handed_assignTemps (nodup_eraseDups _) isLoaded).2

/-- The fresh registers are those the counter has passed. -/
theorem handed_spillBlocks {blocks relieved : List Block}
    (ok : spillBlocks next blocks = .ok (relieved, fresh, last)) : Handed next last fresh := by
  induction blocks generalizing next relieved fresh with
  | nil =>
      cases ok
      exact .nil _
  | cons block rest ih =>
      obtain ⟨⟨first, freshFirst, middle⟩, isFirst, ok⟩ := bind_eq_ok.mp ok
      obtain ⟨⟨later, freshLater, _⟩, isLater, ok⟩ := bind_eq_ok.mp ok
      cases ok
      exact (Block.handed_spill isFirst).append (ih isLater)

/-- Instructions are relieved one after the other, while the counter grows. -/
theorem spillInstrs_pieces {instrs : List Instr} (ok : spillInstrs next instrs = .ok code) :
    ∃ pieces, code.instrs = pieces.flatten ∧ List.Forall₂ (fun instr piece =>
      ∃ start out, next ≤ start ∧ instr.spill start = .ok out ∧ out.next ≤ code.next ∧
        piece = out.instrs) instrs pieces := by
  induction instrs generalizing next code with
  | nil =>
      cases ok
      exact ⟨[], rfl, .nil⟩
  | cons instr rest ih =>
      obtain ⟨first, isFirst, ok⟩ := bind_eq_ok.mp ok
      obtain ⟨later, isLater, ok⟩ := bind_eq_ok.mp ok
      cases ok
      obtain ⟨pieces, same, related⟩ := ih isLater
      have grows := (Instr.handed_spill isFirst).le
      refine ⟨first.instrs :: pieces, congrArg (first.instrs ++ ·) same, .cons ?_ (related.imp ?_)⟩
      · exact ⟨next, first, Nat.le_refl _, isFirst, (handed_spillInstrs isLater).le, rfl⟩
      · rintro instr piece ⟨start, out, le, isOut⟩
        exact ⟨start, out, grows.trans le, isOut⟩

theorem spillBlocks_pieces {blocks relieved : List Block}
    (ok : spillBlocks next blocks = .ok (relieved, fresh, last)) :
    List.Forall₂ (fun block other => ∃ start handed finish, next ≤ start ∧
      block.spill start = .ok (other, handed, finish) ∧ finish ≤ last) blocks relieved := by
  induction blocks generalizing next relieved fresh with
  | nil =>
      cases ok
      exact .nil
  | cons block rest ih =>
      obtain ⟨⟨first, freshFirst, middle⟩, isFirst, ok⟩ := bind_eq_ok.mp ok
      obtain ⟨⟨later, freshLater, _⟩, isLater, ok⟩ := bind_eq_ok.mp ok
      cases ok
      have grows := (Block.handed_spill isFirst).le
      refine .cons ⟨next, freshFirst, middle, Nat.le_refl _, isFirst,
        (handed_spillBlocks isLater).le⟩ ((ih isLater).imp ?_)
      rintro block other ⟨start, handed, finish, le, isOther⟩
      exact ⟨start, handed, finish, grows.trans le, isOther⟩

end Handing

/-- Marks a spilled register by its slot. -/
def markSpilled (slotOf : RegMap Nat) (reg : Reg) : Reg :=
  match slotOf.get? reg with
  | some slot => .spilled slot
  | none => reg

section Marks

variable {slotOf : RegMap Nat} {reg : Reg} {slot bound : Nat}

theorem markSpilled_of_some (found : slotOf[reg]? = some slot) :
    markSpilled slotOf reg = .spilled slot := by
  unfold markSpilled
  rw [Std.TreeMap.get?_eq_getElem?, found]

theorem markSpilled_of_none (notFound : slotOf[reg]? = none) : markSpilled slotOf reg = reg := by
  unfold markSpilled
  rw [Std.TreeMap.get?_eq_getElem?, notFound]

theorem mem_spilledSlots_of_found {operands : List Reg} (member : reg ∈ operands)
    (found : slotOf[reg]? = some slot) :
    slot ∈ spilledSlots (operands.map (markSpilled slotOf)) := by
  unfold spilledSlots
  rw [List.mem_eraseDups, List.mem_filterMap]
  exact ⟨.spilled slot, List.mem_map.mpr ⟨reg, member, markSpilled_of_some found⟩, rfl⟩

theorem replaceSpilled_of_plain (temps : List (Nat × Nat)) (plain : reg.Plain bound) :
    replaceSpilled temps reg = reg := by
  cases reg with
  | virtual number => rfl
  | physical phys => rfl
  | spilled slot => exact absurd plain id

theorem slot?_of_plain (plain : reg.Plain bound) : reg.slot? = none := by
  cases reg with
  | virtual number => rfl
  | physical phys => rfl
  | spilled slot => exact absurd plain id

theorem mem_spilledSlots_mark {operands : List Reg} (plain : ∀ reg ∈ operands, reg.Plain bound)
    (member : slot ∈ spilledSlots (operands.map (markSpilled slotOf))) :
    ∃ reg ∈ operands, slotOf[reg]? = some slot := by
  unfold spilledSlots at member
  rw [List.mem_eraseDups, List.mem_filterMap] at member
  obtain ⟨marked, isMarked, isSlot⟩ := member
  obtain ⟨reg, isOperand, rfl⟩ := List.mem_map.mp isMarked
  refine ⟨reg, isOperand, ?_⟩
  cases found : slotOf[reg]? with
  | none =>
      rw [markSpilled_of_none found, slot?_of_plain (plain reg isOperand)] at isSlot
      cases isSlot
  | some other =>
      rw [markSpilled_of_some found] at isSlot
      exact isSlot

theorem slots_of_definition (definition : Option Reg) :
    ((definition.map (markSpilled slotOf)).bind Reg.slot?).toList =
      spilledSlots (definition.toList.map (markSpilled slotOf)) := by
  cases definition with
  | none => rfl
  | some reg =>
      unfold spilledSlots
      cases isSlot : (markSpilled slotOf reg).slot? with
      | none => simp [isSlot]
      | some slot => simp [isSlot, List.eraseDups_cons]

end Marks

section Copies

variable {slotOf : RegMap Nat} {bound next : Nat} {dest src : Reg} {code : SpillCode}

theorem spill_move_to_spilled (slot : Nat) (plain : src.Plain bound) :
    (Instr.move (.spilled slot) src).spill next = .ok ⟨[.store src (.slot slot)], [], next⟩ := by
  cases src with
  | spilled other => exact absurd plain id
  | _ => rfl

theorem spill_move_from_spilled (slot : Nat) (plain : dest.Plain bound) :
    (Instr.move dest (.spilled slot)).spill next = .ok ⟨[.load dest (.slot slot)], [], next⟩ := by
  cases dest with
  | spilled other => exact absurd plain id
  | _ => rfl

theorem spill_move_plain (plainDest : dest.Plain bound)
    (plainSrc : src.Plain bound) :
    (Instr.move dest src).spill next = .ok ⟨[.move dest src], [], next⟩ := by
  cases dest with
  | spilled other => exact absurd plainDest id
  | _ =>
      cases src with
      | spilled other => exact absurd plainSrc id
      | _ => rfl

/-- What becomes of a copy, by the slots of its operands. -/
inductive CopySpill (slotOf : RegMap Nat) (next : Nat) (dest src : Reg) : SpillCode → Prop where
  | stay : slotOf[src]? = none → slotOf[dest]? = none →
      CopySpill slotOf next dest src ⟨[.move dest src], [], next⟩
  | save {slot : Nat} : slotOf[src]? = none → slotOf[dest]? = some slot →
      CopySpill slotOf next dest src ⟨[.store src (.slot slot)], [], next⟩
  | fetch {slot : Nat} : slotOf[src]? = some slot → slotOf[dest]? = none →
      CopySpill slotOf next dest src ⟨[.load dest (.slot slot)], [], next⟩
  | drop {slot : Nat} : slotOf[src]? = some slot → slotOf[dest]? = some slot →
      CopySpill slotOf next dest src ⟨[], [], next⟩
  | pass {source target : Nat} : slotOf[src]? = some source → slotOf[dest]? = some target →
      CopySpill slotOf next dest src
        ⟨[.load (.virtual next) (.slot source), .store (.virtual next) (.slot target)],
          [.virtual next], next + 1⟩

theorem copySpill_of_ok (plainDest : dest.Plain bound) (plainSrc : src.Plain bound)
    (ok : ((Instr.move dest src).mapRegs (markSpilled slotOf)).spill next = .ok code) :
    CopySpill slotOf next dest src code := by
  simp only [Instr.mapRegs, Instr.mapOperands] at ok
  cases foundSrc : slotOf[src]? with
  | none =>
      rw [markSpilled_of_none foundSrc] at ok
      cases foundDest : slotOf[dest]? with
      | none =>
          rw [markSpilled_of_none foundDest, spill_move_plain plainDest plainSrc] at ok
          cases ok
          exact .stay foundSrc foundDest
      | some slot =>
          rw [markSpilled_of_some foundDest, spill_move_to_spilled slot plainSrc] at ok
          cases ok
          exact .save foundSrc foundDest
  | some slot =>
      rw [markSpilled_of_some foundSrc] at ok
      cases foundDest : slotOf[dest]? with
      | none =>
          rw [markSpilled_of_none foundDest, spill_move_from_spilled slot plainDest] at ok
          cases ok
          exact .fetch foundSrc foundDest
      | some other =>
          rw [markSpilled_of_some foundDest, Instr.spill] at ok
          split at ok
          · next same =>
              cases ok
              exact .drop (same ▸ foundSrc) foundDest
          · obtain ⟨last, isLast, ok⟩ := bind_eq_ok.mp ok
            cases ok
            obtain ⟨rfl, _⟩ := Width.add_eq_ok_iff.mp isLast
            exact .pass foundSrc foundDest

end Copies

end Machine

end Lowering
