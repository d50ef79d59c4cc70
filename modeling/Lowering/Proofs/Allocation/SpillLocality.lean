import Lowering.Proofs.Allocation.Preservation
import Lowering.Proofs.Allocation.Sheltering
import Mathlib

/-!
# Spill code is local

The registers handed out for spill code are new, and each lives inside of the piece of code that takes
the place of one instruction: it is defined once, by a load or by the instruction, and used behind that
by the instruction or by a store.  So none of them is live at the top or at the end of a block.
-/

namespace Lowering.Machine

theorem Renewed.handed {first last : Nat} {new : List Reg} (renewed : Renewed first last [] new) :
    Handed first last new := by
  refine ⟨renewed.le, renewed.nodup, fun {reg} => ⟨fun member => ?_, ?_⟩⟩
  · exact (renewed.source reg member).resolve_left List.not_mem_nil
  · rintro ⟨number, rfl, low, high⟩
    exact renewed.all number low high

/-! ## Pieces of spill code -/

section Pieces

variable {gone temps : List Reg} {base : Nat} {reg : Reg} {instr other : Instr} {piece : List Instr}

theorem mem_tempRegs {pairs : List (Nat × Nat)} :
    reg ∈ tempRegs pairs ↔ ∃ pair ∈ pairs, reg = .virtual pair.2 := by
  simp only [tempRegs, List.mem_map, eq_comm]

theorem mentions_loadsOf {loaded : List (Nat × Nat)} (member : other ∈ loadsOf loaded)
    (mentioned : reg ∈ other.uses ++ other.defs) : reg = .sp ∨ reg ∈ tempRegs loaded := by
  obtain ⟨pair, isPair, rfl⟩ := List.mem_map.mp member
  rcases List.mem_append.mp mentioned with used | defined
  · exact .inl (List.mem_singleton.mp used)
  · exact .inr (mem_tempRegs.mpr ⟨pair, isPair, List.mem_singleton.mp defined⟩)

theorem mentions_storesOf {stored : List (Nat × Nat)} (member : other ∈ Spills.storesOf stored) :
    other.defs = [] ∧ ∀ reg ∈ other.uses, reg = .sp ∨ reg ∈ tempRegs stored := by
  obtain ⟨pair, isPair, rfl⟩ := List.mem_map.mp member
  refine ⟨rfl, fun reg used => ?_⟩
  rcases List.mem_cons.mp used with isTemp | isPointer
  · exact .inr (mem_tempRegs.mpr ⟨pair, isPair, isTemp⟩)
  · exact .inl (List.mem_singleton.mp isPointer)

/-- A piece of code mentions operands that have stayed, the stack pointer and the registers handed out
for it. -/
theorem Instr.Eased.mentions (eased : instr.Eased gone temps piece) (lost : VirtualsBelow base gone)
    (member : other ∈ piece) (mentioned : reg ∈ other.uses ++ other.defs) :
    reg ∈ instr.uses ++ instr.defs ∧ reg ∉ gone ∨ reg = .sp ∨ reg ∈ temps := by
  cases eased with
  | @body _ use definition loaded stored _ uses defs =>
      rcases List.mem_append.mp member with isLoad | later
      · refine .inr ((mentions_loadsOf isLoad mentioned).imp_right ?_)
        exact List.mem_append_left _
      rcases List.mem_cons.mp later with rfl | isStore
      · rcases List.mem_append.mp mentioned with used | defined
        · rcases (uses.mem_uses lost).mp used with ⟨old, kept⟩ | isTemp
          · exact .inl ⟨List.mem_append_left _ old, kept⟩
          · exact .inr (.inr (List.mem_append_left _ isTemp))
        · rcases (defs.mem_defs lost).mp defined with ⟨old, kept⟩ | isTemp
          · exact .inl ⟨List.mem_append_right _ old, kept⟩
          · exact .inr (.inr (List.mem_append_right _ isTemp))
      · obtain ⟨noDefs, uses⟩ := mentions_storesOf isStore
        rw [noDefs, List.append_nil] at mentioned
        exact .inr ((uses reg mentioned).imp_right (List.mem_append_right _))
  | fetch kept goes =>
      obtain rfl := List.mem_singleton.mp member
      rcases List.mem_append.mp mentioned with used | defined
      · exact .inr (.inl (List.mem_singleton.mp used))
      · obtain rfl := List.mem_singleton.mp defined
        exact .inl ⟨by simp [Instr.uses, Instr.defs], kept⟩
  | save goes kept =>
      obtain rfl := List.mem_singleton.mp member
      rw [Instr.defs, List.append_nil] at mentioned
      rcases List.mem_cons.mp mentioned with rfl | isPointer
      · exact .inl ⟨by simp [Instr.uses], kept⟩
      · exact .inr (.inl (List.mem_singleton.mp isPointer))
  | pass _ _ =>
      refine .inr ?_
      rcases List.mem_cons.mp member with rfl | later
      · exact (List.mem_append.mp mentioned).imp List.mem_singleton.mp id
      · obtain rfl := List.mem_singleton.mp later
        rw [Instr.defs, List.append_nil] at mentioned
        rcases List.mem_cons.mp mentioned with rfl | isPointer
        · exact .inr (List.mem_singleton_self _)
        · exact .inl (List.mem_singleton.mp isPointer)
  | drop _ => cases member

/-- A register that code keeps to itself: one instruction defines it, and only later ones use it. -/
def Private (reg : Reg) (piece : List Instr) : Prop :=
  ∃ (before : List Instr) (definer : Instr) (after : List Instr), piece = before ++ definer :: after ∧
    reg ∈ definer.defs ∧ reg ∉ definer.uses ∧ (∀ instr ∈ before, reg ∉ instr.uses ++ instr.defs) ∧
    ∀ instr ∈ after, reg ∉ instr.defs

theorem private_loadsOf {loaded : List (Nat × Nat)} (nodup : (tempRegs loaded).Nodup)
    (member : reg ∈ tempRegs loaded) {rest : List Instr} (undefined : ∀ instr ∈ rest, reg ∉ instr.defs) :
    Private reg (loadsOf loaded ++ rest) := by
  obtain ⟨pair, isPair, rfl⟩ := mem_tempRegs.mp member
  obtain ⟨before, after, rfl⟩ := List.append_of_mem isPair
  unfold tempRegs at nodup
  rw [List.map_append, List.map_cons] at nodup
  obtain ⟨_, others, apart⟩ := List.nodup_append.mp nodup
  have notBefore : .virtual pair.2 ∉ tempRegs before := fun isBefore =>
    apart _ isBefore _ List.mem_cons_self rfl
  have notAfter : .virtual pair.2 ∉ tempRegs after := (List.nodup_cons.mp others).1
  have unmentioned {temps : List (Nat × Nat)} (absent : .virtual pair.2 ∉ tempRegs temps)
      (instr : Instr) (isLoad : instr ∈ loadsOf temps) :
      .virtual pair.2 ∉ instr.uses ++ instr.defs := fun mentioned =>
    (mentions_loadsOf isLoad mentioned).elim nofun absent
  refine ⟨loadsOf before, .load (.virtual pair.2) (.slot pair.1), loadsOf after ++ rest, ?_,
    List.mem_singleton_self _, ?_, unmentioned notBefore, fun instr inside => ?_⟩
  · simp [loadsOf]
  · exact fun used => nomatch List.mem_singleton.mp used
  · rcases List.mem_append.mp inside with isLoad | later
    · exact fun defined => unmentioned notAfter instr isLoad (List.mem_append_right _ defined)
    · exact undefined instr later

/-- A piece of code keeps the registers handed out for it to itself. -/
theorem Instr.Eased.private_of_mem (eased : instr.Eased gone temps piece)
    (lost : VirtualsBelow base gone) (nodup : temps.Nodup) (member : reg ∈ temps)
    (isNew : reg ∉ instr.uses ++ instr.defs) : Private reg piece := by
  rw [List.mem_append, not_or] at isNew
  cases eased with
  | @body _ use definition loaded stored _ uses defs =>
      obtain ⟨loadedNodup, storedNodup, apart⟩ := List.nodup_append.mp nodup
      rcases List.mem_append.mp member with isLoaded | isStored
      · refine private_loadsOf loadedNodup isLoaded fun other inside => ?_
        rcases List.mem_cons.mp inside with rfl | isStore
        · intro defined
          rcases (defs.mem_defs lost).mp defined with ⟨old, _⟩ | isStored
          · exact isNew.2 old
          · exact apart _ isLoaded _ isStored rfl
        · rw [(mentions_storesOf isStore).1]
          exact List.not_mem_nil
      · have notLoaded : reg ∉ tempRegs loaded := fun isLoaded => apart _ isLoaded _ isStored rfl
        refine ⟨loadsOf loaded, _, _, rfl, (defs.mem_defs lost).mpr (.inr isStored), fun used => ?_,
          fun other isLoad mentioned => ?_, fun other isStore => ?_⟩
        · rcases (uses.mem_uses lost).mp used with ⟨old, _⟩ | isLoaded
          · exact isNew.1 old
          · exact notLoaded isLoaded
        · rcases mentions_loadsOf isLoad mentioned with rfl | isLoaded
          · obtain ⟨_, _, same⟩ := mem_tempRegs.mp isStored
            cases same
          · exact notLoaded isLoaded
        · rw [(mentions_storesOf isStore).1]
          exact List.not_mem_nil
  | @pass dest src temp source target _ _ =>
      obtain rfl := List.mem_singleton.mp member
      refine ⟨[], .load (.virtual temp) (.slot source), [.store (.virtual temp) (.slot target)], rfl,
        List.mem_singleton_self _, (fun used => nomatch List.mem_singleton.mp used),
        fun _ inside => absurd inside List.not_mem_nil, fun other inside => ?_⟩
      obtain rfl := List.mem_singleton.mp inside
      exact List.not_mem_nil
  | fetch | save | drop => cases member

end Pieces

/-! ## Blocks in pieces -/

section Blocks

variable {gone temps : List Reg} {base : Nat} {reg : Reg} {old new : Block}
  {pieces : List (List Instr)} {parts : List (List Reg)}

/-- What becomes of a block, piece by piece: one piece for every instruction and one of loads for the
terminator, each with the registers handed out for it. -/
structure Block.InPieces (gone : List Reg) (old new : Block) (pieces : List (List Instr))
    (parts : List (List Reg)) : Prop where
  label : new.label = old.label
  length : pieces.length = old.instrs.length + 1
  lengthParts : parts.length = old.instrs.length + 1
  instrs : new.instrs = pieces.flatten
  eased : ∀ {i : Nat} {instr : Instr}, old.instrs[i]? = some instr → ∃ part piece,
    parts[i]? = some part ∧ pieces[i]? = some piece ∧ instr.Eased gone part piece
  term : ∃ use loaded, parts[old.instrs.length]? = some (tempRegs loaded) ∧
    pieces[old.instrs.length]? = some (loadsOf loaded) ∧
    Served gone old.term.operandUses use (tempRegs loaded) ∧ new.term = old.term.mapRegs use

theorem EasedCode.exists_pieces {instrs code : List Instr} (eased : EasedCode gone instrs temps code) :
    ∃ (pieces : List (List Instr)) (parts : List (List Reg)), pieces.length = instrs.length ∧
      parts.length = instrs.length ∧ pieces.flatten = code ∧ parts.flatten = temps ∧
      ∀ {i : Nat} {instr : Instr}, instrs[i]? = some instr → ∃ part piece, parts[i]? = some part ∧
        pieces[i]? = some piece ∧ instr.Eased gone part piece := by
  induction eased with
  | nil => exact ⟨[], [], rfl, rfl, rfl, rfl, fun found => nomatch found⟩
  | @cons instr rest temps later piece code first _ ih =>
      obtain ⟨pieces, parts, length, lengthParts, rfl, rfl, areEased⟩ := ih
      refine ⟨piece :: pieces, temps :: parts, congrArg (· + 1) length, congrArg (· + 1) lengthParts,
        rfl, rfl, fun {i other} found => ?_⟩
      cases i with
      | zero =>
          cases found
          exact ⟨temps, piece, rfl, rfl, first⟩
      | succ i => exact areEased found

theorem Block.Eased.exists_pieces (eased : old.Eased gone temps new) :
    ∃ pieces parts, old.InPieces gone new pieces parts ∧ parts.flatten = temps := by
  cases eased with
  | @mk label instrs code term use codeTemps loaded easedCode served =>
      obtain ⟨pieces, parts, length, lengthParts, rfl, rfl, areEased⟩ := easedCode.exists_pieces
      refine ⟨pieces ++ [loadsOf loaded], parts ++ [tempRegs loaded], ⟨rfl, ?_, ?_, ?_, ?_, ?_⟩, ?_⟩
      · simp [length]
      · simp [lengthParts]
      · simp
      · intro i instr found
        obtain ⟨part, piece, isPart, isPiece, isEased⟩ := areEased found
        refine ⟨part, piece, ?_, ?_, isEased⟩
        · rw [List.getElem?_append_left (List.getElem?_eq_some_iff.mp isPart).1, isPart]
        · rw [List.getElem?_append_left (List.getElem?_eq_some_iff.mp isPiece).1, isPiece]
      · refine ⟨use, loaded, ?_, ?_, served, rfl⟩
        · rw [← lengthParts, List.getElem?_concat_length]
        · rw [← length, List.getElem?_concat_length]
      · simp

namespace Block.InPieces

variable (inPieces : old.InPieces gone new pieces parts) (lost : VirtualsBelow base gone)
include inPieces lost

theorem mentions {i : Nat} {piece : List Instr} (isPiece : pieces[i]? = some piece) :
    ∃ part, parts[i]? = some part ∧ ∀ instr ∈ piece, ∀ reg ∈ instr.uses ++ instr.defs,
      reg ∈ old.regs ∧ reg ∉ gone ∨ reg = .sp ∨ reg ∈ part := by
  have bound := (List.getElem?_eq_some_iff.mp isPiece).1
  rw [inPieces.length] at bound
  rcases Nat.lt_succ_iff_lt_or_eq.mp bound with inside | rfl
  · have found := List.getElem?_eq_getElem inside
    obtain ⟨part, other, isPart, isOther, eased⟩ := inPieces.eased found
    obtain rfl := Option.some.inj (isPiece.symm.trans isOther)
    refine ⟨part, isPart, fun instr member reg mentioned => ?_⟩
    refine (eased.mentions lost member mentioned).imp_left (And.imp_left fun inInstr => ?_)
    exact List.mem_append_left _ (List.mem_flatMap.mpr ⟨_, List.getElem_mem inside, inInstr⟩)
  · obtain ⟨use, loaded, isPart, isLoads, _, _⟩ := inPieces.term
    obtain rfl := Option.some.inj (isPiece.symm.trans isLoads)
    exact ⟨_, isPart, fun instr member reg mentioned => .inr (mentions_loadsOf member mentioned)⟩

theorem term_uses (used : reg ∈ new.term.uses) :
    reg ∈ old.term.uses ∧ reg ∉ gone ∨
      ∃ part, parts[old.instrs.length]? = some part ∧ reg ∈ part := by
  obtain ⟨use, loaded, isPart, _, served, isTerm⟩ := inPieces.term
  rw [isTerm] at used
  exact ((served.mem_termUses lost).mp used).imp_right fun isTemp => ⟨_, isPart, isTemp⟩

theorem mem_regs (mentioned : reg ∈ new.regs) :
    reg ∈ old.regs ∧ reg ∉ gone ∨ reg = .sp ∨ reg ∈ parts.flatten := by
  rcases List.mem_append.mp mentioned with inInstrs | used
  · obtain ⟨instr, member, inInstr⟩ := List.mem_flatMap.mp inInstrs
    rw [inPieces.instrs] at member
    obtain ⟨piece, isPiece, member⟩ := List.mem_flatten.mp member
    obtain ⟨i, isPiece⟩ := List.mem_iff_getElem?.mp isPiece
    obtain ⟨part, isPart, registers⟩ := inPieces.mentions lost isPiece
    refine (registers instr member reg inInstr).imp_right (Or.imp_right fun inPart => ?_)
    exact List.mem_flatten.mpr ⟨part, List.mem_of_getElem? isPart, inPart⟩
  · rcases inPieces.term_uses lost used with ⟨old, kept⟩ | ⟨part, isPart, inPart⟩
    · exact .inl ⟨List.mem_append_right _ old, kept⟩
    · exact .inr (.inr (List.mem_flatten.mpr ⟨part, List.mem_of_getElem? isPart, inPart⟩))

theorem exists_private {i : Nat} {part : List Reg} (isPart : parts[i]? = some part)
    (nodup : part.Nodup) (member : reg ∈ part) (isNew : reg ∉ old.regs) :
    ∃ piece, pieces[i]? = some piece ∧ Private reg piece := by
  have bound := (List.getElem?_eq_some_iff.mp isPart).1
  rw [inPieces.lengthParts] at bound
  rcases Nat.lt_succ_iff_lt_or_eq.mp bound with inside | rfl
  · have found := List.getElem?_eq_getElem inside
    obtain ⟨other, piece, isOther, isPiece, eased⟩ := inPieces.eased found
    obtain rfl := Option.some.inj (isPart.symm.trans isOther)
    refine ⟨piece, isPiece, eased.private_of_mem lost nodup member fun inInstr => isNew ?_⟩
    exact List.mem_append_left _ (List.mem_flatMap.mpr ⟨_, List.getElem_mem inside, inInstr⟩)
  · obtain ⟨use, loaded, isOther, isLoads, _, _⟩ := inPieces.term
    obtain rfl := Option.some.inj (isPart.symm.trans isOther)
    refine ⟨_, isLoads, ?_⟩
    rw [← List.append_nil (loadsOf loaded)]
    exact private_loadsOf nodup member fun _ none => absurd none List.not_mem_nil

end Block.InPieces

/-- A register that a block defines at one position and uses only behind it, before another one or in
the terminator there. -/
structure Block.Confines (block : Block) (reg : Reg) (start stop : Nat) : Prop where
  defined : ∃ instr, block.instrs[start]? = some instr ∧ reg ∈ instr.defs
  once : ∀ {i : Nat} {instr : Instr}, block.instrs[i]? = some instr → reg ∈ instr.defs → i = start
  used : ∀ {i : Nat} {instr : Instr}, block.instrs[i]? = some instr → reg ∈ instr.uses →
    start < i ∧ i < stop
  term : reg ∈ block.term.uses → block.instrs.length = stop

theorem getElem?_append_cases {α : Type} {front back : List α} {i : Nat} {a : α}
    (found : (front ++ back)[i]? = some a) :
    i < front.length ∧ a ∈ front ∨ front.length ≤ i ∧ back[i - front.length]? = some a := by
  by_cases inside : i < front.length
  · rw [List.getElem?_append_left inside] at found
    exact .inl ⟨inside, List.mem_of_getElem? found⟩
  · rw [List.getElem?_append_right (Nat.not_lt.mp inside)] at found
    exact .inr ⟨Nat.not_lt.mp inside, found⟩

/-- A register that a piece of code keeps to itself and no other code mentions is confined to it. -/
theorem Private.confines {piece front back : List Instr} {block : Block} (isPrivate : Private reg piece)
    (split : block.instrs = front ++ (piece ++ back))
    (others : ∀ instr ∈ front ++ back, reg ∉ instr.uses ++ instr.defs)
    (term : reg ∈ block.term.uses → back = []) :
    ∃ start, front.length ≤ start ∧
      block.Confines reg start (front.length + piece.length) := by
  obtain ⟨before, definer, after, rfl, defines, notUsed, early, late⟩ := isPrivate
  have cases_of {i : Nat} {instr : Instr} (found : block.instrs[i]? = some instr) :
      reg ∉ instr.uses ++ instr.defs ∨ (i = front.length + before.length ∧ instr = definer) ∨
        (instr ∈ after ∧ front.length + before.length < i ∧
          i < front.length + (before ++ definer :: after).length) := by
    rw [split] at found
    rcases getElem?_append_cases found with ⟨_, inFront⟩ | ⟨leFront, found⟩
    · exact .inl (others instr (List.mem_append_left _ inFront))
    rcases getElem?_append_cases found with ⟨bound, _⟩ | ⟨_, found⟩
    · rw [List.getElem?_append_left bound] at found
      rcases getElem?_append_cases found with ⟨_, inBefore⟩ | ⟨leBefore, found⟩
      · exact .inl (early instr inBefore)
      rw [List.getElem?_cons] at found
      split at found
      · obtain rfl := Option.some.inj found
        exact .inr (.inl ⟨by omega, rfl⟩)
      · exact .inr (.inr ⟨List.mem_of_getElem? found, by omega, by omega⟩)
    · exact .inl (others instr (List.mem_append_right _ (List.mem_of_getElem? found)))
  refine ⟨front.length + before.length, Nat.le_add_right _ _, ⟨definer, ?_, defines⟩,
    fun found defined => ?_, fun found used => ?_, fun used => ?_⟩
  · simp [split]
  · rcases cases_of found with unmentioned | ⟨same, _⟩ | ⟨isAfter, _⟩
    · exact absurd (List.mem_append_right _ defined) unmentioned
    · exact same
    · exact absurd defined (late _ isAfter)
  · rcases cases_of found with unmentioned | ⟨_, rfl⟩ | ⟨_, range⟩
    · exact absurd (List.mem_append_left _ used) unmentioned
    · exact absurd used notUsed
    · exact range
  · rw [split, term used, List.append_nil, List.length_append]

namespace Block.InPieces

variable (inPieces : old.InPieces gone new pieces parts) (lost : VirtualsBelow base gone)
include inPieces lost

/-- The registers handed out for a piece are confined to it. -/
theorem confines (nodup : parts.flatten.Nodup) {i : Nat} {part : List Reg}
    (isPart : parts[i]? = some part) (member : reg ∈ part) (isNew : reg ∉ old.regs)
    (notPointer : reg ≠ .sp) :
    ∃ start, boundary pieces i ≤ start ∧ new.Confines reg start (boundary pieces (i + 1)) ∧
      (reg ∈ new.term.uses → i = old.instrs.length) := by
  obtain ⟨piece, isPiece, isPrivate⟩ := inPieces.exists_private lost isPart
    ((List.nodup_flatten.mp nodup).1 part (List.mem_of_getElem? isPart)) member isNew
  have termPiece (used : reg ∈ new.term.uses) : i = old.instrs.length := by
    rcases inPieces.term_uses lost used with ⟨mentioned, _⟩ | ⟨other, isOther, inOther⟩
    · exact absurd (List.mem_append_right _ mentioned) isNew
    · exact eq_of_mem_of_mem nodup isPart isOther member inOther
  have unmentioned {j : Nat} {other : List Instr} (isOther : pieces[j]? = some other) (apart : j ≠ i)
      (instr : Instr) (inOther : instr ∈ other) : reg ∉ instr.uses ++ instr.defs := by
    intro mentioned
    obtain ⟨otherPart, isOtherPart, registers⟩ := inPieces.mentions lost isOther
    rcases registers instr inOther reg mentioned with ⟨inOld, _⟩ | isPointer | inPart
    · exact isNew inOld
    · exact notPointer isPointer
    · exact apart (eq_of_mem_of_mem nodup isOtherPart isPart inPart member)
  obtain ⟨inside, rfl⟩ := List.getElem?_eq_some_iff.mp isPiece
  have splitPieces : pieces = pieces.take i ++ pieces[i] :: pieces.drop (i + 1) := by
    rw [List.getElem_cons_drop, List.take_append_drop]
  have split : new.instrs = (pieces.take i).flatten ++
      (pieces[i] ++ (pieces.drop (i + 1)).flatten) := by
    rw [inPieces.instrs, ← List.flatten_cons, ← List.flatten_append, ← splitPieces]
  have stop : boundary pieces (i + 1) = (pieces.take i).flatten.length + pieces[i].length := by
    unfold boundary
    rw [List.take_add_one, isPiece, List.flatten_append, List.length_append]
    simp
  obtain ⟨start, low, confined⟩ := isPrivate.confines split
    (fun instr inOthers => by
      rcases List.mem_append.mp inOthers with inFront | inBack
      · obtain ⟨other, isOther, inOther⟩ := List.mem_flatten.mp inFront
        obtain ⟨j, isOther⟩ := List.mem_iff_getElem?.mp isOther
        have early : j < i := by
          have bound := (List.getElem?_eq_some_iff.mp isOther).1
          rw [List.length_take] at bound
          omega
        rw [List.getElem?_take_of_lt early] at isOther
        exact unmentioned isOther (Nat.ne_of_lt early) instr inOther
      · obtain ⟨other, isOther, inOther⟩ := List.mem_flatten.mp inBack
        obtain ⟨j, isOther⟩ := List.mem_iff_getElem?.mp isOther
        rw [List.getElem?_drop] at isOther
        exact unmentioned isOther (by omega) instr inOther)
    fun used => by
      rw [List.drop_of_length_le (by rw [inPieces.length, termPiece used]), List.flatten_nil]
  exact ⟨start, low, stop ▸ confined, termPiece⟩

end Block.InPieces

end Blocks

/-! ## Ranges in functions -/

namespace Func

variable {f g : Func} {gone temps : List Reg} {base : Nat} {reg : Reg}

/-- A register that is confined to a stretch of one block. -/
structure Confines (g : Func) (reg : Reg) (block : Fin g.blocks.length) (start stop : Nat) : Prop where
  inside : (g.blocks.get block).Confines reg start stop
  outside : ∀ other, other ≠ block → reg ∉ (g.blocks.get other).regs

namespace Confines

variable {block : Fin g.blocks.length} {start stop : Nat} {place : Place g.blocks.length}
  (confined : g.Confines reg block start stop)
include confined

theorem block_eq (mentioned : reg ∈ (g.blocks.get place.block).regs) : place.block = block :=
  not_not.mp fun different => confined.outside place.block different mentioned

theorem definesAt_iff : g.DefinesAt reg place ↔ place = ⟨block, start⟩ := by
  constructor
  · rintro ⟨instr, found, defined⟩
    obtain ⟨_, position⟩ := place
    obtain rfl := confined.block_eq (List.mem_append_left _ (List.mem_flatMap.mpr
      ⟨instr, List.mem_of_getElem? found, List.mem_append_right _ defined⟩))
    obtain rfl := confined.inside.once found defined
    rfl
  · rintro rfl
    exact confined.inside.defined

theorem usesAt (uses : g.UsesAt reg place) :
    place.block = block ∧ start < place.position ∧ place.position ≤ stop ∧
      (place.position = stop → reg ∈ (g.blocks.get block).term.uses) := by
  rcases uses with ⟨instr, found, used⟩ | ⟨atEnd, used⟩
  · have same := confined.block_eq (List.mem_append_left _ (List.mem_flatMap.mpr
      ⟨instr, List.mem_of_getElem? found, List.mem_append_left _ used⟩))
    rw [same] at found
    obtain ⟨behind, before⟩ := confined.inside.used found used
    exact ⟨same, behind, before.le, fun atStop => absurd atStop (Nat.ne_of_lt before)⟩
  · have same := confined.block_eq (List.mem_append_right _ used)
    rw [same] at atEnd used
    obtain ⟨definer, isDefiner, _⟩ := confined.inside.defined
    have isStop := confined.inside.term used
    refine ⟨same, ?_, by omega, fun _ => used⟩
    exact atEnd ▸ (List.getElem?_eq_some_iff.mp isDefiner).1

/-- A confined register is needed in its stretch only. -/
theorem needs (needs : g.Needs reg place) :
    place.block = block ∧ start < place.position ∧ place.position ≤ stop ∧
      (place.position = stop → reg ∈ (g.blocks.get block).term.uses) := by
  obtain ⟨use, path, used⟩ := needs
  -- from the use back along the path: the definition is never passed
  induction path using Relation.ReflTransGen.head_induction_on with
  | refl => exact confined.usesAt used
  | head step _ ih =>
      obtain ⟨goes, kept⟩ := step
      obtain ⟨same, behind, before, _⟩ := ih
      cases goes with
      | @on here i inside =>
          obtain rfl : here = block := same
          dsimp only at behind before ⊢
          have notStart : i ≠ start := fun isStart =>
            kept (confined.definesAt_iff.mpr (by rw [isStart]))
          exact ⟨rfl, by omega, by omega, by omega⟩
      | jump => exact absurd behind (Nat.not_lt_zero _)

/-- A confined register is not live between blocks. -/
theorem not_mem_live {liveness : Liveness g.blocks.length} (found : g.liveness = .ok liveness)
    (other : Fin g.blocks.length) :
    reg ∉ liveness.liveIn.get other ∧ reg ∉ liveness.liveOut.get other := by
  obtain ⟨_, _, rfl⟩ := liveness_eq_ok found
  have notIn (other : Fin g.blocks.length) :
      reg ∉ (g.livenessAlong (.ofSuccs g.flow.targets)).liveIn.get other := fun live =>
    absurd (confined.needs (mem_liveIn_iff_needs.mp live).2).2.1 (Nat.not_lt_zero _)
  refine ⟨notIn other, fun live => ?_⟩
  obtain ⟨succ, _, live⟩ := (solves_livenessAlong.bottom other reg).mp live
  exact notIn succ live

end Confines

/-- A function cut into pieces: what becomes of its blocks, with the registers handed out for every
piece. -/
structure Cut (f : Func) (gone : List Reg) (g : Func) (temps : List Reg)
    (pieces : Nat → List (List Instr)) (parts : Nat → List (List Reg)) : Prop where
  length : g.blocks.length = f.blocks.length
  blocks : ∀ {block : Nat} {code : Block}, f.blocks[block]? = some code → ∃ other,
    g.blocks[block]? = some other ∧ code.InPieces gone other (pieces block) (parts block)
  outside : ∀ {block : Nat}, f.blocks[block]? = none → (parts block).flatten = []
  nodup : ∀ block, (parts block).flatten.Nodup
  own : ∀ {block other : Nat} {reg : Reg}, reg ∈ (parts block).flatten →
    reg ∈ (parts other).flatten → block = other
  mem_iff : ∀ {reg : Reg}, reg ∈ temps ↔ ∃ block, reg ∈ (parts block).flatten

theorem exists_cut (f g : Func) (eased : EasedBlocks gone f.blocks temps g.blocks)
    (nodup : temps.Nodup) : ∃ pieces parts, f.Cut gone g temps pieces parts := by
  obtain ⟨share, areEased, outside, nodupShare, covers, own⟩ := eased.exists_shares nodup
  have cut (block : Nat) : ∃ pieces parts, parts.flatten = share block ∧ ∀ code,
      f.blocks[block]? = some code → ∃ other, g.blocks[block]? = some other ∧
        code.InPieces gone other pieces parts := by
    cases isCode : f.blocks[block]? with
    | none =>
        have beyond := outside block (List.getElem?_eq_none_iff.mp isCode)
        exact ⟨[], [], beyond.symm, nofun⟩
    | some code =>
        obtain ⟨other, isOther, easedBlock⟩ := areEased block code isCode
        obtain ⟨pieces, parts, inPieces, isFlat⟩ := easedBlock.exists_pieces
        refine ⟨pieces, parts, isFlat, fun found isFound => ?_⟩
        obtain rfl := Option.some.inj isFound
        exact ⟨other, isOther, inPieces⟩
  choose pieces parts isFlat inPieces using cut
  refine ⟨pieces, parts, eased.exists_parts.1, fun isCode => inPieces _ _ isCode,
    fun {block} none => ?_, fun block => ?_, fun {block other reg} inBlock inOther => ?_, fun {reg} => ?_⟩
  · rw [isFlat, outside block (List.getElem?_eq_none_iff.mp none)]
  · rw [isFlat]
    exact nodupShare block
  · rw [isFlat] at inBlock inOther
    exact own block other reg inBlock inOther
  · simp only [isFlat]
    exact covers reg

namespace Cut

variable {pieces : Nat → List (List Instr)} {parts : Nat → List (List Reg)}
  (cut : f.Cut gone g temps pieces parts) (lost : VirtualsBelow base gone)
include cut lost

theorem mem_regs {block : Fin g.blocks.length} (mentioned : reg ∈ (g.blocks.get block).regs) :
    reg ∈ f.regSet ∧ reg ∉ gone ∨ reg = .sp ∨ reg ∈ (parts block).flatten := by
  have bound : block.val < f.blocks.length := cut.length ▸ block.isLt
  have isCode := List.getElem?_eq_getElem bound
  obtain ⟨other, isOther, inPieces⟩ := cut.blocks isCode
  obtain ⟨_, rfl⟩ := List.getElem?_eq_some_iff.mp isOther
  refine (inPieces.mem_regs lost mentioned).imp_left (And.imp_left fun inCode => ?_)
  exact mem_regSet.mpr ⟨_, List.mem_of_getElem? isCode, inCode⟩

theorem mem_regSet (mentioned : reg ∈ g.regSet) :
    reg ∈ f.regSet ∧ reg ∉ gone ∨ reg = .sp ∨ reg ∈ temps := by
  obtain ⟨other, isOther, inOther⟩ := Func.mem_regSet.mp mentioned
  obtain ⟨block, rfl⟩ := List.get_of_mem isOther
  refine (cut.mem_regs lost inOther).imp_right (Or.imp_right fun inParts => ?_)
  exact cut.mem_iff.mpr ⟨block, inParts⟩

/-- The registers handed out for a piece are confined to it. -/
theorem confines {block i : Nat} {code : Block} {part : List Reg} (isCode : f.blocks[block]? = some code)
    (isPart : (parts block)[i]? = some part) (member : reg ∈ part) (isNew : reg ∉ f.regSet)
    (notPointer : reg ≠ .sp) :
    ∃ here : Fin g.blocks.length, here.val = block ∧ ∃ start, boundary (pieces block) i ≤ start ∧
      g.Confines reg here start (boundary (pieces block) (i + 1)) ∧
      (reg ∈ (g.blocks.get here).term.uses → i = code.instrs.length) := by
  obtain ⟨other, isOther, inPieces⟩ := cut.blocks isCode
  obtain ⟨bound, rfl⟩ := List.getElem?_eq_some_iff.mp isOther
  have absent : reg ∉ code.regs := fun inCode =>
    isNew (Func.mem_regSet.mpr ⟨code, List.mem_of_getElem? isCode, inCode⟩)
  obtain ⟨start, low, confined, term⟩ :=
    inPieces.confines lost (cut.nodup block) isPart member absent notPointer
  refine ⟨⟨block, bound⟩, rfl, start, low, ⟨confined, fun apart different mentioned => ?_⟩, term⟩
  rcases cut.mem_regs lost mentioned with ⟨old, _⟩ | isPointer | inParts
  · exact isNew old
  · exact notPointer isPointer
  · refine different (Fin.ext (cut.own inParts ?_))
    exact List.mem_flatten.mpr ⟨part, List.mem_of_getElem? isPart, member⟩

theorem exists_confines (member : reg ∈ temps) (isNew : reg ∉ f.regSet) (notPointer : reg ≠ .sp) :
    ∃ here start stop, g.Confines reg here start stop := by
  obtain ⟨block, inParts⟩ := cut.mem_iff.mp member
  obtain ⟨part, isPart, inPart⟩ := List.mem_flatten.mp inParts
  obtain ⟨i, isPart⟩ := List.mem_iff_getElem?.mp isPart
  obtain ⟨code, isCode⟩ : ∃ code, f.blocks[block]? = some code := by
    by_contra none
    rw [cut.outside (Option.eq_none_iff_forall_ne_some.mpr (not_exists.mp none))] at inParts
    exact List.not_mem_nil inParts
  obtain ⟨here, _, start, _, confined, _⟩ := cut.confines lost isCode isPart inPart isNew notPointer
  exact ⟨here, start, _, confined⟩

end Cut

end Func

/-! ## Spilling -/

theorem exists_upper (numbers : List Nat) : ∃ bound, ∀ number ∈ numbers, number < bound :=
  ⟨numbers.sum + 1, fun _ member => Nat.lt_succ_of_le (List.le_sum_of_mem member)⟩

theorem exists_virtualsBelow {regs : List Reg} (virtual : ∀ reg ∈ regs, ∃ number, reg = .virtual number) :
    ∃ base, VirtualsBelow base regs := by
  obtain ⟨base, below⟩ := exists_upper (regs.filterMap Reg.virtual?)
  refine ⟨base, fun reg member => ?_⟩
  obtain ⟨number, rfl⟩ := virtual reg member
  exact ⟨number, rfl, below number (List.mem_filterMap.mpr ⟨_, member, rfl⟩)⟩

theorem Served.eq_self_of_kept {operands : List Reg} {change : Reg → Reg} {gone : List Reg}
    {temps : List (Nat × Nat)} (served : Served gone operands change (tempRegs temps))
    (kept : ∀ reg ∈ operands, reg ∉ gone) :
    temps = [] ∧ ∀ reg ∈ operands, change reg = reg := by
  refine ⟨List.eq_nil_iff_forall_not_mem.mpr fun pair isPair => ?_, fun reg operand =>
    served.kept reg operand (kept reg operand)⟩
  obtain ⟨reg, operand, isGone, _⟩ := served.used _ (mem_tempRegs.mpr ⟨pair, isPair, rfl⟩)
  exact kept reg operand isGone

/-- An instruction that mentions nothing that has gone stays as it is. -/
theorem Instr.Eased.eq_self {gone temps : List Reg} {instr : Instr} {piece : List Instr}
    (eased : instr.Eased gone temps piece) (kept : ∀ reg ∈ instr.uses ++ instr.defs, reg ∉ gone) :
    piece = [instr] := by
  cases eased with
  | @body _ use definition loaded stored _ uses defs =>
      obtain ⟨rfl, sameUses⟩ := uses.eq_self_of_kept fun reg operand =>
        kept reg (Instr.mem_regs_of_operand (List.mem_append_left _ operand))
      obtain ⟨rfl, sameDefs⟩ := defs.eq_self_of_kept fun reg operand =>
        kept reg (Instr.mem_regs_of_operand (List.mem_append_right _ operand))
      rw [Instr.mapOperands_eq_self sameUses sameDefs]
      rfl
  | fetch _ isGone => exact absurd isGone (kept _ (List.mem_append_left _ (List.mem_singleton_self _)))
  | save isGone _ => exact absurd isGone (kept _ (List.mem_append_right _ (List.mem_singleton_self _)))
  | pass _ isGone => exact absurd isGone (kept _ (List.mem_append_left _ (List.mem_singleton_self _)))
  | drop isGone => exact absurd isGone (kept _ (List.mem_append_left _ (List.mem_singleton_self _)))

theorem Block.InPieces.term_eq_self {gone : List Reg} {code other : Block} {pieces : List (List Instr)}
    {parts : List (List Reg)} (inPieces : code.InPieces gone other pieces parts)
    (kept : ∀ reg ∈ code.term.uses, reg ∉ gone) :
    other.term = code.term ∧ pieces[code.instrs.length]? = some [] := by
  obtain ⟨use, loaded, _, isPiece, served, isTerm⟩ := inPieces.term
  obtain ⟨rfl, sameUses⟩ := served.eq_self_of_kept fun reg operand =>
    kept reg (Terminator.mem_uses_of_mem_operandUses operand)
  exact ⟨isTerm.trans (Terminator.mapRegs_eq_self sameUses), isPiece⟩

namespace Func

variable {f relieved : Func} {spilled fresh : List Reg}

/-- Spilling cuts a function into pieces and hands out the registers the counter passes. -/
theorem cut_of_spill (unspilled : ∀ slot, Reg.spilled slot ∉ f.regSet)
    (counted : ∀ number, Reg.virtual number ∈ f.regSet → number < f.nextVirtual)
    (virtual : ∀ reg ∈ spilled, ∃ number, reg = .virtual number)
    (ok : (f.spill spilled).result = .ok (relieved, fresh)) :
    Handed f.nextVirtual relieved.nextVirtual fresh ∧ relieved.slots = f.slots + spilled.length ∧
      ∃ pieces parts, f.Cut spilled relieved fresh pieces parts := by
  have notPhysical : ∀ reg ∈ spilled, reg.isPhysical = false := by
    intro reg member
    obtain ⟨number, rfl⟩ := virtual reg member
    rfl
  obtain ⟨grown, slotOf, blocks, nextVirtual, isGrown, slotMap, _, areSpilled, rfl⟩ := spill_eq_ok ok
  have slotted : Slotted slotOf spilled := fun reg => by
    rw [slotted_assignSlots notPhysical isGrown]
    simp
  -- the code may access slots outside of its frame: any frame that holds them will do
  obtain ⟨slots, framed⟩ := exists_upper (f.blocks.flatMap fun block => block.instrs.filterMap Instr.slot?)
  have fits := f.fits_of_mem_regSet unspilled counted fun block isBlock instr isInstr slot isSlot =>
    framed slot (List.mem_flatMap.mpr ⟨block, isBlock, List.mem_filterMap.mpr ⟨instr, isInstr, isSlot⟩⟩)
  have none : VirtualsBelow f.nextVirtual [] := fun _ member => absurd member List.not_mem_nil
  obtain ⟨new, eased, renewed⟩ := (EasedBlocks.refl f.blocks).spill slotted slotMap fits
    (fun _ member => absurd member List.not_mem_nil) none List.nodup_nil (Nat.le_refl _) areSpilled
  have handed := handed_spillBlocks areSpilled
  have perm := handed.perm renewed.handed
  obtain ⟨pieces, parts, cut⟩ := f.exists_cut { grown with blocks, nextVirtual } eased renewed.nodup
  have grows := f.slots_assignSlots isGrown
  exact ⟨handed, grows, pieces, parts,
    { cut with mem_iff := perm.mem_iff.trans cut.mem_iff }⟩

/-- What spilling makes of a function: every instruction and every terminator gets a piece of code, and
the fresh registers of a piece live inside of it. -/
structure LocallySpilled (f : Func) (spilled : List Reg) (relieved : Func) (fresh : List Reg)
    (pieces : Nat → List (List Instr)) (parts : Nat → List (List Reg)) : Prop where
  cut : f.Cut spilled relieved fresh pieces parts
  gone : ∀ number, .virtual number ∈ spilled → number < f.nextVirtual →
    .virtual number ∉ relieved.regSet
  unmarked : ∀ slot, .spilled slot ∉ relieved.regSet
  slots : relieved.slots = f.slots + spilled.length
  distinct : fresh.Nodup
  isNew : ∀ reg ∈ fresh, reg ∉ f.regSet
  definedOnce : ∀ reg ∈ fresh, ∃! place, relieved.DefinesAt reg place
  dead : ∀ liveness, relieved.liveness = .ok liveness → ∀ reg ∈ fresh, ∀ block,
    reg ∉ liveness.liveIn.get block ∧ reg ∉ liveness.liveOut.get block
  range : ∀ block code i part, f.blocks[block]? = some code → (parts block)[i]? = some part →
    ∀ reg ∈ part, ∀ place, relieved.Needs reg place →
      place.block.val = block ∧ boundary (pieces block) i < place.position ∧
        place.position ≤ boundary (pieces block) (i + 1) ∧
        (place.position = boundary (pieces block) (i + 1) → i = code.instrs.length)
  kept : ∀ block code (i : Nat) (instr : Instr), f.blocks[block]? = some code →
    code.instrs[i]? = some instr → (∀ reg ∈ instr.uses ++ instr.defs, reg ∉ spilled) →
      (pieces block)[i]? = some [instr]
  keptTerm : ∀ block code other, f.blocks[block]? = some code → relieved.blocks[block]? = some other →
    (∀ reg ∈ code.term.uses, reg ∉ spilled) →
      other.term = code.term ∧ (pieces block)[code.instrs.length]? = some []

/-- Spill code is local: spilling virtual registers of a function without spilled ones hands out new
registers, each for the piece of code that takes the place of one instruction or terminator. -/
theorem spill_local (f : Func) (spilled : List Reg) (unspilled : ∀ slot, Reg.spilled slot ∉ f.regSet)
    (counted : ∀ number, Reg.virtual number ∈ f.regSet → number < f.nextVirtual)
    (virtual : ∀ reg ∈ spilled, ∃ number, reg = .virtual number)
    (room : (f.spill spilled).result ≠ .error .addOverflow) :
    ∃ relieved fresh pieces parts, (f.spill spilled).result = .ok (relieved, fresh) ∧
      f.LocallySpilled spilled relieved fresh pieces parts := by
  have notPhysical : ∀ reg ∈ spilled, reg.isPhysical = false := by
    intro reg member
    obtain ⟨number, rfl⟩ := virtual reg member
    rfl
  obtain ⟨⟨relieved, fresh⟩, ok⟩ := (f.spill_onlyOverflows notPhysical).exists_ok room
  obtain ⟨handed, slots, pieces, parts, cut⟩ := cut_of_spill unspilled counted virtual ok
  obtain ⟨base, lost⟩ := exists_virtualsBelow virtual
  have isNew (reg : Reg) (member : reg ∈ fresh) : reg ∉ f.regSet ∧ reg ≠ .sp := by
    obtain ⟨number, rfl, above, _⟩ := handed.mem_iff.mp member
    exact ⟨fun mentioned => absurd (counted number mentioned) (Nat.not_lt.mpr above), nofun⟩
  have confined (reg : Reg) (member : reg ∈ fresh) :
      ∃ here start stop, relieved.Confines reg here start stop :=
    cut.exists_confines lost member (isNew reg member).1 (isNew reg member).2
  refine ⟨relieved, fresh, pieces, parts, ok, ⟨cut, fun number isSpilled old mentioned => ?_,
    fun slot mentioned => ?_, slots, handed.nodup, fun reg member => (isNew reg member).1,
    fun reg member => ?_, fun liveness found reg member block => ?_,
    fun block code i part isCode isPart reg member place needs => ?_,
    fun block code i instr isCode isInstr kept => ?_,
    fun block code other isCode isOther kept => ?_⟩⟩
  · rcases cut.mem_regSet lost mentioned with ⟨_, kept⟩ | isPointer | isFresh
    · exact kept isSpilled
    · cases isPointer
    · obtain ⟨_, same, above, _⟩ := handed.mem_iff.mp isFresh
      cases same
      omega
  · rcases cut.mem_regSet lost mentioned with ⟨old, _⟩ | isPointer | isFresh
    · exact unspilled slot old
    · cases isPointer
    · obtain ⟨_, same, _⟩ := handed.mem_iff.mp isFresh
      cases same
  · obtain ⟨here, start, _, confined⟩ := confined reg member
    exact ⟨⟨here, start⟩, confined.definesAt_iff.mpr rfl, fun _ => confined.definesAt_iff.mp⟩
  · obtain ⟨_, _, _, confined⟩ := confined reg member
    exact confined.not_mem_live found block
  · have isFresh := isNew reg (cut.mem_iff.mpr ⟨block, List.mem_flatten.mpr
      ⟨part, List.mem_of_getElem? isPart, member⟩⟩)
    obtain ⟨here, rfl, start, low, confined, term⟩ :=
      cut.confines lost isCode isPart member isFresh.1 isFresh.2
    obtain ⟨sameBlock, behind, before, atStop⟩ := confined.needs needs
    exact ⟨congrArg Fin.val sameBlock, by omega, before, fun isStop => term (atStop isStop)⟩
  · obtain ⟨_, _, inPieces⟩ := cut.blocks isCode
    obtain ⟨part, piece, _, isPiece, eased⟩ := inPieces.eased isInstr
    rw [isPiece, eased.eq_self kept]
  · obtain ⟨_, isOther', inPieces⟩ := cut.blocks isCode
    obtain rfl := Option.some.inj (isOther.symm.trans isOther')
    exact inPieces.term_eq_self kept

theorem spill_local_doubling :
    doubling.Fits ∧ ∃ relieved fresh pieces parts,
      (doubling.spill [.virtual 1, .virtual 0]).result = .ok (relieved, fresh) ∧
      relieved.slots = 3 ∧ .virtual 0 ∉ relieved.regSet ∧
      doubling.LocallySpilled [.virtual 1, .virtual 0] relieved fresh pieces parts := by
  have fits : doubling.Fits := by decide
  have room : (doubling.spill [.virtual 1, .virtual 0]).result ≠ .error .addOverflow := by
    intro stopped
    have evaluated : (doubling.spill [.virtual 1, .virtual 0]).result.map Prod.snd =
        .ok [.virtual 2, .virtual 4, .virtual 3, .virtual 5, .virtual 6, .virtual 7] := by cbv
    rw [stopped] at evaluated
    cases evaluated
  obtain ⟨relieved, fresh, pieces, parts, ok, isLocal⟩ :=
    spill_local doubling [.virtual 1, .virtual 0] (fun _ member => fits.plain_of_mem_regSet member)
      (fun _ member => fits.plain_of_mem_regSet member) (by simp) room
  exact ⟨fits, relieved, fresh, pieces, parts, ok, isLocal.slots, isLocal.gone 0 (by simp) (by decide),
    isLocal⟩

/-- Writes a register and returns; the counter stands right behind it. -/
def relisting : Func :=
  { name := "relisting"
    blocks := [⟨"entry", [.li (.virtual 0) 1], .ret⟩]
    slots := 0
    nextVirtual := 1 }

/-- A listed register that the counter has not passed may be handed out for the spill code. -/
theorem spill_reuses_relisting :
    (∀ slot, Reg.spilled slot ∉ relisting.regSet) ∧
      (∀ number, Reg.virtual number ∈ relisting.regSet → number < relisting.nextVirtual) ∧
      ∃ relieved, (relisting.spill [.virtual 0, .virtual 1]).result = .ok (relieved, [.virtual 1]) ∧
        .virtual 1 ∈ relieved.regSet := by
  have fits : relisting.Fits := by decide
  refine ⟨fun _ member => fits.plain_of_mem_regSet member,
    fun _ member => fits.plain_of_mem_regSet member,
    { name := "relisting"
      blocks := [⟨"entry", [.li (.virtual 1) 1, .store (.virtual 1) (.slot 0)], .ret⟩]
      slots := 2
      nextVirtual := 2 }, by cbv, mem_regSet.mpr ⟨_, List.mem_singleton_self _, by decide⟩⟩

end Func

end Lowering.Machine
