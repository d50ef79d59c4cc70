import Lowering.Proofs.Machine.Reading
import Mathlib

/-!
# The control flow of printed functions

A walk through printed lines follows jumps to the lines of their labels and falls through everything
else.  It meets the blocks and instructions of the function in the order in which its terminators lead
from block to block, although the jump to the block that follows is not printed.
-/

namespace Lowering.Machine

/-- Where a walk stands: at a position after some branches were decided, or at its end. -/
inductive Spot where
  | inside (position decided : Nat)
  | returned
  /-- There is no such position. -/
  | lost
deriving DecidableEq, Repr

/-- What a walk meets. -/
inductive Visit (Block Instr : Type) where
  | enter (block : Block)
  | execute (instr : Instr)
deriving DecidableEq, Repr

/-- The line at which a walk through lines meets something. -/
def Visit.line : Visit (List Char) (List Char) → LineKind
  | enter name => .label name
  | execute text => .execute text

namespace Spot

variable {Meets : Type} {step : Spot → Spot × List Meets} {spot : Spot}

/-- Takes some steps, and lists what they meet. -/
def walk (step : Spot → Spot × List Meets) : Nat → Spot → Spot × List Meets
  | 0, spot => (spot, [])
  | n + 1, spot =>
      let (next, met) := step spot
      let (final, later) := walk step n next
      (final, met ++ later)

theorem walk_succ (n : Nat) : walk step (n + 1) spot =
    ((walk step n (step spot).1).1, (step spot).2 ++ (walk step n (step spot).1).2) := rfl

theorem walk_add (m n : Nat) : walk step (m + n) spot =
    ((walk step n (walk step m spot).1).1,
      (walk step m spot).2 ++ (walk step n (walk step m spot).1).2) := by
  induction m generalizing spot with
  | zero => simp [walk]
  | succ m ih =>
      rw [Nat.add_right_comm, walk_succ, ih, walk_succ, List.append_assoc]

theorem walk_of_stays (stays : step spot = (spot, [])) (n : Nat) :
    walk step n spot = (spot, []) := by
  induction n with
  | zero => rfl
  | succ n ih => rw [walk_succ, stays, ih, List.append_nil]

/-- The walk is at one of the first positions, or has returned. -/
def Within (bound : Nat) : Spot → Prop
  | inside position _ => position < bound
  | returned => True
  | lost => False

/-- Takes positions elsewhere. -/
def relocate (start : Nat → Nat) : Spot → Spot
  | inside position decided => .inside (start position) decided
  | returned => .returned
  | lost => .lost

theorem relocate_eq_returned_iff {start : Nat → Nat} :
    spot.relocate start = .returned ↔ spot = .returned := by
  cases spot <;> simp [relocate]

theorem Within.relocate_ne_lost {bound : Nat} {start : Nat → Nat} (within : spot.Within bound) :
    spot.relocate start ≠ .lost := by
  cases spot with
  | inside position decided => nofun
  | returned => nofun
  | lost => exact within.elim

end Spot

namespace Reading

/-- The line of a label. -/
def goto (kinds : List LineKind) (name : List Char) (decided : Nat) : Spot :=
  match kinds.idxOf? (.label name) with
  | some position => .inside position decided
  | none => .lost

/-- One line of a walk, where branch number `i` is taken if `outcomes i`. -/
def stride (kinds : List LineKind) (outcomes : Nat → Bool) :
    Spot → Spot × List (Visit (List Char) (List Char))
  | .inside position decided =>
      match kinds[position]? with
      | some (.label name) => (.inside (position + 1) decided, [.enter name])
      | some (.execute text) => (.inside (position + 1) decided, [.execute text])
      | some (.jump target) => (goto kinds target decided, [])
      | some (.branch target) =>
          if outcomes decided then (goto kinds target (decided + 1), [])
          else (.inside (position + 1) (decided + 1), [])
      | some .ret => (.returned, [])
      | none => (.lost, [])
  | spot => (spot, [])

/-- The first `n` lines of a walk from a label of a text. -/
def walk (text name : String) (outcomes : Nat → Bool) (n : Nat) :
    Spot × List (Visit (List Char) (List Char)) :=
  Spot.walk (stride (kinds text) outcomes) n (goto (kinds text) name.toList 0)

end Reading

/-- Where a terminator leads. -/
def Terminator.next (outcomes : Nat → Bool) (decided : Nat) : Terminator → Spot
  | .ret => .returned
  | .jump target => .inside target decided
  | .branch _ _ _ thenBlock elseBlock =>
      .inside (if outcomes decided then thenBlock else elseBlock) (decided + 1)

namespace Func

/-- One block of a walk from block to block, where branch number `i` is taken if `outcomes i`. -/
def traverse (f : Func) (outcomes : Nat → Bool) : Spot → Spot × List (Visit Nat Instr)
  | .inside block decided =>
      match f.blocks[block]? with
      | some code =>
          (code.term.next outcomes decided, .enter block :: code.instrs.map .execute)
      | none => (.lost, [])
  | spot => (spot, [])

/-- The first `n` blocks of a walk from the entry. -/
def walk (f : Func) (outcomes : Nat → Bool) (n : Nat) : Spot × List (Visit Nat Instr) :=
  Spot.walk (f.traverse outcomes) n (.inside 0 0)

/-- What a visit of a block or an instruction prints as. -/
inductive Prints (f : Func) : Visit Nat Instr → Visit (List Char) (List Char) → Prop where
  | enter {block : Nat} {code : Block} : f.blocks[block]? = some code →
      Prints f (.enter block) (.enter (f.blockLabel code).toList)
  | execute {instr : Instr} {text : String} : f.instrLine instr = .ok (.instr text) →
      Prints f (.execute instr) (.execute text.toList)

/-- The lines of a block, by what they mean: `start` says where the blocks begin. -/
structure LaidOut (f : Func) (kinds : List LineKind) (start : Nat → Nat) (block : Nat)
    (code : Block) (texts : List String) (ends : List Line) : Prop where
  instrs : List.Forall₂ (fun instr text => f.instrLine instr = .ok (.instr text)) code.instrs texts
  term : f.termLines block code.term = .ok ends
  lines : kinds.drop (start block) =
    .label (f.blockLabel code).toList :: texts.map (fun text => .execute text.toList) ++
      (ends.map Line.kind ++ kinds.drop (start (block + 1)))
  next : start (block + 1) = start block + (1 + texts.length) + ends.length
  label : ∀ decided, Reading.goto kinds (f.blockLabel code).toList decided =
    .inside (start block) decided

/-- Every block has its place in the text. -/
def Layout (f : Func) (kinds : List LineKind) (start : Nat → Nat) : Prop :=
  ∀ block code, f.blocks[block]? = some code →
    ∃ texts ends, f.LaidOut kinds start block code texts ends

end Func

section Walking

variable {f : Func} {kinds rest : List LineKind} {start : Nat → Nat} (outcomes : Nat → Bool)
  {position block : Nat} (decided : Nat)

/-- Lines that say nothing on control are passed one by one. -/
theorem Reading.walk_visits {visits : List (Visit (List Char) (List Char))}
    (found : kinds.drop position = visits.map Visit.line ++ rest) :
    Spot.walk (stride kinds outcomes) visits.length (.inside position decided) =
      (.inside (position + visits.length) decided, visits) := by
  induction visits generalizing position with
  | nil => rfl
  | cons visit visits ih =>
      have here : kinds[position]? = some visit.line := by
        rw [← List.head?_drop, found]
        rfl
      have later : kinds.drop (position + 1) = visits.map Visit.line ++ rest := by
        rw [← List.tail_drop, found]
        rfl
      have stepped : stride kinds outcomes (.inside position decided) =
          (.inside (position + 1) decided, [visit]) := by
        cases visit <;> simp only [stride, here, Visit.line]
      rw [List.length_cons, Spot.walk_succ, stepped, ih later, Nat.add_assoc,
        Nat.add_comm 1]
      rfl

namespace Func

theorem labelOf_eq_ok_iff {label : String} : f.labelOf block = .ok label ↔
    ∃ code, f.blocks[block]? = some code ∧ label = f.blockLabel code := by
  unfold labelOf fetch
  cases f.blocks[block]? with
  | none =>
      refine ⟨fun same => ?_, ?_⟩
      · cases same
      · rintro ⟨_, same, _⟩
        cases same
  | some code =>
      refine ⟨fun same => ⟨code, rfl, (Except.ok.inj same).symm⟩, ?_⟩
      rintro ⟨_, same, rfl⟩
      cases same
      rfl

variable (layout : f.Layout kinds start)
include layout

/-- A label leads to the beginning of its block. -/
theorem Layout.goto_label {target : Nat} {label : String} (isLabel : f.labelOf target = .ok label) :
    Reading.goto kinds label.toList decided = .inside (start target) decided := by
  obtain ⟨code, isCode, rfl⟩ := labelOf_eq_ok_iff.mp isLabel
  obtain ⟨_, _, laidOut⟩ := layout target code isCode
  exact laidOut.label decided

/-- A jump leads to the beginning of its target, also where no line is printed for it. -/
theorem Layout.walk_jump {target : Nat} {lines : List Line}
    (isJump : f.jumpLines block target = .ok lines)
    (found : kinds.drop position = lines.map Line.kind ++ rest)
    (next : start (block + 1) = position + lines.length) :
    ∃ n, Spot.walk (Reading.stride kinds outcomes) n (.inside position decided) =
      (.inside (start target) decided, []) := by
  unfold jumpLines at isJump
  split at isJump
  · next follows =>
      cases isJump
      exact ⟨0, by rw [follows, next]; rfl⟩
  · obtain ⟨label, isLabel, isJump⟩ := bind_eq_ok.mp isJump
    cases isJump
    have here : kinds[position]? = some (.jump label.toList) := by
      rw [← List.head?_drop, found]
      rfl
    refine ⟨1, ?_⟩
    rw [Spot.walk_succ, Reading.stride, here]
    show (Reading.goto kinds label.toList decided, []) = _
    rw [layout.goto_label _ isLabel]

/-- The lines of a terminator lead where the terminator does. -/
theorem Layout.walk_term {term : Terminator} {lines : List Line}
    (isTerm : f.termLines block term = .ok lines)
    (found : kinds.drop position = lines.map Line.kind ++ rest)
    (next : start (block + 1) = position + lines.length) :
    ∃ n, Spot.walk (Reading.stride kinds outcomes) n (.inside position decided) =
      ((term.next outcomes decided).relocate start, []) := by
  cases term with
  | ret =>
      cases isTerm
      have here : kinds[position]? = some .ret := by
        rw [← List.head?_drop, found]
        rfl
      refine ⟨1, ?_⟩
      rw [Spot.walk_succ, Reading.stride, here]
      rfl
  | jump target => exact layout.walk_jump outcomes decided isTerm found next
  | branch op lhs rhs thenBlock elseBlock =>
      obtain ⟨label, isLabel, isTerm⟩ := bind_eq_ok.mp isTerm
      obtain ⟨lines, isJump, isTerm⟩ := bind_eq_ok.mp isTerm
      cases isTerm
      have here : kinds[position]? = some (.branch label.toList) := by
        rw [← List.head?_drop, found]
        rfl
      have later : kinds.drop (position + 1) = lines.map Line.kind ++ rest := by
        rw [← List.tail_drop, found]
        rfl
      have stepped : Reading.stride kinds outcomes (.inside position decided) =
          (if outcomes decided then .inside (start thenBlock) (decided + 1)
            else .inside (position + 1) (decided + 1), []) := by
        rw [Reading.stride, here]
        show (if outcomes decided then (Reading.goto kinds label.toList (decided + 1), [])
          else (Spot.inside (position + 1) (decided + 1), [])) = _
        rw [layout.goto_label _ isLabel]
        split <;> rfl
      cases taken : outcomes decided with
      | true =>
          refine ⟨1, ?_⟩
          rw [Spot.walk_succ, stepped, taken]
          simp only [Terminator.next, taken]
          rfl
      | false =>
          rw [List.length_cons, ← Nat.add_assoc, Nat.add_right_comm] at next
          obtain ⟨n, walked⟩ := layout.walk_jump outcomes (decided + 1) isJump later next
          refine ⟨n + 1, ?_⟩
          rw [Spot.walk_succ, stepped, taken]
          simp only [Terminator.next, taken]
          exact Prod.ext (congrArg Prod.fst walked) (congrArg Prod.snd walked)

/-- The lines of a block meet what the block prints as, and lead where its terminator does. -/
theorem Layout.walk_block {code : Block} (isCode : f.blocks[block]? = some code) :
    ∃ n visits, 0 < n ∧
      Spot.walk (Reading.stride kinds outcomes) n (.inside (start block) decided) =
        ((code.term.next outcomes decided).relocate start, visits) ∧
      List.Forall₂ f.Prints (.enter block :: code.instrs.map .execute) visits := by
  obtain ⟨texts, ends, laidOut⟩ := layout block code isCode
  let visits : List (Visit (List Char) (List Char)) :=
    .enter (f.blockLabel code).toList :: texts.map fun text => .execute text.toList
  have found : kinds.drop (start block) =
      visits.map Visit.line ++ (ends.map Line.kind ++ kinds.drop (start (block + 1))) := by
    rw [laidOut.lines]
    simp [visits, Visit.line]
  have visited := Reading.walk_visits outcomes decided found
  have long : visits.length = 1 + texts.length := by
    simp [visits, Nat.add_comm]
  have left : kinds.drop (start block + visits.length) =
      ends.map Line.kind ++ kinds.drop (start (block + 1)) := by
    rw [← List.drop_drop, found, List.drop_left' (List.length_map ..)]
  obtain ⟨n, walked⟩ := layout.walk_term outcomes decided laidOut.term left
    (long ▸ laidOut.next)
  refine ⟨visits.length + n, visits, by omega, ?_, .cons (.enter isCode) ?_⟩
  · rw [Spot.walk_add, visited, walked, List.append_nil]
  · rw [List.forall₂_map_left_iff, List.forall₂_map_right_iff]
    exact laidOut.instrs.imp fun _ _ => .execute

omit layout in
/-- A walk from block to block stays in the function. -/
theorem within_traverse (targets : ∀ block ∈ f.blocks, ∀ target ∈ block.term.targets,
    target < f.blocks.length) {spot : Spot} (within : spot.Within f.blocks.length) :
    (f.traverse outcomes spot).1.Within f.blocks.length := by
  cases spot with
  | inside block decided =>
      obtain ⟨code, isCode⟩ : ∃ code, f.blocks[block]? = some code :=
        ⟨_, List.getElem?_eq_getElem within⟩
      have inside := targets code (List.mem_of_getElem? isCode)
      rw [traverse, isCode]
      show (code.term.next outcomes decided).Within f.blocks.length
      cases isTerm : code.term with
      | ret => trivial
      | jump target =>
          rw [isTerm] at inside
          exact inside target (List.mem_singleton_self _)
      | branch op lhs rhs thenBlock elseBlock =>
          rw [isTerm] at inside
          show (if outcomes decided then thenBlock else elseBlock) < f.blocks.length
          split
          · exact inside thenBlock (by simp [Terminator.targets])
          · exact inside elseBlock (by simp [Terminator.targets])
  | returned => trivial
  | lost => exact within.elim

/-- A walk through the lines goes along with every walk from block to block. -/
theorem Layout.walk_traverse
    (targets : ∀ block ∈ f.blocks, ∀ target ∈ block.term.targets, target < f.blocks.length)
    (n : Nat) (spot : Spot) (within : spot.Within f.blocks.length) :
    ∃ m visits, n ≤ m ∧
      Spot.walk (Reading.stride kinds outcomes) m (spot.relocate start) =
        ((Spot.walk (f.traverse outcomes) n spot).1.relocate start, visits) ∧
      List.Forall₂ f.Prints (Spot.walk (f.traverse outcomes) n spot).2 visits ∧
      (Spot.walk (f.traverse outcomes) n spot).1.Within f.blocks.length := by
  induction n generalizing spot with
  | zero => exact ⟨0, [], Nat.le_refl 0, rfl, .nil, within⟩
  | succ n ih =>
      obtain ⟨m, visits, le, walked, prints, stays⟩ :=
        ih _ (within_traverse outcomes targets within)
      rw [Spot.walk_succ]
      have first : ∃ k visits, 0 < k ∧ Spot.walk (Reading.stride kinds outcomes) k
            (spot.relocate start) = ((f.traverse outcomes spot).1.relocate start, visits) ∧
          List.Forall₂ f.Prints (f.traverse outcomes spot).2 visits := by
        cases spot with
        | inside block decided =>
            have isCode := List.getElem?_eq_getElem (l := f.blocks) within
            rw [traverse, isCode]
            exact layout.walk_block outcomes decided isCode
        | returned => exact ⟨1, [], Nat.one_pos, rfl, .nil⟩
        | lost => exact within.elim
      obtain ⟨k, met, positive, passed, printsMet⟩ := first
      refine ⟨k + m, met ++ visits, by omega, ?_, List.rel_append printsMet prints, stays⟩
      rw [Spot.walk_add, passed, walked]

end Func

end Walking

section Printing

variable {f : Func}

theorem exists_mapM_ok {α β γ : Type} {compute : α → Except Fault β} {list : List α} (wrap : γ → β)
    (related : α → γ → Prop) (ok : ∀ a ∈ list, ∃ c, compute a = .ok (wrap c) ∧ related a c) :
    ∃ results, list.mapM compute = .ok (results.map wrap) ∧ List.Forall₂ related list results := by
  induction list with
  | nil => exact ⟨[], rfl, .nil⟩
  | cons head rest ih =>
      obtain ⟨first, isFirst, relatedFirst⟩ := ok head List.mem_cons_self
      obtain ⟨others, areOthers, relatedOthers⟩ :=
        ih fun a member => ok a (List.mem_cons_of_mem _ member)
      refine ⟨first :: others, ?_, .cons relatedFirst relatedOthers⟩
      rw [List.mapM_cons]
      exact bind_eq_ok.mpr ⟨_, isFirst, bind_eq_ok.mpr ⟨_, areOthers, rfl⟩⟩

theorem idxOf?_append_cons {kinds later : List LineKind} {kind : LineKind} (new : kind ∉ kinds) :
    (kinds ++ kind :: later).idxOf? kind = some kinds.length := by
  induction kinds with
  | nil => simp [List.idxOf?_cons]
  | cons head kinds ih =>
      obtain ⟨other, new⟩ := not_or.mp (List.mem_cons.not.mp new)
      rw [List.cons_append, List.idxOf?_cons, ih new,
        if_neg (by simpa using Ne.symm other)]
      rfl

namespace Func

/-- Everything that printing a function relies on. -/
structure Printable (f : Func) : Prop where
  targets : ∀ block ∈ f.blocks, ∀ target ∈ block.term.targets, target < f.blocks.length
  framed : ∀ block ∈ f.blocks, ∀ instr ∈ block.instrs, ∀ slot, instr.slot? = some slot →
    slot < f.slots
  sized : ∀ block ∈ f.blocks, ∀ instr ∈ block.instrs, instr.needsFrame = true →
    ∃ size, f.frameSize = .ok size
  named : f.Named

variable {target : Nat}

theorem exists_labelOf (inside : target < f.blocks.length) :
    ∃ label, f.labelOf target = .ok label :=
  ⟨_, labelOf_eq_ok_iff.mpr ⟨_, List.getElem?_eq_getElem inside, rfl⟩⟩

theorem exists_jumpLines (block : Nat) (inside : target < f.blocks.length) :
    ∃ lines, f.jumpLines block target = .ok lines := by
  unfold jumpLines
  split
  · exact ⟨[], rfl⟩
  · obtain ⟨label, isLabel⟩ := exists_labelOf inside
    exact ⟨[.jump label], bind_eq_ok.mpr ⟨label, isLabel, rfl⟩⟩

theorem exists_termLines (block : Nat) {term : Terminator}
    (inside : ∀ target ∈ term.targets, target < f.blocks.length) :
    ∃ lines, f.termLines block term = .ok lines := by
  cases term with
  | ret => exact ⟨[.ret], rfl⟩
  | jump target => exact exists_jumpLines block (inside target (List.mem_singleton_self _))
  | branch op lhs rhs thenBlock elseBlock =>
      obtain ⟨label, isLabel⟩ := exists_labelOf (inside thenBlock (by simp [Terminator.targets]))
      obtain ⟨lines, isJump⟩ := exists_jumpLines block (inside elseBlock (by simp [Terminator.targets]))
      exact ⟨.branch op lhs rhs label :: lines,
        bind_eq_ok.mpr ⟨label, isLabel, bind_eq_ok.mpr ⟨lines, isJump, rfl⟩⟩⟩

theorem Named.isWord_labelOf (named : f.Named) {label : String}
    (isLabel : f.labelOf target = .ok label) : IsWord label := by
  obtain ⟨code, isCode, rfl⟩ := labelOf_eq_ok_iff.mp isLabel
  exact named.blockLabel (List.mem_of_getElem? isCode)

theorem Named.clear_jumpLines (named : f.Named) {block : Nat} {lines : List Line}
    (isJump : f.jumpLines block target = .ok lines) :
    (∀ line ∈ lines, line.Clear) ∧ ∀ line ∈ lines, ∀ name, line.kind ≠ .label name := by
  unfold jumpLines at isJump
  split at isJump
  · cases isJump
    exact ⟨List.forall_mem_nil _, List.forall_mem_nil _⟩
  · obtain ⟨label, isLabel, isJump⟩ := bind_eq_ok.mp isJump
    cases isJump
    exact ⟨List.forall_mem_singleton.mpr (named.isWord_labelOf isLabel), by simp [Line.kind]⟩

theorem Named.clear_termLines (named : f.Named) {block : Nat} {term : Terminator} {lines : List Line}
    (isTerm : f.termLines block term = .ok lines) :
    (∀ line ∈ lines, line.Clear) ∧ ∀ line ∈ lines, ∀ name, line.kind ≠ .label name := by
  cases term with
  | ret =>
      cases isTerm
      exact ⟨by simp [Line.Clear], by simp [Line.kind]⟩
  | jump target => exact named.clear_jumpLines isTerm
  | branch op lhs rhs thenBlock elseBlock =>
      obtain ⟨label, isLabel, isTerm⟩ := bind_eq_ok.mp isTerm
      obtain ⟨lines, isJump, isTerm⟩ := bind_eq_ok.mp isTerm
      cases isTerm
      obtain ⟨clear, plain⟩ := named.clear_jumpLines isJump
      exact ⟨List.forall_mem_cons.mpr ⟨named.isWord_labelOf isLabel, clear⟩,
        List.forall_mem_cons.mpr ⟨by simp [Line.kind], plain⟩⟩

/-- What the lines of a block consist of. -/
structure IsRow (f : Func) (block : Nat) (code : Block) (texts : List String) (ends row : List Line) :
    Prop where
  lines : row = .label (f.blockLabel code) :: texts.map .instr ++ ends
  instrs : List.Forall₂ (fun instr text => f.instrLine instr = .ok (.instr text)) code.instrs texts
  term : f.termLines block code.term = .ok ends
  clear : ∀ line ∈ row, line.Clear
  labels : ∀ line ∈ row, ∀ name, line.kind = .label name → name = (f.blockLabel code).toList

theorem Printable.blockLines (printable : f.Printable) (block : Nat) {code : Block}
    (isCode : code ∈ f.blocks) :
    ∃ row, f.blockLines block code = .ok row ∧ ∃ texts ends, f.IsRow block code texts ends row := by
  have named := printable.named
  obtain ⟨texts, body, printed⟩ := exists_mapM_ok Line.instr
    (fun instr text => (Line.instr text).Clear ∧ f.instrLine instr = .ok (.instr text))
    fun instr isInstr =>
      let ⟨text, isText, clear⟩ := instrLine_eq_ok (printable.framed code isCode instr isInstr)
        (printable.sized code isCode instr isInstr) (named.symbols code isCode instr isInstr)
      ⟨text, isText, clear, isText⟩
  obtain ⟨clearTexts, printed⟩ := (List.forall₂_and_left _ _).mp printed.flip
  obtain ⟨ends, isTerm⟩ := exists_termLines block (printable.targets code isCode)
  obtain ⟨clearEnds, plain⟩ := named.clear_termLines isTerm
  refine ⟨_, bind_eq_ok.mpr ⟨_, body, bind_eq_ok.mpr ⟨ends, isTerm, rfl⟩⟩, texts, ends, rfl,
    printed.flip, isTerm, ?_, ?_⟩
  · intro line member
    rcases List.mem_append.mp member with member | isEnd
    · rcases List.mem_cons.mp member with rfl | isInstr
      · exact named.blockLabel isCode
      · obtain ⟨text, isText, rfl⟩ := List.mem_map.mp isInstr
        exact clearTexts text isText
    · exact clearEnds line isEnd
  · intro line member name isLabel
    rcases List.mem_append.mp member with member | isEnd
    · rcases List.mem_cons.mp member with rfl | isInstr
      · exact (LineKind.label.inj isLabel).symm
      · obtain ⟨text, _, rfl⟩ := List.mem_map.mp isInstr
        cases isLabel
    · exact absurd isLabel (plain line isEnd name)

/-- Blocks with distinct labels have distinct lines for them. -/
theorem blockLabel_injective {first second : Block}
    (same : (f.blockLabel first).toList = (f.blockLabel second).toList) :
    first.label = second.label := by
  unfold blockLabel at same
  simp only [String.toList_append] at same
  exact String.toList_inj.mp (List.append_cancel_left same)

theorem name_ne_blockLabel (code : Block) : f.name.toList ≠ (f.blockLabel code).toList := by
  intro same
  have long := congrArg List.length same
  simp only [blockLabel, String.toList_append, List.length_append, String.reduceToList,
    List.length_singleton] at long
  omega

/-- The lines before the blocks. -/
def header (f : Func) : List Line := [.globl f.name, .label f.name]

section Rows

variable {rows : List (List Line)} {block : Nat} {row : List Line}

/-- Where a block begins. -/
def startOf (f : Func) (rows : List (List Line)) (block : Nat) : Nat :=
  (f.header ++ (rows.take block).flatten).length

theorem lines_split (isRow : rows[block]? = some row) :
    f.header ++ rows.flatten =
      (f.header ++ (rows.take block).flatten) ++ (row ++ (rows.drop (block + 1)).flatten) := by
  obtain ⟨inside, rfl⟩ := List.getElem?_eq_some_iff.mp isRow
  have split : rows.flatten =
      (rows.take block).flatten ++ (rows[block] ++ (rows.drop (block + 1)).flatten) := by
    rw [← List.flatten_cons, ← List.drop_eq_getElem_cons inside, ← List.flatten_append,
      List.take_append_drop]
  rw [split, List.append_assoc]

theorem startOf_succ (isRow : rows[block]? = some row) :
    f.startOf rows (block + 1) = f.startOf rows block + row.length := by
  unfold startOf
  rw [List.take_add_one, isRow, Option.toList_some, List.flatten_append, ← List.append_assoc,
    List.length_append]
  simp

theorem drop_startOf (isRow : rows[block]? = some row) :
    (f.header ++ rows.flatten).drop (f.startOf rows block) =
      row ++ (f.header ++ rows.flatten).drop (f.startOf rows (block + 1)) := by
  have split := lines_split (f := f) isRow
  rw [startOf_succ isRow, ← List.drop_drop, split, startOf, List.drop_left, List.drop_left]

/-- Each block has a row of lines of its own. -/
def Rows (f : Func) (rows : List (List Line)) : Prop :=
  List.Forall₂ (fun (numbered : Nat × Block) row =>
    ∃ texts ends, f.IsRow numbered.1 numbered.2 texts ends row) (f.blocks.mapIdx Prod.mk) rows

theorem Printable.lines (printable : f.Printable) :
    ∃ rows, f.lines = .ok (f.header ++ rows.flatten) ∧ f.Rows rows := by
  obtain ⟨rows, printed, areRows⟩ : ∃ rows, (f.blocks.mapIdx Prod.mk).mapM
      (fun numbered => f.blockLines numbered.1 numbered.2) = .ok (rows.map id) ∧ f.Rows rows := by
    refine exists_mapM_ok id _ fun numbered member => ?_
    obtain ⟨block, inside, rfl⟩ := List.mem_mapIdx.mp member
    exact printable.blockLines block (List.getElem_mem inside)
  rw [List.map_id] at printed
  exact ⟨rows, bind_eq_ok.mpr ⟨rows, printed, rfl⟩, areRows⟩

variable (areRows : f.Rows rows)
include areRows

theorem Rows.exists_row {code : Block} (isCode : f.blocks[block]? = some code) :
    ∃ row texts ends, rows[block]? = some row ∧ f.IsRow block code texts ends row := by
  obtain ⟨inside, rfl⟩ := List.getElem?_eq_some_iff.mp isCode
  have insideNumbered : block < (f.blocks.mapIdx Prod.mk).length := by
    rw [List.length_mapIdx]
    exact inside
  have insideRows : block < rows.length := areRows.length_eq ▸ insideNumbered
  have isRow := areRows.get insideNumbered insideRows
  simp only [List.get_eq_getElem, List.getElem_mapIdx] at isRow
  obtain ⟨texts, ends, isRow⟩ := isRow
  exact ⟨_, texts, ends, List.getElem?_eq_getElem insideRows, isRow⟩

theorem Rows.exists_code
    (isRow : rows[block]? = some row) : ∃ code, f.blocks[block]? = some code := by
  obtain ⟨inside, _⟩ := List.getElem?_eq_some_iff.mp isRow
  rw [← areRows.length_eq, List.length_mapIdx] at inside
  exact ⟨_, List.getElem?_eq_getElem inside⟩

theorem Rows.exists_of_mem (isRow : row ∈ rows) :
    ∃ block code texts ends, f.IsRow block code texts ends row := by
  obtain ⟨block, sameRow⟩ := List.mem_iff_getElem?.mp isRow
  obtain ⟨code, isCode⟩ := areRows.exists_code sameRow
  obtain ⟨_, texts, ends, isRow, parts⟩ := areRows.exists_row isCode
  cases isRow.symm.trans sameRow
  exact ⟨block, code, texts, ends, parts⟩

theorem Rows.label_not_mem (distinct : (f.blocks.map Block.label).Nodup) {code : Block}
    (isCode : f.blocks[block]? = some code) :
    LineKind.label (f.blockLabel code).toList ∉
      (f.header ++ (rows.take block).flatten).map Line.kind := by
  intro member
  obtain ⟨line, isLine, isLabel⟩ := List.mem_map.mp member
  rcases List.mem_append.mp isLine with inHeader | inRows
  · rcases List.mem_cons.mp inHeader with rfl | isName
    · cases isLabel
    · cases List.mem_singleton.mp isName
      exact name_ne_blockLabel code (LineKind.label.inj isLabel)
  · obtain ⟨row, isRow, inRow⟩ := List.mem_flatten.mp inRows
    obtain ⟨earlier, before, rfl⟩ := List.mem_take_iff_getElem.mp isRow
    have sameRow := List.getElem?_eq_getElem (Nat.lt_of_lt_of_le before (Nat.min_le_right _ _))
    obtain ⟨other, isOther⟩ := areRows.exists_code sameRow
    obtain ⟨_, texts, ends, isRow, row⟩ := areRows.exists_row isOther
    cases isRow.symm.trans sameRow
    have sameLabel := blockLabel_injective (row.labels line inRow _ isLabel)
    have here : (f.blocks.map Block.label)[block]? = some code.label := by
      rw [List.getElem?_map, isCode, Option.map_some]
    have there : (f.blocks.map Block.label)[earlier]? = some code.label := by
      rw [List.getElem?_map, isOther, Option.map_some, sameLabel]
    have inside : earlier < (f.blocks.map Block.label).length :=
      (List.getElem?_eq_some_iff.mp there).1
    have same : earlier = block := (List.getElem?_inj inside distinct).mp (there.trans here.symm)
    omega

theorem Rows.layout (distinct : (f.blocks.map Block.label).Nodup) :
    f.Layout ((f.header ++ rows.flatten).map Line.kind) (f.startOf rows) := by
  intro block code isCode
  obtain ⟨row, texts, ends, isRow, parts⟩ := areRows.exists_row isCode
  refine ⟨texts, ends, parts.instrs, parts.term, ?_, ?_, fun decided => ?_⟩
  · rw [← List.map_drop, drop_startOf isRow, List.map_append, parts.lines, List.map_drop]
    simp [Line.kind, Function.comp_def]
  · rw [startOf_succ isRow, parts.lines]
    simp only [List.length_append, List.length_cons, List.length_map]
    omega
  · have split : (f.header ++ rows.flatten).map Line.kind =
        (f.header ++ (rows.take block).flatten).map Line.kind ++
          .label (f.blockLabel code).toList ::
            ((texts.map Line.instr ++ ends) ++ (rows.drop (block + 1)).flatten).map Line.kind := by
      rw [lines_split isRow, List.map_append, parts.lines]
      rfl
    unfold Reading.goto
    rw [split, idxOf?_append_cons (areRows.label_not_mem distinct isCode), List.length_map]
    rfl

theorem Rows.clear (named : f.Named) :
    ∀ line ∈ f.header ++ rows.flatten, line.Clear := by
  intro line member
  rcases List.mem_append.mp member with inHeader | inRows
  · rcases List.mem_cons.mp inHeader with rfl | isName
    · exact named.function
    · rw [List.mem_singleton.mp isName]
      exact named.function
  · obtain ⟨row, isRow, inRow⟩ := List.mem_flatten.mp inRows
    obtain ⟨_, _, _, _, parts⟩ := areRows.exists_of_mem isRow
    exact parts.clear line inRow

omit areRows in
theorem Printable.text (printable : f.Printable) :
    ∃ text rows, f.text = .ok text ∧
      Reading.kinds text = (f.header ++ rows.flatten).map Line.kind ∧ f.Rows rows := by
  obtain ⟨rows, isLines, areRows⟩ := printable.lines
  exact ⟨_, rows, bind_eq_ok.mpr ⟨_, isLines, rfl⟩,
    Reading.kinds_join (areRows.clear printable.named), areRows⟩

omit areRows in
theorem goto_name (rows : List (List Line)) (decided : Nat) :
    Reading.goto ((f.header ++ rows.flatten).map Line.kind) f.name.toList decided =
      .inside 1 decided := by
  unfold Reading.goto
  rw [show (f.header ++ rows.flatten).map Line.kind = [(Line.globl f.name).kind] ++
    .label f.name.toList :: rows.flatten.map Line.kind from rfl,
    idxOf?_append_cons (by simp [Line.kind])]
  rfl

end Rows

/-- The text of a function prints, and whichever branches are taken, a walk from the label of the
function through its lines never leaves them.  It meets the labels and instructions of the blocks in
the order in which the terminators lead through the function, and returns when they do. -/
theorem walk_text (f : Func) (printable : f.Printable) (nonempty : f.blocks ≠ [])
    (distinct : (f.blocks.map Block.label).Nodup) :
    ∃ text, f.text = .ok text ∧ ∀ outcomes : Nat → Bool,
      (∀ n, (Reading.walk text f.name outcomes n).1 ≠ .lost) ∧
      ∀ n, ∃ m visits, n ≤ m ∧
        (Reading.walk text f.name outcomes m).2 = .enter f.name.toList :: visits ∧
        List.Forall₂ f.Prints (f.walk outcomes n).2 visits ∧
        ((Reading.walk text f.name outcomes m).1 = .returned ↔ (f.walk outcomes n).1 = .returned) := by
  obtain ⟨text, rows, isText, areKinds, areRows⟩ := printable.text
  refine ⟨text, isText, fun outcomes => ?_⟩
  have along (n : Nat) : ∃ m visits, n ≤ m ∧
      Reading.walk text f.name outcomes m =
        ((f.walk outcomes n).1.relocate (f.startOf rows), .enter f.name.toList :: visits) ∧
      List.Forall₂ f.Prints (f.walk outcomes n).2 visits ∧
      (f.walk outcomes n).1.Within f.blocks.length := by
    obtain ⟨m, visits, le, goes, prints, within⟩ := (areRows.layout distinct).walk_traverse outcomes
      printable.targets n (.inside 0 0) (List.length_pos_of_ne_nil nonempty)
    refine ⟨m + 1, visits, Nat.le_succ_of_le le, ?_, prints, within⟩
    have begun : Reading.stride ((f.header ++ rows.flatten).map Line.kind) outcomes (.inside 1 0) =
        ((Spot.inside 0 0).relocate (f.startOf rows), [.enter f.name.toList]) := rfl
    rw [Reading.walk, areKinds, goto_name, Spot.walk_succ, begun, goes]
    rfl
  refine ⟨fun n isLost => ?_, fun n => ?_⟩
  · obtain ⟨m, _, le, reached, _, within⟩ := along n
    obtain ⟨k, rfl⟩ := Nat.exists_eq_add_of_le le
    rw [Reading.walk, Spot.walk_add] at reached
    rw [Reading.walk] at isLost
    rw [isLost, Spot.walk_of_stays rfl] at reached
    exact within.relocate_ne_lost (congrArg Prod.fst reached).symm
  · obtain ⟨m, visits, le, reached, prints, _⟩ := along n
    refine ⟨m, visits, le, by rw [reached], prints, ?_⟩
    rw [reached]
    exact Spot.relocate_eq_returned_iff

/-- Counts a slot down in a loop whose blocks are not in the order of the walk. -/
def pacing : Func where
  name := "pacing"
  blocks :=
    [⟨"entry", [.spGrow, .la (.virtual 0) "steps", .store (.virtual 0) (.slot 0)], .jump 2⟩,
      ⟨"exit", [.spRecover], .ret⟩,
      ⟨"loop", [.load (.virtual 1) (.slot 0), .aluImm .addi (.virtual 1) (.virtual 1) (-1),
        .store (.virtual 1) (.slot 0)], .branch .bne (.virtual 1) (.virtual 1) 2 1⟩]
  slots := 1
  nextVirtual := 2

theorem printable_pacing : pacing.Printable where
  targets := by decide
  framed := by decide
  sized := fun _ _ _ _ _ => ⟨16, rfl⟩
  named := ⟨by decide, by decide, by decide⟩

theorem walk_text_pacing : pacing.Printable ∧ pacing.blocks ≠ [] ∧
    (pacing.blocks.map Block.label).Nodup ∧
    ∃ text, pacing.text = .ok text ∧ ∀ outcomes : Nat → Bool,
      (∀ n, (Reading.walk text "pacing" outcomes n).1 ≠ .lost) ∧
      ∀ n, ∃ m visits, n ≤ m ∧
        (Reading.walk text "pacing" outcomes m).2 = .enter "pacing".toList :: visits ∧
        List.Forall₂ pacing.Prints (pacing.walk outcomes n).2 visits ∧
        ((Reading.walk text "pacing" outcomes m).1 = .returned ↔
          (pacing.walk outcomes n).1 = .returned) :=
  ⟨printable_pacing, by decide, by decide,
    walk_text pacing printable_pacing (by decide) (by decide)⟩

/-- A frame with so many slots that its bytes cannot be counted. -/
def vast : Func where
  name := "vast"
  blocks := [⟨"entry", [.store (.physical .ra) (.slot 0)], .ret⟩]
  slots := 4611686018427387904
  nextVirtual := 0

/-- Slots below the number of slots are not enough: without a frame size there is no text. -/
theorem text_vast : vast.blocks ≠ [] ∧
    (∀ block ∈ vast.blocks, ∀ target ∈ block.term.targets, target < vast.blocks.length) ∧
    (∀ block ∈ vast.blocks, ∀ instr ∈ block.instrs, ∀ slot, instr.slot? = some slot →
      slot < vast.slots) ∧
    (vast.blocks.map Block.label).Nodup ∧ vast.Named ∧ vast.text = .error .mulOverflow :=
  ⟨by decide, by decide, by decide, by decide, ⟨by decide, by decide, by decide⟩, by decide⟩

end Func

end Printing

end Lowering.Machine
