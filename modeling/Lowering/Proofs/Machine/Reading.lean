import Lowering.Machine.Printing
import Mathlib

/-!
# Reading printed assembly

A line of assembly text is a label, a conditional branch, a jump, a return, or something that is executed
before control goes on to the next line.  The printed lines of a function whose names are words can be
told apart by their text alone.
-/

namespace Lowering.Machine

/-- What a line of assembly text means for control. -/
inductive LineKind where
  | label (name : List Char)
  | branch (target : List Char)
  | jump (target : List Char)
  | ret
  /-- Anything else is executed, and control goes on to the next line. -/
  | execute (text : List Char)
deriving DecidableEq, Repr

namespace Reading

/-- The lines of a text. -/
def splitLines (text : List Char) : List (List Char) :=
  text.foldr (fun c lines =>
    if c = '\n' then [] :: lines
    else
      match lines with
      | [] => [[c]]
      | line :: rest => (c :: line) :: rest) []

def firstWord (text : List Char) : List Char := text.takeWhile (· ≠ ' ')

def lastWord (text : List Char) : List Char := (text.reverse.takeWhile (· ≠ ' ')).reverse

/-- The operations that branch on a condition. -/
def branchNames : List (List Char) := ["beq", "bne", "blt", "bge"].map String.toList

/-- Reads one line: operations are indented, labels end in a colon. -/
def kind (line : List Char) : LineKind :=
  match line with
  | '\t' :: operation =>
      if operation = "ret".toList then .ret
      else if firstWord operation = "j".toList then .jump (lastWord operation)
      else if firstWord operation ∈ branchNames then .branch (lastWord operation)
      else .execute operation
  | _ => if line.getLast? = some ':' then .label line.dropLast else .execute line

/-- Reads a text line by line. -/
def kinds (text : String) : List LineKind := (splitLines text.toList).map kind

end Reading

/-- A text without blanks, tabs and line breaks, such as an identifier. -/
def IsWord (text : String) : Prop := ∀ c ∈ [' ', '\t', '\n'], c ∉ text.toList

instance (text : String) : Decidable (IsWord text) := List.decidableBAll _ _

namespace Line

/-- What a printed line is meant to say. -/
def kind : Line → LineKind
  | globl name => .execute (".globl\t" ++ name).toList
  | label name => .label name.toList
  | instr text => .execute text.toList
  | branch _ _ _ target => .branch target.toList
  | jump target => .jump target.toList
  | ret => .ret

/-- The names in a line are words, and an instruction is neither a branch nor a jump. -/
def Clear : Line → Prop
  | globl name | label name | jump name | branch _ _ _ name => IsWord name
  | instr text => '\n' ∉ text.toList ∧ ∃ op operands, text = operation op operands ∧ IsWord op ∧
      op.toList ∉ "j".toList :: Reading.branchNames
  | ret => True

end Line

section Characters

variable {c : Char} {text : String}

theorem IsWord.newline_not_mem (isWord : IsWord text) : '\n' ∉ text.toList := isWord _ (by decide)

theorem mem_intercalate {sep : List Char} {parts : List (List Char)}
    (member : c ∈ sep.intercalate parts) : c ∈ sep ∨ ∃ part ∈ parts, c ∈ part := by
  induction parts with
  | nil => cases member
  | cons first rest ih =>
      cases rest with
      | nil => exact .inr ⟨first, List.mem_cons_self, by simpa [List.intercalate] using member⟩
      | cons second rest =>
          rw [List.intercalate_cons_cons] at member
          rcases List.mem_append.mp member with member | member
          · rcases List.mem_append.mp member with here | between
            · exact .inr ⟨first, List.mem_cons_self, here⟩
            · exact .inl between
          · rcases ih member with between | ⟨part, isPart, inPart⟩
            · exact .inl between
            · exact .inr ⟨part, List.mem_cons_of_mem _ isPart, inPart⟩

theorem toList_operation (op : String) (operands : List String) :
    (operation op operands).toList =
      op.toList ++ ' ' :: ", ".toList.intercalate (operands.map String.toList) := by
  unfold operation
  simp [String.toList_append, String.toList_intercalate]

theorem newline_not_mem_operation {op : String} {operands : List String} (inOp : '\n' ∉ op.toList)
    (inOperands : ∀ operand ∈ operands, '\n' ∉ operand.toList) :
    '\n' ∉ (operation op operands).toList := by
  intro member
  rw [toList_operation] at member
  rcases List.mem_append.mp member with here | member
  · exact inOp here
  · rcases List.mem_cons.mp member with isSpace | member
    · cases isSpace
    · rcases mem_intercalate member with between | ⟨_, isPart, inPart⟩
      · simp at between
      · obtain ⟨operand, isOperand, rfl⟩ := List.mem_map.mp isPart
        exact inOperands operand isOperand inPart

theorem newline_not_mem_number (n : Nat) : '\n' ∉ (toString n).toList := by
  intro member
  have digits : '\n' ∈ Nat.toDigits 10 n := Nat.toList_repr ▸ member
  have isDigit := Nat.isDigit_of_mem_toDigits (by decide) (by decide) digits
  revert isDigit
  decide

theorem newline_not_mem_append {first second : String} (inFirst : '\n' ∉ first.toList)
    (inSecond : '\n' ∉ second.toList) : '\n' ∉ (first ++ second).toList := by
  rw [String.toList_append, List.mem_append]
  exact fun member => member.elim inFirst inSecond

theorem newline_not_mem_intText (n : Int) : '\n' ∉ (intText n).toList := by
  cases n with
  | ofNat n => exact newline_not_mem_number n
  | negSucc n => exact newline_not_mem_append (by decide) (newline_not_mem_number _)

theorem newline_not_mem_regText (reg : Reg) : '\n' ∉ reg.text.toList := by
  cases reg with
  | virtual number => exact newline_not_mem_append (by decide) (newline_not_mem_number _)
  | spilled slot =>
      exact newline_not_mem_append (newline_not_mem_append (by decide) (newline_not_mem_number _))
        (by decide)
  | physical phys =>
      cases phys with
      | zero => decide
      | ra => decide
      | sp => decide
      | arg i => exact newline_not_mem_append (by decide) (newline_not_mem_number _)
      | saved i => exact newline_not_mem_append (by decide) (newline_not_mem_number _)
      | temp i => exact newline_not_mem_append (by decide) (newline_not_mem_number _)

end Characters

namespace Reading

variable {word rest : List Char}

theorem firstWord_append (noSpace : ' ' ∉ word) : firstWord (word ++ ' ' :: rest) = word := by
  unfold firstWord
  rw [List.takeWhile_append_of_pos]
  · simp
  · intro c member
    simpa using fun same : c = ' ' => noSpace (same ▸ member)

theorem lastWord_append (noSpace : ' ' ∉ word) : lastWord (rest ++ ' ' :: word) = word := by
  unfold lastWord
  rw [List.reverse_append, List.reverse_cons, List.append_assoc, List.takeWhile_append_of_pos]
  · simp
  · intro c member
    simpa using fun same : c = ' ' => noSpace (same ▸ List.mem_reverse.mp member)

theorem splitLines_line {line : List Char} (noNewline : '\n' ∉ line) :
    splitLines (line ++ '\n' :: rest) = line :: splitLines rest := by
  induction line with
  | nil => simp [splitLines]
  | cons c line ih =>
      obtain ⟨other, noNewline⟩ := not_or.mp (List.mem_cons.not.mp noNewline)
      unfold splitLines at ih ⊢
      rw [List.cons_append, List.foldr_cons, ih noNewline, if_neg (Ne.symm other)]

theorem kind_word {name : String} (isWord : IsWord name) :
    kind (name.toList ++ [':']) = .label name.toList := by
  have noTab := isWord '\t' (by decide)
  unfold kind
  split
  · next operation isOperation =>
      cases inName : name.toList with
      | nil => rw [inName] at isOperation; cases isOperation
      | cons c chars =>
          rw [inName] at isOperation noTab
          cases isOperation
          exact absurd List.mem_cons_self noTab
  · rw [List.getLast?_concat, if_pos rfl, List.dropLast_concat]

theorem kind_operation {op : String} (isWord : IsWord op) (operands : List String) :
    kind ('\t' :: (operation op operands).toList) =
      if op.toList = "j".toList then .jump (lastWord (operation op operands).toList)
      else if op.toList ∈ branchNames then .branch (lastWord (operation op operands).toList)
      else .execute (operation op operands).toList := by
  have first : firstWord (operation op operands).toList = op.toList := by
    rw [toList_operation]
    exact firstWord_append (isWord _ (by decide))
  have notRet : (operation op operands).toList ≠ "ret".toList := by
    intro same
    have space : ' ' ∈ (operation op operands).toList := by
      rw [toList_operation]
      exact List.mem_append_right _ List.mem_cons_self
    rw [same] at space
    revert space
    decide
  show (if (operation op operands).toList = "ret".toList then LineKind.ret
    else if firstWord (operation op operands).toList = "j".toList then _ else _) = _
  rw [if_neg notRet, first]

end Reading

namespace Line

theorem kind_text {line : Line} (clear : line.Clear) :
    Reading.kind line.text.toList = line.kind := by
  cases line with
  | globl name =>
      have first : (globl name).text.toList = '\t' :: '.' :: ("globl\t" ++ name).toList := by
        simp [Line.text, String.toList_append]
      rw [first]
      simp [Reading.kind, Reading.firstWord, Reading.branchNames, Line.kind, String.toList_append]
  | label name =>
      rw [show (label name).text.toList = name.toList ++ [':'] by simp [Line.text]]
      exact Reading.kind_word clear
  | instr text =>
      obtain ⟨_, op, operands, rfl, isWord, plain⟩ := clear
      obtain ⟨notJump, notBranch⟩ := not_or.mp (List.mem_cons.not.mp plain)
      rw [show (instr (operation op operands)).text.toList =
        '\t' :: (operation op operands).toList by simp [Line.text], Reading.kind_operation isWord,
        if_neg notJump, if_neg notBranch]
      rfl
  | branch op lhs rhs name =>
      have isWord : IsWord op.text := by cases op <;> decide
      have notJump : op.text.toList ≠ "j".toList := by cases op <;> simp [BranchOp.text]
      have isBranch : op.text.toList ∈ Reading.branchNames := by cases op <;> decide
      have last : Reading.lastWord (operation op.text [lhs.text, rhs.text, name]).toList =
          name.toList := by
        have split : (operation op.text [lhs.text, rhs.text, name]).toList =
            (op.text ++ " " ++ lhs.text ++ ", " ++ rhs.text ++ ",").toList ++ ' ' :: name.toList := by
          simp [toList_operation, List.intercalate]
        rw [split]
        exact Reading.lastWord_append (clear _ (by decide))
      rw [show (branch op lhs rhs name).text.toList =
        '\t' :: (operation op.text [lhs.text, rhs.text, name]).toList by simp [Line.text],
        Reading.kind_operation isWord, if_neg notJump, if_pos isBranch, last]
      rfl
  | jump name =>
      have last : Reading.lastWord (operation "j" [name]).toList = name.toList := by
        have split : (operation "j" [name]).toList = "j".toList ++ ' ' :: name.toList := by
          simp [toList_operation, List.intercalate]
        rw [split]
        exact Reading.lastWord_append (clear _ (by decide))
      have isWord : IsWord "j" := by decide
      rw [show (jump name).text.toList = '\t' :: (operation "j" [name]).toList by simp [Line.text],
        Reading.kind_operation isWord, if_pos rfl, last]
      rfl
  | ret => decide

theorem newline_not_mem_text {line : Line} (clear : line.Clear) : '\n' ∉ line.text.toList := by
  cases line with
  | globl name => exact newline_not_mem_append (by decide) (IsWord.newline_not_mem clear)
  | label name => exact newline_not_mem_append (IsWord.newline_not_mem clear) (by decide)
  | instr text => exact newline_not_mem_append (by decide) clear.1
  | branch op lhs rhs name =>
      have inOp : '\n' ∉ op.text.toList := by cases op <;> decide
      refine newline_not_mem_append (by decide) (newline_not_mem_operation inOp ?_)
      intro operand member
      rcases List.mem_cons.mp member with rfl | member
      · exact newline_not_mem_regText lhs
      · rcases List.mem_cons.mp member with rfl | member
        · exact newline_not_mem_regText rhs
        · rw [List.mem_singleton.mp member]
          exact IsWord.newline_not_mem clear
  | jump name =>
      refine newline_not_mem_append (by decide) (newline_not_mem_operation (by decide) ?_)
      intro operand member
      rw [List.mem_singleton.mp member]
      exact IsWord.newline_not_mem clear
  | ret => decide

end Line

namespace Reading

theorem kinds_line {line : String} (noNewline : '\n' ∉ line.toList) (rest : String) :
    kinds (line ++ "\n" ++ rest) = kind line.toList :: kinds rest := by
  unfold kinds
  rw [String.toList_append, String.toList_append, List.append_assoc, ← List.map_cons]
  exact congrArg (List.map kind) (splitLines_line noNewline)

/-- Reading undoes printing, up to what lines mean for control. -/
theorem kinds_join_append {lines : List Line} (clear : ∀ line ∈ lines, line.Clear) (rest : String) :
    kinds (String.join (lines.map fun line => line.text ++ "\n") ++ rest) =
      lines.map Line.kind ++ kinds rest := by
  induction lines with
  | nil => simp
  | cons line lines ih =>
      obtain ⟨clearLine, clear⟩ := List.forall_mem_cons.mp clear
      rw [List.map_cons, String.join_cons, String.append_assoc,
        kinds_line (Line.newline_not_mem_text clearLine), Line.kind_text clearLine,
        ih clear]
      rfl

theorem kinds_join {lines : List Line} (clear : ∀ line ∈ lines, line.Clear) :
    kinds (String.join (lines.map fun line => line.text ++ "\n")) = lines.map Line.kind := by
  simpa [kinds, splitLines] using kinds_join_append clear ""

end Reading

/-- The name that an instruction refers to. -/
def Instr.name? : Instr → Option String
  | la _ symbol => some symbol
  | call callee _ => some callee
  | _ => none

/-- Does an instruction print the size of the frame, or an offset that depends on it? -/
def Instr.needsFrame : Instr → Bool
  | spGrow | spRecover | load _ (.slot _) | store _ (.slot _) => true
  | _ => false

namespace Func

variable {f : Func}

/-- The names of a function and in it are words. -/
structure Named (f : Func) : Prop where
  function : IsWord f.name
  labels : ∀ block ∈ f.blocks, IsWord block.label
  symbols : ∀ block ∈ f.blocks, ∀ instr ∈ block.instrs, ∀ name, instr.name? = some name →
    IsWord name

theorem Named.blockLabel (named : f.Named) {block : Block} (isBlock : block ∈ f.blocks) :
    IsWord (f.blockLabel block) := by
  intro c isBlank member
  unfold Func.blockLabel at member
  simp only [String.toList_append, List.mem_append] at member
  rcases member with ((isDot | inName) | isBar) | inLabel
  · rw [List.mem_singleton.mp isDot] at isBlank
    revert isBlank
    decide
  · exact named.function c isBlank inName
  · rw [List.mem_singleton.mp isBar] at isBlank
    revert isBlank
    decide
  · exact named.labels block isBlock c isBlank inLabel

theorem clear_operation {op : String} {operands : List String}
    (plain : IsWord op ∧ op.toList ∉ "j".toList :: Reading.branchNames)
    (oneLine : ∀ operand ∈ operands, '\n' ∉ operand.toList) :
    (Line.instr (operation op operands)).Clear :=
  ⟨newline_not_mem_operation plain.1.newline_not_mem oneLine, op, operands, rfl, plain⟩

theorem frameSize_eq_ok {size : Nat} (sized : f.frameSize = .ok size) :
    size = (f.slots + 3) / 4 * 16 ∧ size < Width.w64.bound := by
  obtain ⟨_, isRounded, isSize⟩ := bind_eq_ok.mp sized
  obtain ⟨rfl, _⟩ := Width.add_eq_ok_iff.mp isRounded
  obtain ⟨rfl, fits⟩ := Width.mul_eq_ok_iff.mp isSize
  exact ⟨rfl, fits⟩

theorem slot_le_frameSize {slot size : Nat} (sized : f.frameSize = .ok size) (inside : slot < f.slots) :
    wordSize * (slot + 1) ≤ size := by
  obtain ⟨rfl, _⟩ := frameSize_eq_ok sized
  unfold wordSize
  omega

theorem slotOffset_eq {slot size : Nat} (sized : f.frameSize = .ok size) (inside : slot < f.slots) :
    f.slotOffset slot = .ok (toSigned32 (size - wordSize * (slot + 1))) := by
  have bytes := slot_le_frameSize sized inside
  have fits := Nat.lt_of_le_of_lt bytes (frameSize_eq_ok sized).2
  have above : slot + 1 < Width.w64.bound :=
    Nat.lt_of_le_of_lt (Nat.le_mul_of_pos_left _ (by decide)) fits
  exact bind_eq_ok.mpr ⟨_, sized, bind_eq_ok.mpr ⟨_, Width.add_eq_ok_iff.mpr ⟨rfl, above⟩,
    bind_eq_ok.mpr ⟨_, Width.mul_eq_ok_iff.mpr ⟨rfl, fits⟩,
      bind_eq_ok.mpr ⟨_, Width.sub_eq_ok_iff.mpr ⟨rfl, bytes⟩, rfl⟩⟩⟩⟩

theorem newline_not_mem_baseText (base : Reg) (offset : Int) :
    '\n' ∉ (Address.based base offset).text.toList :=
  newline_not_mem_append (newline_not_mem_append
    (newline_not_mem_append (newline_not_mem_intText offset) (by decide))
    (newline_not_mem_regText base)) (by decide)

theorem addressText_eq_ok {address : Address}
    (inside : ∀ slot, address.slot? = some slot → slot < f.slots)
    (sized : ∀ slot, address.slot? = some slot → ∃ size, f.frameSize = .ok size) :
    ∃ text, f.addressText address = .ok text ∧ '\n' ∉ text.toList := by
  cases address with
  | based base offset => exact ⟨_, rfl, newline_not_mem_baseText base offset⟩
  | slot slot =>
      obtain ⟨size, isSize⟩ := sized slot rfl
      exact ⟨_, bind_eq_ok.mpr ⟨_, slotOffset_eq isSize (inside slot rfl), rfl⟩,
        newline_not_mem_append (newline_not_mem_intText _) (by decide)⟩

/-- An instruction prints as a clear line if its slot lies in a frame whose size can be printed. -/
theorem instrLine_eq_ok {instr : Instr} (inside : ∀ slot, instr.slot? = some slot → slot < f.slots)
    (sized : instr.needsFrame = true → ∃ size, f.frameSize = .ok size)
    (named : ∀ name, instr.name? = some name → IsWord name) :
    ∃ text, f.instrLine instr = .ok (.instr text) ∧ (Line.instr text).Clear := by
  have inReg := newline_not_mem_regText
  have inInt := newline_not_mem_intText
  cases instr with
  | li dest imm => exact ⟨_, rfl, clear_operation (by decide) (by simp [inReg, inInt])⟩
  | la dest symbol =>
      have inSymbol := (named symbol rfl).newline_not_mem
      exact ⟨_, rfl, clear_operation (by decide) (by simp [inReg, inSymbol])⟩
  | load dest addr =>
      obtain ⟨text, isText, inText⟩ := addressText_eq_ok inside (by
        intro slot isSlot
        cases addr with
        | based base offset => cases isSlot
        | slot slot => exact sized rfl)
      exact ⟨_, bind_eq_ok.mpr ⟨text, isText, rfl⟩,
        clear_operation (by decide) (by simp [inReg, inText])⟩
  | store src addr =>
      obtain ⟨text, isText, inText⟩ := addressText_eq_ok inside (by
        intro slot isSlot
        cases addr with
        | based base offset => cases isSlot
        | slot slot => exact sized rfl)
      exact ⟨_, bind_eq_ok.mpr ⟨text, isText, rfl⟩,
        clear_operation (by decide) (by simp [inReg, inText])⟩
  | move dest src => exact ⟨_, rfl, clear_operation (by decide) (by simp [inReg])⟩
  | alu op dest lhs rhs =>
      exact ⟨_, rfl, clear_operation (by cases op <;> decide) (by simp [inReg])⟩
  | aluImm op dest lhs imm =>
      exact ⟨_, rfl, clear_operation (by cases op <;> decide) (by simp [inReg, inInt])⟩
  | cmpZero op dest src =>
      exact ⟨_, rfl, clear_operation (by cases op <;> decide) (by simp [inReg])⟩
  | call callee argc =>
      have inCallee := (named callee rfl).newline_not_mem
      exact ⟨_, rfl, clear_operation (by decide) (by simp [inCallee])⟩
  | spGrow =>
      obtain ⟨size, isSize⟩ := sized rfl
      have inSize : '\n' ∉ ("-" ++ toString size).toList :=
        newline_not_mem_append (by decide) (newline_not_mem_number size)
      have inSp : '\n' ∉ "sp".toList := by decide
      refine ⟨_, bind_eq_ok.mpr ⟨size, isSize, rfl⟩, clear_operation (by decide) ?_⟩
      exact List.forall_mem_cons.mpr ⟨inSp, List.forall_mem_cons.mpr ⟨inSp,
        List.forall_mem_singleton.mpr inSize⟩⟩
  | spRecover =>
      obtain ⟨size, isSize⟩ := sized rfl
      have inSize := newline_not_mem_number size
      have inSp : '\n' ∉ "sp".toList := by decide
      refine ⟨_, bind_eq_ok.mpr ⟨size, isSize, rfl⟩, clear_operation (by decide) ?_⟩
      exact List.forall_mem_cons.mpr ⟨inSp, List.forall_mem_cons.mpr ⟨inSp,
        List.forall_mem_singleton.mpr inSize⟩⟩

end Func

end Lowering.Machine
