import Lowering.Emission
import Lowering.Proofs.Machine.PrintedFlow
import Mathlib

/-!
# The labels of a printed module

The label of a block joins the name of its function and its own with an underscore.  Names may hold
underscores themselves, so the blocks of two functions can have the same label.  This happens exactly if
the name of one function continues that of the other by an underscore and some text, and a label in the
other function continues the same text by an underscore and a label in the first.
-/

namespace Lowering.Machine

namespace LineKind

def label? : LineKind → Option (List Char)
  | label name => some name
  | _ => none

def target? : LineKind → Option (List Char)
  | branch target | jump target => some target
  | _ => none

end LineKind

namespace Reading

/-- The labels in a text. -/
def labels (text : String) : List (List Char) := (kinds text).filterMap LineKind.label?

/-- The labels that the branches and jumps in a text lead to. -/
def targets (text : String) : List (List Char) := (kinds text).filterMap LineKind.target?

/-- A line that is executed adds neither a label nor a target. -/
theorem skip_execute {text rest : String} {operation : List Char}
    (read : kinds text = .execute operation :: kinds rest) :
    labels text = labels rest ∧ targets text = targets rest := by
  unfold labels targets
  rw [read]
  exact ⟨rfl, rfl⟩

/-- A directive is indented and begins with a dot, so it is no branch or jump. -/
theorem skip_directive (directive rest : String) (noNewline : '\n' ∉ directive.toList) :
    labels ("\t." ++ directive ++ "\n" ++ rest) = labels rest ∧
      targets ("\t." ++ directive ++ "\n" ++ rest) = targets rest := by
  have read : kind ("\t." ++ directive).toList = .execute ('.' :: directive.toList) := by
    simp [kind, firstWord, branchNames]
  exact skip_execute (read ▸ kinds_line (newline_not_mem_append (by decide) noNewline) rest)

theorem skip_empty (rest : String) :
    labels ("\n" ++ rest) = labels rest ∧ targets ("\n" ++ rest) = targets rest := by
  have read : kinds ("" ++ "\n" ++ rest) = .execute [] :: kinds rest := kinds_line (by decide) rest
  exact skip_execute read

end Reading

theorem newline_not_mem_toDigits (n : Nat) : '\n' ∉ Nat.toDigits 16 n := by
  induction n using Nat.strongRecOn with
  | ind n ih =>
      have notDigit : ∀ digit < 16, '\n' ≠ Nat.digitChar digit := by decide
      by_cases small : n < 16
      · rw [Nat.toDigits_of_lt_base small, List.mem_singleton]
        exact notDigit n small
      · rw [Nat.toDigits_of_base_le (by decide) (Nat.le_of_not_lt small), List.mem_append,
          List.mem_singleton]
        rintro (earlier | last)
        · exact ih (n / 16) (by omega) earlier
        · exact notDigit _ (Nat.mod_lt n (by decide)) last

theorem newline_not_mem_quotedChar (c : Char) : '\n' ∉ Text.quotedChar c := by
  unfold Text.quotedChar
  split
  · decide
  · decide
  · decide
  · decide
  · decide
  · decide
  · next other _ _ =>
      split
      · rw [List.mem_singleton]
        exact fun same => other same.symm
      · have braces : '\n' ∉ "\\u\x7b".toList ∧ '\n' ≠ '\x7d' := by decide
        simp only [Text.codeEscape, List.mem_append, List.mem_singleton]
        rintro ((begins | digits) | ends)
        · exact braces.1 begins
        · exact newline_not_mem_toDigits _ digits
        · exact braces.2 ends

theorem newline_not_mem_quoted (text : String) : '\n' ∉ (Text.quoted text).toList := by
  unfold Text.quoted
  rw [String.toList_ofList]
  simp only [List.cons_append, List.mem_cons, List.mem_append, List.mem_flatMap, List.not_mem_nil]
  rintro (isQuote | ⟨c, _, member⟩ | isQuote | absent)
  · cases isQuote
  · exact newline_not_mem_quotedChar c member
  · cases isQuote
  · exact absent

namespace Func

variable {f g : Func}

/-- The labels of the blocks. -/
def blockLabels (f : Func) : List String := f.blocks.map f.blockLabel

/-! ## Labels that meet -/

theorem nodup_blockLabels (distinct : (f.blocks.map Block.label).Nodup) : f.blockLabels.Nodup := by
  refine (List.nodup_map_iff_inj_on (distinct.of_map _)).mpr fun a isBlock b isOther same => ?_
  exact List.inj_on_of_nodup_map distinct isBlock isOther
    (blockLabel_injective (congrArg String.toList same))

theorem exists_middle {name longer label rest : String} (different : name ≠ longer) {chars : List Char}
    (continues : longer.toList = name.toList ++ chars)
    (same : '_' :: label.toList = chars ++ '_' :: rest.toList) :
    ∃ middle, longer = name ++ "_" ++ middle ∧ label = middle ++ "_" ++ rest := by
  cases chars with
  | nil => exact absurd (String.toList_inj.mp (continues.trans (List.append_nil _))).symm different
  | cons c middle =>
      obtain ⟨rfl, goesOn⟩ := List.cons.inj same
      refine ⟨String.ofList middle, String.toList_inj.mp ?_, String.toList_inj.mp ?_⟩
      · simp [continues]
      · simp [goesOn]

/-- Blocks of two functions share a label exactly if the name of one function goes on as a label in the
other does. -/
theorem blockLabel_eq_iff (different : f.name ≠ g.name) (a b : Block) :
    f.blockLabel a = g.blockLabel b ↔
      (∃ middle, g.name = f.name ++ "_" ++ middle ∧ a.label = middle ++ "_" ++ b.label) ∨
      ∃ middle, f.name = g.name ++ "_" ++ middle ∧ b.label = middle ++ "_" ++ a.label := by
  constructor
  · intro same
    have chars : f.name.toList ++ '_' :: a.label.toList = g.name.toList ++ '_' :: b.label.toList := by
      simpa [blockLabel] using congrArg String.toList same
    rcases List.append_eq_append_iff.mp chars with ⟨_, continues, goesOn⟩ | ⟨_, continues, goesOn⟩
    · exact .inl (exists_middle different continues goesOn)
    · exact .inr (exists_middle different.symm continues goesOn)
  · rintro (⟨middle, name, label⟩ | ⟨middle, name, label⟩)
    · simp only [blockLabel, name, label, String.append_assoc]
    · simp only [blockLabel, name, label, String.append_assoc]

end Func

/-- No name of a function continues another as a label in that other function does. -/
def Apart (funcs : List Func) : Prop :=
  ∀ f ∈ funcs, ∀ g ∈ funcs, ∀ a ∈ f.blocks, ∀ b ∈ g.blocks, ∀ middle : String,
    g.name = f.name ++ "_" ++ middle → a.label ≠ middle ++ "_" ++ b.label

/-- No function is named like a block. -/
def Unshadowed (funcs : List Func) : Prop :=
  ∀ f ∈ funcs, ∀ g ∈ funcs, f.name ∉ g.blockLabels

section Modules

variable {funcs : List Func}

theorem nodup_blockLabels_iff (names : (funcs.map Func.name).Nodup)
    (labels : ∀ f ∈ funcs, (f.blocks.map Block.label).Nodup) :
    (funcs.flatMap Func.blockLabels).Nodup ↔ Apart funcs := by
  have ne_of_ne : ∀ f ∈ funcs, ∀ g ∈ funcs, f ≠ g → f.name ≠ g.name := by
    intro f isFunc g isOther different same
    exact different (List.inj_on_of_nodup_map names isFunc isOther same)
  have symmetric : Std.Symm (Function.onFun List.Disjoint Func.blockLabels) :=
    ⟨fun _ _ disjoint => disjoint.symm⟩
  rw [List.nodup_flatMap, ← (names.of_map _).pairwise_coe]
  constructor
  · rintro ⟨_, disjoint⟩ f isFunc g isOther a isBlock b isOtherBlock middle name label
    have different : f.name ≠ g.name := by
      intro same
      have long := congrArg String.length (same.trans name)
      simp only [String.length_append] at long
      have underscore : "_".length = 1 := rfl
      omega
    have same := (Func.blockLabel_eq_iff different a b).mpr (.inl ⟨middle, name, label⟩)
    exact disjoint isFunc isOther (fun equal => different (congrArg Func.name equal))
      (List.mem_map_of_mem isBlock) (same ▸ List.mem_map_of_mem isOtherBlock)
  · intro apart
    refine ⟨fun f isFunc => Func.nodup_blockLabels (labels f isFunc), ?_⟩
    intro f isFunc g isOther different label inFunc inOther
    obtain ⟨a, isBlock, rfl⟩ := List.mem_map.mp inFunc
    obtain ⟨b, isOtherBlock, same⟩ := List.mem_map.mp inOther
    rcases (Func.blockLabel_eq_iff (ne_of_ne f isFunc g isOther different) a b).mp same.symm with
      ⟨middle, name, label⟩ | ⟨middle, name, label⟩
    · exact apart f isFunc g isOther a isBlock b isOtherBlock middle name label
    · exact apart g isOther f isFunc b isOtherBlock a isBlock middle name label

theorem nodup_labels_iff (names : (funcs.map Func.name).Nodup)
    (labels : ∀ f ∈ funcs, (f.blocks.map Block.label).Nodup) :
    (funcs.flatMap fun f => f.name :: f.blockLabels).Nodup ↔ Apart funcs ∧ Unshadowed funcs := by
  have split : (funcs.map Func.name ++ funcs.flatMap Func.blockLabels).Perm
      (funcs.flatMap fun f => f.name :: f.blockLabels) := by
    rw [← List.flatMap_pure_eq_map]
    exact List.flatMap_append_perm funcs (fun f => [f.name]) Func.blockLabels
  rw [← split.nodup_iff, List.nodup_append, nodup_blockLabels_iff names labels]
  constructor
  · rintro ⟨_, apart, different⟩
    exact ⟨apart, fun f isFunc g isOther member => different _ (List.mem_map_of_mem isFunc) _
      (List.mem_flatMap.mpr ⟨g, isOther, member⟩) rfl⟩
  · rintro ⟨apart, unshadowed⟩
    refine ⟨names, apart, fun name isName label isLabel same => ?_⟩
    obtain ⟨f, isFunc, rfl⟩ := List.mem_map.mp isName
    obtain ⟨g, isOther, member⟩ := List.mem_flatMap.mp isLabel
    exact unshadowed f isFunc g isOther (same ▸ member)

end Modules

/-! ## Labels that are read -/

namespace Func

variable {f : Func}

/-- The text has the labels of the function and its blocks before those of the rest, and leads to its
blocks only. -/
structure Places (f : Func) (text : String) : Prop where
  labels (rest : String) : Reading.labels (text ++ rest) =
    (f.name :: f.blockLabels).map String.toList ++ Reading.labels rest
  targets (rest : String) : ∀ target ∈ Reading.targets (text ++ rest),
    target ∈ f.blockLabels.map String.toList ∨ target ∈ Reading.targets rest

/-- A line that is no label and leads to labels of blocks. -/
def Leads (f : Func) (line : Line) : Prop :=
  line.kind.label? = none ∧
    ∀ target, line.kind.target? = some target → target ∈ f.blockLabels.map String.toList

theorem mem_blockLabels_of_labelOf {target : Nat} {label : String}
    (isLabel : f.labelOf target = .ok label) :
    label.toList ∈ f.blockLabels.map String.toList := by
  obtain ⟨code, isCode, rfl⟩ := labelOf_eq_ok_iff.mp isLabel
  exact List.mem_map_of_mem (List.mem_map_of_mem (List.mem_of_getElem? isCode))

theorem leads_of_jumpLines {block target : Nat} {lines : List Line}
    (isJump : f.jumpLines block target = .ok lines) : ∀ line ∈ lines, f.Leads line := by
  unfold jumpLines at isJump
  split at isJump
  · cases isJump
    exact List.forall_mem_nil _
  · obtain ⟨label, isLabel, isJump⟩ := bind_eq_ok.mp isJump
    cases isJump
    refine List.forall_mem_singleton.mpr ⟨rfl, ?_⟩
    rintro _ ⟨⟩
    exact mem_blockLabels_of_labelOf isLabel

theorem leads_of_termLines {block : Nat} {term : Terminator} {lines : List Line}
    (isTerm : f.termLines block term = .ok lines) : ∀ line ∈ lines, f.Leads line := by
  cases term with
  | ret =>
      cases isTerm
      exact List.forall_mem_singleton.mpr ⟨rfl, nofun⟩
  | jump target => exact leads_of_jumpLines isTerm
  | branch op lhs rhs thenBlock elseBlock =>
      obtain ⟨label, isLabel, isTerm⟩ := bind_eq_ok.mp isTerm
      obtain ⟨lines, isJump, isTerm⟩ := bind_eq_ok.mp isTerm
      cases isTerm
      refine List.forall_mem_cons.mpr ⟨⟨rfl, ?_⟩, leads_of_jumpLines isJump⟩
      rintro _ ⟨⟩
      exact mem_blockLabels_of_labelOf isLabel

/-- Behind the label of its block, a row only leads to labels. -/
theorem IsRow.leads {block : Nat} {code : Block} {texts : List String} {ends row : List Line}
    (isRow : f.IsRow block code texts ends row) :
    ∃ rest, row = .label (f.blockLabel code) :: rest ∧ ∀ line ∈ rest, f.Leads line := by
  refine ⟨texts.map Line.instr ++ ends, isRow.lines, fun line member => ?_⟩
  rcases List.mem_append.mp member with isInstr | isEnd
  · obtain ⟨text, _, rfl⟩ := List.mem_map.mp isInstr
    exact ⟨rfl, nofun⟩
  · exact leads_of_termLines isRow.term line isEnd

theorem labels_flatten {numbered : List (Nat × Block)} {rows : List (List Line)}
    (areRows : List.Forall₂ (fun numbered row =>
      ∃ texts ends, f.IsRow numbered.1 numbered.2 texts ends row) numbered rows) :
    (rows.flatten.map Line.kind).filterMap LineKind.label? =
      numbered.map fun numbered => (f.blockLabel numbered.2).toList := by
  induction areRows with
  | nil => rfl
  | cons isRow _ ih =>
      obtain ⟨_, _, isRow⟩ := isRow
      obtain ⟨rest, rfl, leads⟩ := isRow.leads
      have none : (rest.map Line.kind).filterMap LineKind.label? = [] := by
        rw [List.filterMap_map, List.filterMap_eq_nil_iff]
        exact fun line member => (leads line member).1
      rw [List.flatten_cons, List.map_append, List.filterMap_append, ih, List.map_cons]
      exact congrArg (_ :: · ++ _) none

theorem Rows.labels {rows : List (List Line)} (areRows : f.Rows rows) :
    (rows.flatten.map Line.kind).filterMap LineKind.label? = f.blockLabels.map String.toList := by
  rw [labels_flatten areRows, blockLabels, List.map_map]
  refine List.ext_getElem? fun i => ?_
  simp only [List.getElem?_map, List.getElem?_mapIdx, Option.map_map]
  rfl

theorem Rows.targets {rows : List (List Line)} (areRows : f.Rows rows) :
    ∀ target ∈ (rows.flatten.map Line.kind).filterMap LineKind.target?,
      target ∈ f.blockLabels.map String.toList := by
  intro target member
  rw [List.filterMap_map] at member
  obtain ⟨line, isLine, isTarget⟩ := List.mem_filterMap.mp member
  obtain ⟨row, isRow, inRow⟩ := List.mem_flatten.mp isLine
  obtain ⟨_, _, _, _, parts⟩ := areRows.exists_of_mem isRow
  obtain ⟨rest, rfl, leads⟩ := parts.leads
  rcases List.mem_cons.mp inRow with rfl | inRest
  · cases isTarget
  · exact (leads line inRest).2 target isTarget

theorem Printable.places (printable : f.Printable) : ∃ text, f.text = .ok text ∧ f.Places text := by
  obtain ⟨rows, isLines, areRows⟩ := printable.lines
  have read (rest : String) := Reading.kinds_join_append (areRows.clear printable.named) rest
  refine ⟨_, bind_eq_ok.mpr ⟨_, isLines, rfl⟩, fun rest => ?_, fun rest target member => ?_⟩
  · unfold Reading.labels
    rw [read, List.filterMap_append, List.map_append, List.filterMap_append, areRows.labels]
    rfl
  · unfold Reading.targets at member
    rw [read, List.filterMap_append, List.map_append, List.filterMap_append] at member
    rcases List.mem_append.mp member with here | later
    · exact .inl (areRows.targets target here)
    · exact .inr later

end Func

section Modules

/-- The functions of a module, one after the other. -/
def bodyText (texts : List String) : String :=
  String.join (texts.map fun text => "\t.align\t2\n" ++ text ++ "\n")

theorem bodyText_cons (text : String) (texts : List String) :
    bodyText (text :: texts) = "\t." ++ "align\t2" ++ "\n" ++ (text ++ ("\n" ++ bodyText texts)) := by
  unfold bodyText
  rw [List.map_cons, String.join_cons]
  simp only [← String.append_assoc]
  rfl

variable {funcs : List Func} {texts : List String}

/-- The functions of a module place their labels one after the other. -/
theorem labels_bodyText (places : List.Forall₂ Func.Places funcs texts) :
    Reading.labels (bodyText texts) =
        (funcs.flatMap fun f => f.name :: f.blockLabels).map String.toList ∧
      ∀ target ∈ Reading.targets (bodyText texts),
        target ∈ (funcs.flatMap Func.blockLabels).map String.toList := by
  induction places with
  | nil => exact ⟨rfl, nofun⟩
  | @cons f text funcs texts first _ ih =>
      obtain ⟨labels, targets⟩ :=
        Reading.skip_directive "align\t2" (text ++ ("\n" ++ bodyText texts)) (by decide)
      obtain ⟨labelsRest, targetsRest⟩ := Reading.skip_empty (bodyText texts)
      rw [bodyText_cons, labels, targets, first.labels, labelsRest, ih.1,
        List.flatMap_cons, List.map_append]
      refine ⟨rfl, fun target member => ?_⟩
      rw [List.flatMap_cons, List.map_append, List.mem_append]
      refine (first.targets _ target member).imp_right fun later => ?_
      exact ih.2 target (targetsRest ▸ later)

/-- A module of functions that print has the labels of the functions and their blocks, and leads to
blocks only. -/
theorem exists_moduleText (source : String) (printable : ∀ f ∈ funcs, f.Printable) :
    ∃ text, moduleText source funcs = .ok text ∧
      Reading.labels text = (funcs.flatMap fun f => f.name :: f.blockLabels).map String.toList ∧
      ∀ target ∈ Reading.targets text,
        target ∈ (funcs.flatMap Func.blockLabels).map String.toList := by
  obtain ⟨texts, areTexts, places⟩ := exists_mapM_ok id Func.Places fun f isFunc =>
    (printable f isFunc).places
  rw [List.map_id] at areTexts
  have header : "\t.file\t" ++ Text.quoted source ++ "\n\t.text\n" ++ bodyText texts =
      "\t." ++ ("file\t" ++ Text.quoted source) ++ "\n" ++
        ("\t." ++ "text" ++ "\n" ++ bodyText texts) :=
    String.toList_inj.mp (by simp)
  obtain ⟨labelsFile, targetsFile⟩ := Reading.skip_directive ("file\t" ++ Text.quoted source)
    ("\t." ++ "text" ++ "\n" ++ bodyText texts)
    (newline_not_mem_append (by decide) (newline_not_mem_quoted source))
  obtain ⟨labelsText, targetsText⟩ := Reading.skip_directive "text" (bodyText texts) (by decide)
  refine ⟨_, bind_eq_ok.mpr ⟨texts, areTexts, rfl⟩, ?_⟩
  show Reading.labels ("\t.file\t" ++ Text.quoted source ++ "\n\t.text\n" ++ bodyText texts) = _ ∧
    ∀ target ∈ Reading.targets ("\t.file\t" ++ Text.quoted source ++ "\n\t.text\n" ++ bodyText texts), _
  rw [header, labelsFile, targetsFile, labelsText, targetsText]
  exact labels_bodyText places

/-- The labels of all blocks of a module differ if and only if the functions are apart.  The printed
module has these labels and those of the functions, and every branch and jump in it leads to the label of
a block: to exactly one place, if the functions are apart and none is named like a block. -/
theorem moduleText_labels (names : (funcs.map Func.name).Nodup)
    (labels : ∀ f ∈ funcs, (f.blocks.map Block.label).Nodup) :
    ((funcs.flatMap Func.blockLabels).Nodup ↔ Apart funcs) ∧
    ((∀ f ∈ funcs, f.Printable) → ∀ source, ∃ text, moduleText source funcs = .ok text ∧
      Reading.labels text = (funcs.flatMap fun f => f.name :: f.blockLabels).map String.toList ∧
      ((Reading.labels text).Nodup ↔ Apart funcs ∧ Unshadowed funcs) ∧
      ∀ target ∈ Reading.targets text,
        target ∈ (funcs.flatMap Func.blockLabels).map String.toList ∧
        (Apart funcs → Unshadowed funcs → (Reading.labels text).count target = 1)) := by
  refine ⟨nodup_blockLabels_iff names labels, fun printable source => ?_⟩
  obtain ⟨text, isText, areLabels, areTargets⟩ := exists_moduleText source printable
  have unique : (Reading.labels text).Nodup ↔ Apart funcs ∧ Unshadowed funcs := by
    rw [areLabels, List.nodup_map_iff fun _ _ => String.toList_injective, nodup_labels_iff names labels]
  refine ⟨text, isText, areLabels, unique, fun target isTarget => ?_⟩
  have isLabel := areTargets target isTarget
  refine ⟨isLabel, fun apart unshadowed => ?_⟩
  refine List.count_eq_one_of_mem (unique.mpr ⟨apart, unshadowed⟩) (areLabels ▸ ?_)
  obtain ⟨label, member, rfl⟩ := List.mem_map.mp isLabel
  obtain ⟨f, isFunc, member⟩ := List.mem_flatMap.mp member
  exact List.mem_map_of_mem (List.mem_flatMap.mpr ⟨f, isFunc, List.mem_cons_of_mem _ member⟩)

/-- Functions without instructions print if their names are words and their targets are blocks. -/
theorem printable_of_bare (bare : ∀ f ∈ funcs, (∀ block ∈ f.blocks, block.instrs = []) ∧ IsWord f.name ∧
      (∀ block ∈ f.blocks, IsWord block.label) ∧
      ∀ block ∈ f.blocks, ∀ target ∈ block.term.targets, target < f.blocks.length) :
    ∀ f ∈ funcs, f.Printable := by
  intro f isFunc
  obtain ⟨empty, name, labels, targets⟩ := bare f isFunc
  have absent {block : Block} (isBlock : block ∈ f.blocks) (instr : Instr) : instr ∉ block.instrs := by
    rw [empty block isBlock]
    exact List.not_mem_nil
  exact ⟨targets, fun block isBlock instr isInstr => absurd isInstr (absent isBlock instr),
    fun block isBlock instr isInstr => absurd isInstr (absent isBlock instr),
    name, labels, fun block isBlock instr isInstr => absurd isInstr (absent isBlock instr)⟩

/-- Functions whose labels keep apart although the name of the second continues that of the first by the
label of a block. -/
def sidestepping : List Func :=
  [ { name := "step"
      blocks := [⟨"entry", [], .branch .beq (.virtual 0) (.virtual 1) 0 1⟩, ⟨"side", [], .jump 0⟩]
      slots := 0
      nextVirtual := 2 },
    { name := "step_side"
      blocks := [⟨"entry", [], .jump 0⟩]
      slots := 0
      nextVirtual := 0 } ]

theorem moduleText_labels_sidestepping :
    (sidestepping.map Func.name).Nodup ∧
      (∀ f ∈ sidestepping, (f.blocks.map Block.label).Nodup) ∧ (∀ f ∈ sidestepping, f.Printable) ∧
      Apart sidestepping ∧ Unshadowed sidestepping ∧
      ∃ text, moduleText "steps" sidestepping = .ok text ∧ (Reading.labels text).Nodup ∧
        ∀ target ∈ Reading.targets text, (Reading.labels text).count target = 1 := by
  have names : (sidestepping.map Func.name).Nodup := by decide
  have labels : ∀ f ∈ sidestepping, (f.blocks.map Block.label).Nodup := by decide
  obtain ⟨differ, printed⟩ := moduleText_labels names labels
  have apart : Apart sidestepping := differ.mp (by decide)
  have unshadowed : Unshadowed sidestepping := by
    unfold Unshadowed
    decide
  have printable : ∀ f ∈ sidestepping, f.Printable := printable_of_bare (by decide)
  obtain ⟨text, isText, _, unique, targets⟩ := printed printable "steps"
  exact ⟨names, labels, printable, apart, unshadowed, text, isText,
    unique.mpr ⟨apart, unshadowed⟩, fun target isTarget => (targets target isTarget).2 apart unshadowed⟩

/-- Functions whose only blocks have the same label. -/
def clashing : List Func :=
  [ { name := "f", blocks := [⟨"g_x", [], .jump 0⟩], slots := 0, nextVirtual := 0 },
    { name := "f_g", blocks := [⟨"x", [], .jump 0⟩], slots := 0, nextVirtual := 0 } ]

/-- Different names of functions and different labels within each are not enough. -/
theorem blockLabels_clash :
    (clashing.map Func.name).Nodup ∧ (∀ f ∈ clashing, (f.blocks.map Block.label).Nodup) ∧
      (∀ f ∈ clashing, ∀ block ∈ f.blocks, ∀ target ∈ block.term.targets, target < f.blocks.length) ∧
      ¬ (clashing.flatMap Func.blockLabels).Nodup ∧
      ∃ text, moduleText "m.json" clashing = .ok text ∧
        Reading.labels text = ["f", ".f_g_x", "f_g", ".f_g_x"].map String.toList := by
  have printable : ∀ f ∈ clashing, f.Printable := printable_of_bare (by decide)
  obtain ⟨text, isText, areLabels, _⟩ := exists_moduleText "m.json" printable
  exact ⟨by decide, by decide, by decide, by decide, text, isText, areLabels⟩

end Modules

end Lowering.Machine
