import Lowering.Proofs.RelatedLists
import Lowering.Proofs.Ssa.Checks
import Lowering.Proofs.Ssa.Pruning
import Mathlib

/-!
# Pruning keeps the reachable part

The pruned function is what control reaches of a function, up to an order isomorphism of the blocks:
names, instructions and operands stay, targets and phi entries follow the new numbers.  Control then
reaches every block, so pruning again changes nothing.
-/

namespace Lowering

section Compact

variable {α : Type} {keep : List Bool}

theorem getElem?_of_compactFrom {next i j : Nat}
    (numbered : (compactFrom next keep)[i]?.join = some j) : keep[i]? = some true := by
  induction keep generalizing next i with
  | nil => simp [compactFrom] at numbered
  | cons kept keep ih =>
      cases kept with
      | true =>
          cases i with
          | zero => rfl
          | succ i => exact ih numbered
      | false =>
          cases i with
          | zero => simp [compactFrom] at numbered
          | succ i => exact ih numbered

/-- Every number up to the count of marked entries is given out. -/
theorem exists_compactFrom_eq {entries : List α} (sameLength : entries.length = keep.length)
    {next j : Nat} (low : next ≤ j)
    (high : j < next + (marked entries keep).length) :
    ∃ i : Nat, (compactFrom next keep)[i]?.join = some j := by
  induction keep generalizing entries next with
  | nil =>
      obtain rfl := List.eq_nil_of_length_eq_zero sameLength
      exact absurd high (Nat.not_lt.mpr low)
  | cons kept keep ih =>
      cases entries with
      | nil => cases sameLength
      | cons entry entries =>
          have sameRest := Nat.succ.inj sameLength
          cases kept with
          | true =>
              rw [marked_cons_true, List.length_cons] at high
              rcases Nat.eq_or_lt_of_le low with rfl | later
              · exact ⟨0, rfl⟩
              · obtain ⟨i, numbered⟩ := ih sameRest later (by omega)
                exact ⟨i + 1, numbered⟩
          | false =>
              obtain ⟨i, numbered⟩ := ih sameRest low high
              exact ⟨i + 1, numbered⟩

theorem length_marked_add {entries : List α} (sameLength : entries.length = keep.length) :
    (marked entries keep).length + keep.countP (!·) = entries.length := by
  induction keep generalizing entries with
  | nil =>
      obtain rfl := List.eq_nil_of_length_eq_zero sameLength
      rfl
  | cons kept keep ih =>
      cases entries with
      | nil => cases sameLength
      | cons entry entries =>
          have sum := ih (Nat.succ.inj sameLength)
          cases kept with
          | true =>
              rw [marked_cons_true, List.countP_cons_of_neg (by simp), List.length_cons,
                List.length_cons]
              omega
          | false =>
              rw [List.countP_cons_of_pos (by simp), List.length_cons, ← Nat.add_assoc]
              exact congrArg (· + 1) sum

end Compact

theorem length_of_mapM_ok {α β : Type} {f : α → Except Fault β} {list : List α} {results : List β}
    (ok : list.mapM f = .ok results) : results.length = list.length := by
  induction list generalizing results with
  | nil =>
      cases ok
      rfl
  | cons head rest ih =>
      rw [List.mapM_cons] at ok
      obtain ⟨first, _, ok⟩ := bind_eq_ok.mp ok
      obtain ⟨others, areOthers, ok⟩ := bind_eq_ok.mp ok
      cases ok
      exact congrArg (· + 1) (ih areOthers)

namespace Ssa

/-! ## Other block numbers -/

section Moved

variable {moves : Nat → Nat → Prop} {names : Nat → Option Nat}

/-- The same way out of a block under other block numbers. -/
inductive Terminator.Moved (moves : Nat → Nat → Prop) : Terminator → Terminator → Prop where
  | ret (value : Option Operand) : Moved moves (.ret value) (.ret value)
  | branch (cond : Operand) {thenBlock elseBlock newThen newElse : Nat} :
      moves thenBlock newThen → moves elseBlock newElse →
      Moved moves (.branch cond thenBlock elseBlock) (.branch cond newThen newElse)
  | jump {target newTarget : Nat} : moves target newTarget →
      Moved moves (.jump target) (.jump newTarget)

/-- A phi whose entries have followed their blocks. -/
structure Phi.Moved (moves : Nat → Nat → Prop) (old new : Phi) : Prop where
  dest : new.dest = old.dest
  entries : ∀ {key newKey}, moves key newKey → new.incoming.get? newKey = old.incoming.get? key

/-- The same block under other block numbers. -/
structure Block.Moved (moves : Nat → Nat → Prop) (old new : Block) : Prop where
  name : new.name = old.name
  phis : List.Forall₂ (Phi.Moved moves) old.phis new.phis
  insts : new.insts = old.insts
  term : old.term.Moved moves new.term

theorem Terminator.Moved.targets {old new : Terminator} (moved : old.Moved moves new) :
    List.Forall₂ moves old.targets new.targets := by
  cases moved with
  | ret value => exact .nil
  | branch cond first second => exact .cons first (.cons second .nil)
  | jump first => exact .cons first .nil

theorem Terminator.Moved.refl {term : Terminator} (stay : ∀ target ∈ term.targets, moves target target) :
    term.Moved moves term := by
  cases term with
  | ret value => exact .ret value
  | branch cond thenBlock elseBlock =>
      exact .branch cond (stay thenBlock (by simp [Terminator.targets]))
        (stay elseBlock (by simp [Terminator.targets]))
  | jump target => exact .jump (stay target (by simp [Terminator.targets]))

theorem Terminator.moved_rename? {term renamed : Terminator}
    (found : term.rename? names = some renamed)
    (follows : ∀ {old new}, names old = some new → moves old new) : term.Moved moves renamed := by
  cases term with
  | ret value =>
      cases found
      exact .ret value
  | branch cond thenBlock elseBlock =>
      obtain ⟨first, namedThen, found⟩ := Option.bind_eq_some_iff.mp found
      obtain ⟨second, namedElse, found⟩ := Option.bind_eq_some_iff.mp found
      cases found
      exact .branch cond (follows namedThen) (follows namedElse)
  | jump target =>
      obtain ⟨number, named, found⟩ := Option.bind_eq_some_iff.mp found
      cases found
      exact .jump (follows named)

theorem Block.name_rename {block renamed : Block}
    (ok : block.rename names = .ok renamed) : renamed.name = block.name := by
  unfold Block.rename at ok
  split at ok
  · cases ok
    rfl
  · cases ok

theorem Block.moved_rename (injective : ∀ a b c, names a = some c → names b = some c → a = b)
    (agree : ∀ {old new}, names old = some new ↔ moves old new) {block renamed : Block}
    (ok : block.rename names = .ok renamed) : block.Moved moves renamed := by
  obtain ⟨isTerm, sameInsts, samePhis⟩ := Block.rename_eq_ok ok
  refine ⟨Block.name_rename ok, ?_, sameInsts, Terminator.moved_rename? isTerm agree.mp⟩
  rw [samePhis, List.forall₂_map_right_iff]
  refine List.forall₂_same.mpr fun phi _ => ⟨rfl, fun {key newKey} moved => ?_⟩
  exact Incoming.get?_rename injective phi.incoming (agree.mpr moved)

end Moved

namespace Func

variable {f pruned : Func} {removed : Nat}

/-! ## The order of the blocks -/

/-- A block that control reaches and its new number. -/
def Moves {n : Nat} (number : {block // f.Reached block} ≃o Fin n) (old new : Nat) : Prop :=
  ∃ block, block.val.val = old ∧ (number block).val = new

/-- What control reaches of a function, under new numbers that keep the order. -/
structure IsReachablePart (f part : Func)
    (number : {block // f.Reached block} ≃o Fin part.blocks.length) : Prop where
  name : part.name = f.name
  params : part.params = f.params
  nextValue : part.nextValue = f.nextValue
  blocks : ∀ block, (f.blocks.get block.val).Moved (Moves number) (part.blocks.get (number block))

/-- Names that ascend with the blocks and are used up are an order isomorphism. -/
theorem exists_orderIso {n : Nat} (names : Nat → Option Nat)
    (total : ∀ block, f.Reached block → ∃ number < n, names block.val = some number)
    (increasing : ∀ {a b c d}, names a = some c → names b = some d → a < b → c < d)
    (onto : ∀ number < n, ∃ block, f.Reached block ∧ names block.val = some number) :
    ∃ number : {block // f.Reached block} ≃o Fin n,
      ∀ block, names block.val.val = some (number block).val := by
  have found (block : {block // f.Reached block}) :
      ∃ number : Fin n, names block.val.val = some number.val := by
    obtain ⟨number, inside, named⟩ := total block.val block.property
    exact ⟨⟨number, inside⟩, named⟩
  choose number isNumber using found
  have strict : StrictMono number := fun a b before =>
    increasing (isNumber a) (isNumber b) before
  have surjective : Function.Surjective number := by
    intro target
    obtain ⟨block, reached, named⟩ := onto target.val target.isLt
    refine ⟨⟨block, reached⟩, Fin.ext (Option.some.inj ?_)⟩
    exact (isNumber ⟨block, reached⟩).symm.trans named
  exact ⟨strict.orderIsoOfSurjective number surjective, isNumber⟩

/-- The marks of a pruning that succeeds are the blocks that control reaches, and these lead to
blocks. -/
theorem reached_of_reachable {keep : Table f.blocks.length Bool}
    (found : f.flow.reachable FlowGraph.entry = .ok keep) (block : Fin f.blocks.length) :
    (keep.get block = true ↔ f.Reached block) ∧
      (f.Reached block → ∀ target ∈ f.flow.succs block, target < f.blocks.length) := by
  obtain ⟨closed, marks⟩ := (FlowGraph.reachable_eq_ok_iff (Fin.pos block)).mp found
  exact ⟨marks block, closed block⟩

theorem reached_of_target (closed : ∀ block, f.Reached block →
      ∀ target ∈ f.flow.succs block, target < f.blocks.length)
    {block : Fin f.blocks.length} (reached : f.Reached block) {target : Nat}
    (isTarget : target ∈ (f.blocks.get block).term.targets) :
    ∃ inside, f.Reached ⟨target, inside⟩ := by
  have inside := closed block reached target isTarget
  have leads : f.flow.Leads block ⟨target, inside⟩ := isTarget
  exact ⟨inside, Relation.ReflTransGen.tail reached leads⟩

/-- A function that control reaches all of is its own reachable part. -/
theorem exists_isReachablePart_self (closed : ∀ block, f.Reached block →
      ∀ target ∈ f.flow.succs block, target < f.blocks.length)
    (all : ∀ block, f.Reached block) : ∃ number, f.IsReachablePart f number := by
  obtain ⟨number, isNumber⟩ := exists_orderIso (f := f) (n := f.blocks.length) some
    (fun block _ => ⟨block.val, block.isLt, rfl⟩)
    (fun {a b c d} first second before => by
      cases first
      cases second
      exact before)
    fun target inside => ⟨⟨target, inside⟩, all _, rfl⟩
  have stays {old new : Nat} (moves : Moves number old new) : old = new := by
    obtain ⟨block, rfl, rfl⟩ := moves
    exact Option.some.inj (isNumber block)
  refine ⟨number, rfl, rfl, rfl, fun block => ?_⟩
  have same : number block = block.val := Fin.ext (Option.some.inj (isNumber block)).symm
  rw [same]
  refine ⟨rfl, List.forall₂_same.mpr fun phi _ => ⟨rfl, fun moves => ?_⟩, rfl, ?_⟩
  · rw [stays moves]
  · refine Terminator.Moved.refl fun target isTarget => ?_
    obtain ⟨inside, reached⟩ := reached_of_target closed block.property isTarget
    exact ⟨⟨⟨target, inside⟩, reached⟩, rfl, (Option.some.inj (isNumber _)).symm⟩

section Restrict

variable {keep : Table f.blocks.length Bool} (found : f.flow.reachable FlowGraph.entry = .ok keep)
  (restricted : f.restrict keep.toList = .ok pruned)
include restricted

theorem header_restrict : pruned.name = f.name ∧ pruned.nextValue = f.nextValue := by
  obtain ⟨_, _, ok⟩ := bind_eq_ok.mp restricted
  cases ok
  exact ⟨rfl, rfl⟩

theorem length_restrict : pruned.blocks.length = (marked f.blocks keep.toList).length :=
  length_of_mapM_ok (restrict_eq_ok restricted).2

theorem exists_newNumber_eq {new : Nat} (bound : new < pruned.blocks.length) :
    ∃ old, newNumber keep.toList old = some new := by
  rw [length_restrict restricted] at bound
  exact exists_compactFrom_eq keep.length_toList.symm (Nat.zero_le new)
    (by rw [Nat.zero_add]; exact bound)

include found

/-- The numbered blocks are those control reaches; each is found renamed under its number. -/
theorem rename_of_newNumber {old new : Nat} (numbered : newNumber keep.toList old = some new) :
    ∃ inside : old < f.blocks.length, f.Reached ⟨old, inside⟩ ∧
      ∃ bound : new < pruned.blocks.length,
        (f.blocks.get ⟨old, inside⟩).rename (newNumber keep.toList) =
          .ok (pruned.blocks.get ⟨new, bound⟩) := by
  obtain ⟨_, renamed⟩ := restrict_eq_ok restricted
  obtain ⟨_, inside, isBlock⟩ := getElem?_marked keep.length_toList.symm numbered
  have kept := getElem?_of_compactFrom numbered
  rw [Table.getElem?_toList keep ⟨old, inside⟩] at kept
  have reached := (reached_of_reachable found ⟨old, inside⟩).1.mp (Option.some.inj kept)
  rw [Nat.sub_zero, List.getElem?_eq_getElem inside] at isBlock
  obtain ⟨code, isCode, renamedCode⟩ := getElem?_of_mapM_ok renamed isBlock
  obtain ⟨bound, rfl⟩ := List.getElem?_eq_some_iff.mp isCode
  exact ⟨inside, reached, bound, renamedCode⟩

theorem exists_isReachablePart_restrict : ∃ number, f.IsReachablePart pruned number := by
  obtain ⟨number, isNumber⟩ := exists_orderIso (f := f) (n := pruned.blocks.length)
    (newNumber keep.toList)
    (fun block reached => by
      obtain ⟨number, numbered⟩ := exists_newNumber found reached
      obtain ⟨_, _, bound, _⟩ := rename_of_newNumber found restricted numbered
      exact ⟨number, bound, numbered⟩)
    compactFrom_increasing
    fun target inside => by
      obtain ⟨old, numbered⟩ := exists_newNumber_eq restricted inside
      obtain ⟨_, reached, _⟩ := rename_of_newNumber found restricted numbered
      exact ⟨_, reached, numbered⟩
  have agree {old new : Nat} : newNumber keep.toList old = some new ↔ Moves number old new := by
    constructor
    · intro numbered
      obtain ⟨inside, reached, _⟩ := rename_of_newNumber found restricted numbered
      have named := isNumber ⟨⟨old, inside⟩, reached⟩
      exact ⟨⟨⟨old, inside⟩, reached⟩, rfl, Option.some.inj (named.symm.trans numbered)⟩
    · rintro ⟨block, rfl, rfl⟩
      exact isNumber block
  obtain ⟨sameName, sameNext⟩ := header_restrict restricted
  refine ⟨number, sameName, (restrict_eq_ok restricted).1, sameNext, fun block => ?_⟩
  obtain ⟨_, _, _, renamed⟩ := rename_of_newNumber found restricted (isNumber block)
  exact Block.moved_rename (fun _ _ _ => newNumber_injective) agree renamed

theorem keys_restrict (block : Fin pruned.blocks.length) :
    ∀ phi ∈ (pruned.blocks.get block).phis, ∀ key ∈ phi.incoming.keys,
      key < pruned.blocks.length := by
  intro phi member key isKey
  obtain ⟨old, numbered⟩ := exists_newNumber_eq restricted block.isLt
  obtain ⟨_, _, _, renamed⟩ := rename_of_newNumber found restricted numbered
  obtain ⟨_, _, samePhis⟩ := Block.rename_eq_ok renamed
  rw [samePhis] at member
  obtain ⟨phi, _, rfl⟩ := List.mem_map.mp member
  obtain ⟨source, named⟩ :=
    Incoming.exists_of_mem_keys_rename (fun _ _ _ => newNumber_injective) isKey
  obtain ⟨_, _, bound, _⟩ := rename_of_newNumber found restricted named
  exact bound

end Restrict

theorem closed_of_prune (ok : f.prune.result = .ok (pruned, removed)) (block : Fin f.blocks.length)
    (reached : f.Reached block) : ∀ target ∈ f.flow.succs block, target < f.blocks.length := by
  obtain ⟨keep, found, _⟩ := prune_eq_ok ok
  exact (reached_of_reachable found block).2 reached

theorem exists_isReachablePart (ok : f.prune.result = .ok (pruned, removed)) :
    ∃ number, f.IsReachablePart pruned number := by
  obtain ⟨keep, found, isRemoved, ⟨none, rfl⟩ | ⟨_, restricted⟩⟩ := prune_eq_ok ok
  · refine exists_isReachablePart_self (closed_of_prune ok) fun block => ?_
    rw [isRemoved, List.countP_eq_zero] at none
    have kept := none _ (List.mem_of_getElem? (keep.getElem?_toList block))
    exact (reached_of_reachable found block).1.mp (by simpa using kept)
  · exact exists_isReachablePart_restrict found restricted

theorem length_prune (ok : f.prune.result = .ok (pruned, removed)) :
    pruned.blocks.length + removed = f.blocks.length := by
  obtain ⟨keep, _, isRemoved, ⟨rfl, rfl⟩ | ⟨_, restricted⟩⟩ := prune_eq_ok ok
  · rfl
  · rw [length_restrict restricted, isRemoved]
    exact length_marked_add keep.length_toList.symm

theorem keys_prune (ok : f.prune.result = .ok (pruned, removed)) (some : removed ≠ 0)
    (block : Fin pruned.blocks.length) :
    ∀ phi ∈ (pruned.blocks.get block).phis, ∀ key ∈ phi.incoming.keys,
      key < pruned.blocks.length := by
  obtain ⟨keep, found, _, ⟨none, _⟩ | ⟨_, restricted⟩⟩ := prune_eq_ok ok
  · exact absurd none some
  · exact keys_restrict found restricted block

/-! ## The reachable part on its own -/

section Part

variable {part : Func} {number : {block // f.Reached block} ≃o Fin part.blocks.length}

theorem unique_moves : Relator.BiUnique (Moves number) := by
  constructor
  · rintro first second new ⟨a, rfl, same⟩ ⟨b, rfl, rfl⟩
    rw [number.injective (Fin.ext same)]
  · rintro old first second ⟨a, rfl, rfl⟩ ⟨b, same, rfl⟩
    rw [Subtype.ext (Fin.ext same)]

theorem number_entry (block : {block // f.Reached block}) :
    (number ⟨⟨FlowGraph.entry, Fin.pos block.val⟩, .refl⟩).val = FlowGraph.entry := by
  obtain ⟨first, isFirst⟩ := number.surjective ⟨FlowGraph.entry, Fin.pos (number block)⟩
  have least : number ⟨⟨FlowGraph.entry, Fin.pos block.val⟩, .refl⟩ ≤ number first :=
    number.le_iff_le.mpr (Nat.zero_le _)
  rw [isFirst] at least
  exact Nat.le_zero.mp least

variable (isPart : f.IsReachablePart part number)
include isPart

theorem IsReachablePart.leads_iff {a b : {block // f.Reached block}} :
    part.flow.Leads (number a) (number b) ↔ f.flow.Leads a.val b.val := by
  have moves : Moves number b.val.val (number b).val := ⟨b, rfl, rfl⟩
  exact (List.rel_mem unique_moves moves (isPart.blocks a).term.targets).symm

theorem IsReachablePart.closed (block : Fin part.blocks.length) :
    ∀ target ∈ part.flow.succs block, target < part.blocks.length := by
  obtain ⟨old, rfl⟩ := number.surjective block
  intro target isTarget
  obtain ⟨_, _, _, _, rfl⟩ := exists_of_forall₂_right (isPart.blocks old).term.targets isTarget
  exact (number _).isLt

theorem IsReachablePart.reached (block : Fin part.blocks.length) : part.Reached block := by
  obtain ⟨⟨old, reachedOld⟩, rfl⟩ := number.surjective block
  have start : (⟨FlowGraph.entry, Fin.pos (number ⟨old, reachedOld⟩)⟩ : Fin part.blocks.length) =
      number ⟨⟨FlowGraph.entry, Fin.pos old⟩, .refl⟩ :=
    Fin.ext (number_entry ⟨old, reachedOld⟩).symm
  unfold Reached
  rw [start]
  -- Follows the path to the old block; each block on it is reached, so it has a number.
  have follows {block : Fin f.blocks.length}
      (path : Relation.ReflTransGen f.flow.Leads ⟨FlowGraph.entry, Fin.pos old⟩ block) :
      Relation.ReflTransGen part.flow.Leads (number ⟨⟨FlowGraph.entry, Fin.pos old⟩, .refl⟩)
        (number ⟨block, path⟩) := by
    induction path with
    | refl => exact .refl
    | tail path leads ih =>
        exact ih.tail (isPart.leads_iff.mpr leads)
  exact follows reachedOld

end Part

theorem reached_prune (ok : f.prune.result = .ok (pruned, removed))
    (block : Fin pruned.blocks.length) : pruned.Reached block := by
  obtain ⟨number, isPart⟩ := exists_isReachablePart ok
  exact isPart.reached block

/-- Nothing is pruned from a function that control reaches all of. -/
theorem prune_of_reached (closed : ∀ block, f.Reached block →
      ∀ target ∈ f.flow.succs block, target < f.blocks.length)
    (all : ∀ block, f.Reached block) : f.prune.result = .ok (f, 0) := by
  obtain ⟨⟨pruned, removed⟩, ok⟩ := exists_prune closed
  obtain ⟨keep, found, isRemoved, either⟩ := prune_eq_ok ok
  have none : removed = 0 := by
    rw [isRemoved, List.countP_eq_zero]
    intro mark isMark
    obtain ⟨i, isMark⟩ := List.mem_iff_getElem?.mp isMark
    obtain ⟨inside, _⟩ := List.getElem?_eq_some_iff.mp isMark
    rw [keep.length_toList] at inside
    rw [keep.getElem?_toList ⟨i, inside⟩,
      (reached_of_reachable found ⟨i, inside⟩).1.mpr (all _)] at isMark
    simp [← Option.some.inj isMark]
  rcases either with ⟨rfl, rfl⟩ | ⟨some, _⟩
  · exact ok
  · exact absurd none some

/-- Phis that select from the predecessors of their block go on to do so. -/
theorem Keyed.prune (keyed : f.Keyed) (ok : f.prune.result = .ok (pruned, removed)) :
    pruned.Keyed := by
  by_cases none : removed = 0
  · obtain ⟨_, _, _, ⟨_, rfl⟩ | ⟨some, _⟩⟩ := prune_eq_ok ok
    · exact keyed
    · exact absurd none some
  obtain ⟨number, isPart⟩ := exists_isReachablePart ok
  intro block newPhi member key
  have bounded := keys_prune ok none block newPhi member key
  obtain ⟨block, rfl⟩ := number.surjective block
  obtain ⟨phi, inPhis, moved⟩ := exists_of_forall₂_right (isPart.blocks block).phis member
  have entry (pred : {block // f.Reached block}) :
      (number pred).val ∈ newPhi.incoming.keys ↔ f.flow.Leads pred.val block.val := by
    have same := moved.entries ⟨pred, rfl, rfl⟩
    rw [Incoming.mem_keys_iff, same, ← Incoming.mem_keys_iff, keyed block.val phi inPhis]
    constructor
    · rintro ⟨other, isOther, leads⟩
      rw [Fin.ext isOther]
      exact leads
    · intro leads
      exact ⟨pred.val, rfl, leads⟩
  constructor
  · intro isKey
    obtain ⟨pred, isPred⟩ := number.surjective ⟨key, bounded isKey⟩
    obtain rfl : (number pred).val = key := congrArg Fin.val isPred
    exact ⟨number pred, rfl, isPart.leads_iff.mpr ((entry pred).mp isKey)⟩
  · rintro ⟨newPred, rfl, leads⟩
    obtain ⟨pred, rfl⟩ := number.surjective newPred
    exact (entry pred).mpr (isPart.leads_iff.mp leads)

/-- Pruning keeps exactly the reachable part of a function: it succeeds, numbers the blocks that
control reaches in order, and moves targets and phi entries along; entries for other blocks are gone
if anything is.  Control reaches every block of the result, and phis that selected from the
predecessors of their block still do. -/
theorem prune_isomorphic (closed : ∀ block, f.Reached block →
      ∀ target ∈ f.flow.succs block, target < f.blocks.length) :
    ∃ pruned removed, f.prune.result = .ok (pruned, removed) ∧
      pruned.blocks.length + removed = f.blocks.length ∧
      (∃ number, f.IsReachablePart pruned number) ∧
      (removed = 0 → pruned = f) ∧
      (removed ≠ 0 → ∀ block, ∀ phi ∈ (pruned.blocks.get block).phis,
        ∀ key ∈ phi.incoming.keys, key < pruned.blocks.length) ∧
      (∀ block, pruned.Reached block) ∧
      pruned.prune.result = .ok (pruned, 0) ∧
      (f.Keyed → pruned.Keyed) := by
  obtain ⟨⟨pruned, removed⟩, ok⟩ := exists_prune closed
  obtain ⟨number, isPart⟩ := exists_isReachablePart ok
  refine ⟨pruned, removed, ok, length_prune ok, ⟨number, isPart⟩, ?_, keys_prune ok, isPart.reached,
    prune_of_reached (fun block _ => isPart.closed block) isPart.reached, fun keyed => keyed.prune ok⟩
  intro none
  obtain ⟨_, _, _, ⟨_, same⟩ | ⟨some, _⟩⟩ := prune_eq_ok ok
  · exact same
  · exact absurd none some

/-- A join after a choice.  Its phi has entries for a block that control never reaches and for a
block that does not exist; the former leads to no block. -/
def detour : Func where
  name := "detour"
  params := [0]
  blocks :=
    [⟨"entry", [], [], .branch (.value 0) 1 3⟩,
      ⟨"left", [], [.binary .add 1 (.value 0) (.const 1)], .jump 3⟩,
      ⟨"never", [], [], .jump 9⟩,
      ⟨"join", [⟨2, .ofList [(0, .const 5), (1, .value 1), (2, .undef), (7, .const 0)]⟩], [],
        .ret (some (.value 2))⟩]
  nextValue := 3

def detourPruned : Func where
  name := "detour"
  params := [0]
  blocks :=
    [⟨"entry", [], [], .branch (.value 0) 1 2⟩,
      ⟨"left", [], [.binary .add 1 (.value 0) (.const 1)], .jump 2⟩,
      ⟨"join", [⟨2, .ofList [(0, .const 5), (1, .value 1)]⟩], [], .ret (some (.value 2))⟩]
  nextValue := 3

theorem prune_detour : detour.prune.result = .ok (detourPruned, 1) := by
  cbv

theorem prune_isomorphic_detour :
    (∀ block, detour.Reached block →
      ∀ target ∈ detour.flow.succs block, target < detour.blocks.length) ∧
    detour.prune.result = .ok (detourPruned, 1) ∧
    (∃ number, detour.IsReachablePart detourPruned number) ∧
    (∀ block, detourPruned.Reached block) ∧
    detourPruned.prune.result = .ok (detourPruned, 0) := by
  have closed := closed_of_prune prune_detour
  obtain ⟨pruned, removed, ok, _, isPart, _, _, reached, again, _⟩ := prune_isomorphic closed
  obtain ⟨rfl, rfl⟩ : pruned = detourPruned ∧ removed = 1 := by
    have same := ok.symm.trans prune_detour
    exact Prod.mk.inj (Except.ok.inj same)
  exact ⟨closed, ok, isPart, reached, again⟩

end Func

end Ssa

end Lowering
