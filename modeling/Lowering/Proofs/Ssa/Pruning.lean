import Lowering.Proofs.Dominance.Reachability
import Lowering.Proofs.Ssa.Execution
import Lowering.Proofs.Ssa.Incoming
import Lowering.Ssa.Pruning

/-!
# Pruning keeps all runs

Control stays among the blocks that are kept, so a run of the pruned function passes the same blocks
under their new numbers.  Pruning succeeds if the blocks that control can reach lead to blocks, and what
these blocks define is still defined afterwards.
-/

namespace Lowering

/-! ## New numbers -/

section Compact

variable {α : Type} {keep : List Bool} {next : Nat}

/-- The entries that are marked. -/
def marked (entries : List α) (keep : List Bool) : List α :=
  (entries.zip keep).filterMap fun pair => if pair.2 then some pair.1 else none

theorem marked_cons_true (entry : α) (entries : List α) (keep : List Bool) :
    marked (entry :: entries) (true :: keep) = entry :: marked entries keep := rfl

theorem getElem?_marked {entries : List α} (sameLength : entries.length = keep.length) {i j : Nat}
    (numbered : (compactFrom next keep)[i]?.join = some j) :
    next ≤ j ∧ i < entries.length ∧ (marked entries keep)[j - next]? = entries[i]? := by
  induction keep generalizing entries next i with
  | nil => simp [compactFrom] at numbered
  | cons kept keep ih =>
      cases entries with
      | nil => cases sameLength
      | cons entry entries =>
          have sameRest := Nat.succ.inj sameLength
          cases kept with
          | true =>
              rw [compactFrom] at numbered
              cases i with
              | zero =>
                  obtain rfl : next = j := by simpa using numbered
                  simp [marked_cons_true]
              | succ i =>
                  obtain ⟨bound, inside, found⟩ := ih sameRest numbered
                  refine ⟨Nat.le_of_succ_le bound, Nat.succ_lt_succ inside, ?_⟩
                  rw [marked_cons_true, show j - next = (j - (next + 1)) + 1 by omega]
                  exact found
          | false =>
              rw [compactFrom] at numbered
              cases i with
              | zero => simp at numbered
              | succ i =>
                  obtain ⟨bound, inside, found⟩ := ih sameRest numbered
                  exact ⟨bound, Nat.succ_lt_succ inside, found⟩

theorem compactFrom_increasing {a b c d : Nat} (first : (compactFrom next keep)[a]?.join = some c)
    (second : (compactFrom next keep)[b]?.join = some d) (before : a < b) : c < d := by
  have bounded {keep : List Bool} {next i : Nat}
      (numbered : (compactFrom next keep)[i]?.join = some d) : next ≤ d := by
    have sameLength : (keep.map id).length = keep.length := List.length_map _
    exact (getElem?_marked sameLength numbered).1
  induction keep generalizing next a b with
  | nil => simp [compactFrom] at first
  | cons kept keep ih =>
      obtain ⟨b, rfl⟩ := Nat.exists_eq_add_of_lt (Nat.zero_lt_of_lt before)
      rw [Nat.zero_add] at before second
      cases kept with
      | true =>
          rw [compactFrom] at first second
          cases a with
          | zero =>
              obtain rfl : next = c := by simpa using first
              exact bounded second
          | succ a => exact ih first second (Nat.lt_of_succ_lt_succ before)
      | false =>
          rw [compactFrom] at first second
          cases a with
          | zero => simp at first
          | succ a => exact ih first second (Nat.lt_of_succ_lt_succ before)

theorem compactFrom_injective {a b c : Nat} (first : (compactFrom next keep)[a]?.join = some c)
    (second : (compactFrom next keep)[b]?.join = some c) : a = b := by
  rcases Nat.lt_trichotomy a b with before | same | after
  · exact absurd (compactFrom_increasing first second before) (Nat.lt_irrefl c)
  · exact same
  · exact absurd (compactFrom_increasing second first after) (Nat.lt_irrefl c)

theorem exists_compactFrom {i : Nat} (kept : keep[i]? = some true) :
    ∃ j, (compactFrom next keep)[i]?.join = some j := by
  induction keep generalizing next i with
  | nil => cases kept
  | cons head rest ih =>
      cases i with
      | zero =>
          obtain rfl : head = true := Option.some.inj kept
          exact ⟨next, rfl⟩
      | succ i => cases head <;> exact ih kept

theorem exists_of_mem_marked {entries : List α} {entry : α} (member : entry ∈ marked entries keep) :
    ∃ i : Nat, entries[i]? = some entry ∧ keep[i]? = some true := by
  obtain ⟨⟨other, kept⟩, zipped, found⟩ := List.mem_filterMap.mp member
  obtain ⟨i, both⟩ := List.mem_iff_getElem?.mp zipped
  obtain ⟨isEntry, isKept⟩ := List.getElem?_zip_eq_some.mp both
  cases kept with
  | true => exact ⟨i, Option.some.inj found ▸ isEntry, isKept⟩
  | false => cases found

end Compact

variable {α : Type}

theorem Table.getElem?_toList {n : Nat} (table : Table n α) (i : Fin n) :
    table.toList[i.val]? = some (table.get i) := by
  unfold Table.toList
  rw [Vector.getElem?_toList, Vector.getElem?_eq_getElem i.isLt]
  rfl

theorem Table.length_toList {n : Nat} (table : Table n α) : table.toList.length = n := by
  unfold Table.toList
  exact Vector.length_toList

theorem getElem?_of_mapM_ok {β : Type} {f : α → Except Fault β} {list : List α} {results : List β}
    (ok : list.mapM f = .ok results) {i : Nat} {a : α}
    (found : list[i]? = some a) : ∃ b, results[i]? = some b ∧ f a = .ok b := by
  induction list generalizing results i with
  | nil => cases found
  | cons head rest ih =>
      rw [List.mapM_cons] at ok
      obtain ⟨first, isFirst, ok⟩ := bind_eq_ok.mp ok
      obtain ⟨others, areOthers, ok⟩ := bind_eq_ok.mp ok
      cases ok
      cases i with
      | zero =>
          obtain rfl : head = a := Option.some.inj found
          exact ⟨first, rfl, isFirst⟩
      | succ i => exact ih areOthers found

namespace Ssa

/-- The number a block gets when only the marked blocks are kept. -/
def newNumber (keep : List Bool) (block : Nat) : Option Nat := (compactIds keep)[block]?.join

theorem newNumber_injective {keep : List Bool} {a b c : Nat} (first : newNumber keep a = some c)
    (second : newNumber keep b = some c) : a = b :=
  compactFrom_injective first second

variable {names : Nat → Option Nat} {block : Block} {I : Interpretation}
  {origin origin' : Option Nat}

theorem Block.rename_eq_ok {renamed : Block} (ok : block.rename names = .ok renamed) :
    block.term.rename? names = some renamed.term ∧ renamed.insts = block.insts ∧
      renamed.phis = block.phis.map fun phi =>
        { phi with incoming := phi.incoming.rename names } := by
  unfold Block.rename at ok
  cases found : block.term.rename? names with
  | none =>
      rw [found] at ok
      cases ok
  | some term =>
      rw [found] at ok
      cases ok
      exact ⟨rfl, rfl, rfl⟩

theorem Terminator.exists_rename? {term : Terminator}
    (named : ∀ target ∈ term.targets, ∃ number, names target = some number) :
    ∃ renamed, term.rename? names = some renamed := by
  cases term with
  | ret value => exact ⟨_, rfl⟩
  | branch cond thenBlock elseBlock =>
      obtain ⟨first, namedThen⟩ := named thenBlock (by simp [targets])
      obtain ⟨second, namedElse⟩ := named elseBlock (by simp [targets])
      exact ⟨.branch cond first second, by simp [rename?, namedThen, namedElse]⟩
  | jump target =>
      obtain ⟨number, isNumber⟩ := named target (by simp [targets])
      exact ⟨.jump number, by simp [rename?, isNumber]⟩

theorem Block.exists_rename
    (named : ∀ target ∈ block.term.targets, ∃ number, names target = some number) :
    ∃ renamed, block.rename names = .ok renamed := by
  obtain ⟨term, isTerm⟩ := Terminator.exists_rename? named
  unfold Block.rename
  rw [isTerm]
  exact ⟨_, rfl⟩

theorem exists_mapM_rename {blocks : List Block}
    (named : ∀ block ∈ blocks, ∀ target ∈ block.term.targets, ∃ number, names target = some number) :
    ∃ renamed, blocks.mapM (Block.rename names) = .ok renamed := by
  induction blocks with
  | nil => exact ⟨[], rfl⟩
  | cons block rest ih =>
      obtain ⟨first, others⟩ := List.forall_mem_cons.mp named
      obtain ⟨renamed, isRenamed⟩ := Block.exists_rename first
      obtain ⟨later, areRenamed⟩ := ih others
      rw [List.mapM_cons]
      exact ⟨_, bind_eq_ok.mpr ⟨renamed, isRenamed, bind_eq_ok.mpr ⟨later, areRenamed, rfl⟩⟩⟩

/-- The new number of where control came from. -/
def Renumbered (names : Nat → Option Nat) : Option Nat → Option Nat → Prop
  | none, origin => origin = none
  | some block, origin => ∃ number, names block = some number ∧ origin = some number

theorem State.select_rename (injective : ∀ a b c, names a = some c → names b = some c → a = b)
    (renumbered : Renumbered names origin origin')
    (s : State I) (phi : Phi) :
    s.select origin' { phi with incoming := phi.incoming.rename names } = s.select origin phi := by
  cases origin with
  | none =>
      obtain rfl : origin' = none := renumbered
      rfl
  | some block =>
      obtain ⟨number, named, rfl⟩ := renumbered
      exact congrArg (Option.bind · s.read) (Incoming.get?_rename injective phi.incoming named)

theorem State.enter_map (change : Phi → Phi) (sameDest : ∀ phi, (change phi).dest = phi.dest)
    (s : State I)
    (same : ∀ phi, s.select origin' (change phi) = s.select origin phi) (phis : List Phi) :
    s.enter origin' (phis.map change) = s.enter origin phis := by
  have sameAll : (phis.map change).all (fun phi => (s.select origin' phi).isSome) =
      phis.all fun phi => (s.select origin phi).isSome := by
    rw [List.all_map]
    simp only [Function.comp_def, same]
  have sameEnv (v : Nat) : ((phis.map change).find? fun phi => phi.dest == v) =
      (phis.find? fun phi => phi.dest == v).map change := by
    rw [List.find?_map]
    simp only [Function.comp_def, sameDest]
  unfold State.enter
  rw [sameAll]
  split
  · congr
    funext v
    rw [sameEnv]
    cases phis.find? fun phi => phi.dest == v with
    | none => rfl
    | some phi => exact same phi
  · rfl

theorem Terminator.exit_rename {term renamed : Terminator}
    (found : term.rename? names = some renamed) (s : State I) :
    (∃ trace, term.exit s = .error trace ∧ renamed.exit s = .error trace) ∨
      (∃ value, term.exit s = .ok (.leave value) ∧ renamed.exit s = .ok (.leave value)) ∨
      ∃ target number, names target = some number ∧ term.exit s = .ok (.goto target) ∧
        renamed.exit s = .ok (.goto number) := by
  cases term with
  | ret value =>
      cases found
      cases exited : exit s (.ret value) with
      | error trace => exact .inl ⟨trace, rfl, rfl⟩
      | ok leaving =>
          cases value with
          | none =>
              cases exited
              exact .inr (.inl ⟨none, rfl, rfl⟩)
          | some operand =>
              obtain ⟨x, _, ok⟩ := bind_eq_ok.mp exited
              cases ok
              exact .inr (.inl ⟨some x, rfl, rfl⟩)
  | branch cond thenBlock elseBlock =>
      obtain ⟨first, namedThen, found⟩ := Option.bind_eq_some_iff.mp found
      obtain ⟨second, namedElse, found⟩ := Option.bind_eq_some_iff.mp found
      cases found
      simp only [exit]
      cases s.require (s.read cond) with
      | error trace => exact .inl ⟨trace, rfl, rfl⟩
      | ok x =>
          refine .inr (.inr ⟨_, if I.truthy x then first else second, ?_, rfl, rfl⟩)
          split
          · exact namedThen
          · exact namedElse
  | jump target =>
      obtain ⟨number, named, found⟩ := Option.bind_eq_some_iff.mp found
      cases found
      exact .inr (.inr ⟨target, number, named, rfl, rfl⟩)

/-- A renamed block does what the block does and goes on under the new numbers. -/
theorem Block.follows_rename (injective : ∀ a b c, names a = some c → names b = some c → a = b)
    {renamed : Block}
    (ok : block.rename names = .ok renamed)
    (renumbered : Renumbered names origin origin') (s : State I) :
    Func.Follows id (fun target s number t => s = t ∧ names target = some number)
      (block.exec s origin) (renamed.exec s origin') := by
  obtain ⟨sameTerm, sameInsts, samePhis⟩ := rename_eq_ok ok
  have sameEnter : s.enter origin' renamed.phis = s.enter origin block.phis := by
    rw [samePhis]
    refine State.enter_map _ ?_ s (State.select_rename injective renumbered s) block.phis
    exact fun _ => rfl
  unfold Block.exec
  rw [sameInsts, sameEnter]
  cases s.enter origin block.phis with
  | error trace => exact .stopped
  | ok entered =>
      simp only [bind, Except.bind]
      cases block.insts.foldlM Inst.exec entered with
      | error trace => exact .stopped
      | ok after =>
          rcases Terminator.exit_rename sameTerm after with ⟨trace, first, second⟩ |
            ⟨value, first, second⟩ | ⟨target, number, named, first, second⟩
          · simp only [first, second]
            exact .stopped
          · simp only [first, second]
            exact .leave rfl
          · simp only [first, second]
            exact .goto ⟨rfl, named⟩

namespace Func

variable {f pruned : Func} {keep : Table f.blocks.length Bool} {removed : Nat}

theorem restrict_eq_ok {keep : List Bool} (ok : f.restrict keep = .ok pruned) :
    pruned.params = f.params ∧
      (marked f.blocks keep).mapM (Block.rename (newNumber keep)) = .ok pruned.blocks := by
  unfold restrict at ok
  obtain ⟨blocks, renamed, ok⟩ := bind_eq_ok.mp ok
  cases ok
  exact ⟨rfl, renamed⟩

theorem run_restrict (ok : f.restrict keep.toList = .ok pruned)
    (entered : keep.toList[FlowGraph.entry]? = some true) (arguments : List I.Val)
    (memory : I.Val → I.Val) (world : I.World) (count : Nat) :
    pruned.run arguments memory world count = (f.run arguments memory world count).mapTrace id := by
  obtain ⟨sameParams, renamed⟩ := restrict_eq_ok ok
  have sameLength : f.blocks.length = keep.toList.length := keep.length_toList.symm
  have start : newNumber keep.toList FlowGraph.entry = some FlowGraph.entry := by
    revert entered
    unfold newNumber
    cases keep.toList with
    | nil => exact fun entered => nomatch entered
    | cons kept rest =>
        intro entered
        obtain rfl : kept = true := Option.some.inj entered
        rfl
  have outside : Renumbered (newNumber keep.toList) none none := rfl
  unfold run
  rw [sameParams]
  refine runFrom_eq (fun origin block s origin' block' t => s = t ∧
    Renumbered (newNumber keep.toList) origin origin' ∧
      newNumber keep.toList block = some block') ?_ ?_
    ⟨rfl, outside, start⟩ count
  · rintro origin block s origin' block' t ⟨rfl, _⟩
    rfl
  · rintro origin block s origin' block' t ⟨rfl, renumbered, numbered⟩
    obtain ⟨_, inside, found⟩ := getElem?_marked sameLength numbered
    rw [List.getElem?_eq_getElem inside, Nat.sub_zero] at found
    obtain ⟨code, isCode, ok⟩ := getElem?_of_mapM_ok renamed found
    refine .inr ⟨_, code, List.getElem?_eq_getElem inside, isCode, ?_⟩
    have follows := Block.follows_rename (fun _ _ _ => newNumber_injective) ok renumbered s
    refine follows.imp ?_
    rintro target s number t ⟨rfl, named⟩
    exact ⟨rfl, ⟨block', numbered, rfl⟩, named⟩

theorem prune_eq_ok (ok : f.prune.result = .ok (pruned, removed)) :
    ∃ keep, f.flow.reachable FlowGraph.entry = .ok keep ∧ removed = keep.toList.countP (!·) ∧
      (removed = 0 ∧ pruned = f ∨ removed ≠ 0 ∧ f.restrict keep.toList = .ok pruned) := by
  unfold prune at ok
  obtain ⟨keep, reached, ok⟩ := Pass.result_bind_eq_ok.mp ok
  by_cases complete : keep.toList.countP (!·) = 0
  · rw [if_pos complete] at ok
    cases ok
    exact ⟨keep, reached, complete.symm, .inl ⟨rfl, rfl⟩⟩
  · rw [if_neg complete] at ok
    obtain ⟨restricted, found, ok⟩ := Pass.result_bind_eq_ok.mp ok
    obtain ⟨_, _, ok⟩ := Pass.result_bind_eq_ok.mp ok
    cases ok
    exact ⟨keep, reached, rfl, .inr ⟨complete, found⟩⟩

theorem prune_cases (ok : f.prune.result = .ok (pruned, removed)) :
    pruned = f ∨ ∃ keep, f.flow.reachable FlowGraph.entry = .ok keep ∧ f.blocks ≠ [] ∧
      f.restrict keep.toList = .ok pruned := by
  obtain ⟨keep, reached, rfl, ⟨_, same⟩ | ⟨some, restricted⟩⟩ := prune_eq_ok ok
  · exact .inl same
  · refine .inr ⟨keep, reached, fun empty => some ?_, restricted⟩
    have none : keep.toList.length = 0 := by
      rw [Table.length_toList, empty]
      rfl
    rw [List.eq_nil_of_length_eq_zero none]
    rfl

theorem get_reachable_entry {n : Nat} {graph : FlowGraph n} {keep : Table n Bool}
    (reached : graph.reachable FlowGraph.entry = .ok keep) (nonempty : n ≠ 0) :
    keep.toList[FlowGraph.entry]? = some true := by
  have inside : FlowGraph.entry < n := Nat.pos_of_ne_zero nonempty
  have marks := ((FlowGraph.reachable_eq_ok_iff inside).mp reached).2
  rw [Table.getElem?_toList _ ⟨FlowGraph.entry, inside⟩, (marks _).mpr .refl]

theorem run_prune (ok : f.prune.result = .ok (pruned, removed)) (arguments : List I.Val)
    (memory : I.Val → I.Val) (world : I.World) (count : Nat) :
    pruned.run arguments memory world count = f.run arguments memory world count := by
  rcases prune_cases ok with rfl | ⟨keep, reached, nonempty, restricted⟩
  · rfl
  · have entered := get_reachable_entry reached fun empty =>
      nonempty (List.eq_nil_of_length_eq_zero empty)
    rw [run_restrict restricted entered, Outcome.mapTrace_id]

/-! ## What is kept -/

/-- Control can reach the block from the entry. -/
def Reached (f : Func) (block : Fin f.blocks.length) : Prop :=
  Relation.ReflTransGen f.flow.Leads ⟨FlowGraph.entry, Fin.pos block⟩ block

/-- A block that control can reach is numbered among those kept. -/
theorem exists_newNumber (found : f.flow.reachable FlowGraph.entry = .ok keep)
    {block : Fin f.blocks.length}
    (reached : f.Reached block) : ∃ number, newNumber keep.toList block.val = some number := by
  refine exists_compactFrom ?_
  rw [Table.getElem?_toList]
  exact congrArg some
    ((((FlowGraph.reachable_eq_ok_iff (Fin.pos block)).mp found).2 block).mpr reached)

theorem exists_restrict (found : f.flow.reachable FlowGraph.entry = .ok keep) :
    ∃ pruned, f.restrict keep.toList = .ok pruned := by
  obtain ⟨blocks, renamed⟩ : ∃ blocks, (marked f.blocks keep.toList).mapM
      (Block.rename (newNumber keep.toList)) = .ok blocks := by
    refine exists_mapM_rename fun code member target isTarget => ?_
    obtain ⟨i, isCode, kept⟩ := exists_of_mem_marked member
    obtain ⟨inside, rfl⟩ := List.getElem?_eq_some_iff.mp isCode
    obtain ⟨closed, marks⟩ := (FlowGraph.reachable_eq_ok_iff (Nat.zero_lt_of_lt inside)).mp found
    rw [Table.getElem?_toList keep ⟨i, inside⟩] at kept
    have reached := (marks ⟨i, inside⟩).mp (Option.some.inj kept)
    have bound := closed ⟨i, inside⟩ reached target isTarget
    have joined : f.flow.Leads ⟨i, inside⟩ ⟨target, bound⟩ := isTarget
    exact exists_newNumber found (reached.tail joined)
  exact ⟨_, bind_eq_ok.mpr ⟨blocks, renamed, rfl⟩⟩

/-- Pruning succeeds if every block that control can reach leads to blocks. -/
theorem exists_prune (closed : ∀ block, f.Reached block →
      ∀ target ∈ f.flow.succs block, target < f.blocks.length) :
    ∃ result, f.prune.result = .ok result := by
  obtain ⟨keep, found⟩ : ∃ keep, f.flow.reachable FlowGraph.entry = .ok keep := by
    by_cases empty : f.blocks.length = 0
    · unfold FlowGraph.reachable
      rw [if_pos empty]
      exact ⟨_, rfl⟩
    · have inside : FlowGraph.entry < f.blocks.length := Nat.pos_of_ne_zero empty
      refine ⟨.tabulate fun block => (f.flow.reached ⟨FlowGraph.entry, inside⟩).contains block,
        (FlowGraph.reachable_eq_ok_iff inside).mpr ⟨closed, fun block => ?_⟩⟩
      rw [Table.get_tabulate, List.contains_iff_mem, FlowGraph.mem_reached_iff]
  refine Pass.exists_result_bind (a := keep) found ?_
  dsimp only
  split
  · exact ⟨_, rfl⟩
  · obtain ⟨pruned, restricted⟩ := exists_restrict found
    exact Pass.exists_result_bind (a := pruned) restricted ⟨_, rfl⟩

/-- What is defined in a block that control can reach is still defined when the others are dropped. -/
theorem mem_defs_of_reached (ok : f.prune.result = .ok (pruned, removed))
    {block : Fin f.blocks.length}
    (reached : f.Reached block) {v : Nat} (defined : v ∈ (f.blocks.get block).defs) :
    v ∈ pruned.defs := by
  rcases prune_cases ok with rfl | ⟨keep, found, _, restricted⟩
  · exact List.mem_append_right _ (List.mem_flatMap.mpr ⟨_, List.get_mem _ _, defined⟩)
  · obtain ⟨_, renamed⟩ := restrict_eq_ok restricted
    have sameLength : f.blocks.length = keep.toList.length := keep.length_toList.symm
    obtain ⟨number, numbered⟩ := exists_newNumber found reached
    obtain ⟨_, inside, isCode⟩ := getElem?_marked sameLength numbered
    rw [List.getElem?_eq_getElem inside] at isCode
    obtain ⟨code, isNew, isRenamed⟩ := getElem?_of_mapM_ok renamed isCode
    obtain ⟨_, sameInsts, samePhis⟩ := Block.rename_eq_ok isRenamed
    have sameDefs : code.defs = (f.blocks.get block).defs := by
      unfold Block.defs
      rw [sameInsts, samePhis, List.map_map]
      rfl
    refine List.mem_append_right _ (List.mem_flatMap.mpr ⟨code, List.mem_of_getElem? isNew, ?_⟩)
    rw [sameDefs]
    exact defined

theorem params_prune (ok : f.prune.result = .ok (pruned, removed)) : pruned.params = f.params := by
  rcases prune_cases ok with rfl | ⟨_, _, _, restricted⟩
  · rfl
  · exact (restrict_eq_ok restricted).1

end Func

end Ssa

end Lowering
