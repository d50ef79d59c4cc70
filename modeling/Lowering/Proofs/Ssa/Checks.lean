import Lowering.Proofs.Dominance.Tree
import Lowering.Proofs.Ssa.Incoming
import Lowering.Ssa.Check

/-!
# What the checks establish

A function that passes the checks defines every value at one place, its phis select from exactly the
predecessors of their block, and every use comes behind the definition: later in the same block, or in
a block that the block of the definition dominates.
-/

namespace Lowering.Ssa

open Dominance

/-! ## Definitions -/

theorem mem_blockDefinitions {index v : Nat} {block : Block} {point : Point} :
    (v, point) ∈ block.definitions index ↔
      (∃ phi ∈ block.phis, phi.dest = v ∧ point = ⟨index, 0⟩) ∨
      ∃ i inst, block.insts[i]? = some inst ∧ inst.def? = some v ∧ point = ⟨index, i + 1⟩ := by
  unfold Block.definitions
  rw [List.mem_append, List.mem_map]
  refine or_congr ?_ ?_
  · constructor
    · rintro ⟨phi, member, same⟩
      exact ⟨phi, member, congrArg Prod.fst same, (congrArg Prod.snd same).symm⟩
    · rintro ⟨phi, member, rfl, rfl⟩
      exact ⟨phi, member, rfl⟩
  · rw [List.mem_flatten]
    constructor
    · rintro ⟨defined, listed, member⟩
      obtain ⟨i, inside, rfl⟩ := List.mem_mapIdx.mp listed
      obtain ⟨w, made, same⟩ := List.mem_map.mp member
      obtain ⟨rfl, rfl⟩ := Prod.mk.inj same
      exact ⟨i, _, List.getElem?_eq_getElem inside, Option.mem_toList.mp made, rfl⟩
    · rintro ⟨i, inst, found, made, rfl⟩
      obtain ⟨inside, rfl⟩ := List.getElem?_eq_some_iff.mp found
      refine ⟨_, List.mem_mapIdx.mpr ⟨i, inside, rfl⟩, ?_⟩
      exact List.mem_map.mpr ⟨v, Option.mem_toList.mpr made, rfl⟩

theorem map_flatten_mapIdx {α β γ : Type} {listed : Nat → α → List (β × γ)} {plain : α → List β}
    (same : ∀ i a, (listed i a).map Prod.fst = plain a) (list : List α) :
    (list.mapIdx listed).flatten.map Prod.fst = list.flatMap plain := by
  induction list generalizing listed with
  | nil => rfl
  | cons head rest ih =>
      rw [List.mapIdx_cons, List.flatten_cons, List.map_append, List.flatMap_cons, same,
        ih fun i => same (i + 1)]

theorem Block.map_definitions (index : Nat) (block : Block) :
    (block.definitions index).map Prod.fst = block.defs := by
  unfold definitions defs
  rw [List.map_append, List.map_map, List.filterMap_eq_flatMap_toList]
  refine congrArg _ (map_flatten_mapIdx (fun i inst => ?_) block.insts)
  rw [List.map_map]
  exact List.map_id _

theorem Func.map_definitions (f : Func) : f.definitions.map Prod.fst = f.defs := by
  unfold definitions defs
  rw [List.map_append, List.map_map, map_flatten_mapIdx Block.map_definitions]
  exact congrArg (· ++ _) (List.map_id _)

namespace Func

variable {f : Func} {known : NumberMap Point}

theorem mem_definitions {v : Nat} {point : Point} :
    (v, point) ∈ f.definitions ↔
      (v ∈ f.params ∧ point = ⟨FlowGraph.entry, 0⟩) ∨
      ∃ (b : Nat) (block : Block), f.blocks[b]? = some block ∧
        (v, point) ∈ block.definitions b := by
  unfold definitions
  rw [List.mem_append, List.mem_map, List.mem_flatten]
  refine or_congr ?_ ?_
  · constructor
    · rintro ⟨param, member, same⟩
      obtain ⟨rfl, rfl⟩ := Prod.mk.inj same
      exact ⟨member, rfl⟩
    · rintro ⟨member, rfl⟩
      exact ⟨v, member, rfl⟩
  · constructor
    · rintro ⟨defined, listed, member⟩
      obtain ⟨b, inside, rfl⟩ := List.mem_mapIdx.mp listed
      exact ⟨b, _, List.getElem?_eq_getElem inside, member⟩
    · rintro ⟨b, block, found, member⟩
      obtain ⟨inside, rfl⟩ := List.getElem?_eq_some_iff.mp found
      exact ⟨_, List.mem_mapIdx.mpr ⟨b, inside, rfl⟩, member⟩

/-- Values that are recorded without an objection are new and distinct. -/
theorem foldlM_define {name : String} {entries : List (Nat × Point)} {before : NumberMap Point}
    (ok : entries.foldlM (fun known entry =>
      if known.contains entry.1 then .error (.redefined name entry.1)
      else .ok (known.insert entry.1 entry.2)) before = (.ok known : Except Objection _)) :
    (entries.map Prod.fst).Nodup ∧ (∀ v ∈ entries.map Prod.fst, before.get? v = none) ∧
      ∀ v, known.get? v = (entries.lookup v).or (before.get? v) := by
  induction entries generalizing before with
  | nil =>
      cases ok
      exact ⟨List.nodup_nil, fun v member => absurd member List.not_mem_nil, fun v => rfl⟩
  | cons head rest ih =>
      obtain ⟨w, point⟩ := head
      rw [List.foldlM_cons] at ok
      obtain ⟨next, first, ok⟩ := bind_eq_ok.mp ok
      by_cases redefined : before.contains w = true
      · rw [if_pos redefined] at first
        cases first
      rw [if_neg redefined] at first
      cases first
      obtain ⟨distinct, fresh, lookups⟩ := ih ok
      have unlisted : w ∉ rest.map Prod.fst := by
        intro member
        have missing := fresh w member
        rw [NumberMap.get?_insert, if_pos rfl] at missing
        cases missing
      refine ⟨List.nodup_cons.mpr ⟨unlisted, distinct⟩, ?_, ?_⟩
      · intro v member
        rcases List.mem_cons.mp member with rfl | later
        · cases found : before.get? v with
          | none => rfl
          | some point => exact absurd (NumberMap.contains_iff.mpr ⟨point, found⟩) redefined
        · have different : v ≠ w := fun same => unlisted (same ▸ later)
          have missing := fresh v later
          rwa [NumberMap.get?_insert, if_neg different] at missing
      · intro v
        rw [lookups, Incoming.lookup_cons_eq, NumberMap.get?_insert]
        by_cases same : v = w
        · rw [if_pos same, if_pos same, Incoming.lookup_eq_none (same ▸ unlisted)]
          rfl
        · rw [if_neg same, if_neg same]

/-- New and distinct values are recorded without an objection. -/
theorem exists_foldlM_define {name : String} {entries : List (Nat × Point)}
    (distinct : (entries.map Prod.fst).Nodup) {before : NumberMap Point}
    (fresh : ∀ v ∈ entries.map Prod.fst, before.get? v = none) :
    ∃ known, entries.foldlM (fun known entry =>
      if known.contains entry.1 then .error (.redefined name entry.1)
      else .ok (known.insert entry.1 entry.2)) before = (.ok known : Except Objection _) := by
  induction entries generalizing before with
  | nil => exact ⟨before, rfl⟩
  | cons head rest ih =>
      obtain ⟨w, point⟩ := head
      obtain ⟨unlisted, distinct⟩ := List.nodup_cons.mp distinct
      have unknown : ¬ before.contains w = true := by
        rw [NumberMap.contains_iff]
        rintro ⟨point, found⟩
        rw [fresh w List.mem_cons_self] at found
        cases found
      have fresh (v : Nat) (member : v ∈ rest.map Prod.fst) :
          (before.insert w point).get? v = none := by
        have different : v ≠ w := fun same => unlisted (same ▸ member)
        rw [NumberMap.get?_insert, if_neg different]
        exact fresh v (List.mem_cons_of_mem _ member)
      obtain ⟨known, ok⟩ := ih distinct fresh
      refine ⟨known, ?_⟩
      rw [List.foldlM_cons, if_neg unknown]
      exact ok

theorem get?_definitionMap (ok : f.definitionMap = .ok known) {v : Nat} {point : Point} :
    known.get? v = some point ↔ (v, point) ∈ f.definitions := by
  obtain ⟨distinct, _, lookups⟩ := foldlM_define ok
  rw [lookups, ← Incoming.lookup_eq_some_iff distinct, NumberMap.get?_empty, Option.or_none]

/-- Definitions can be recorded if no value has two. -/
theorem exists_definitionMap_iff :
    (∃ known, f.definitionMap = .ok known) ↔ (f.definitions.map Prod.fst).Nodup := by
  constructor
  · rintro ⟨known, ok⟩
    exact (foldlM_define ok).1
  · intro distinct
    exact exists_foldlM_define distinct fun v _ => NumberMap.get?_empty v

theorem checkSingleDefinition_eq_ok_iff :
    f.checkSingleDefinition = .ok () ↔ (f.definitions.map Prod.fst).Nodup := by
  rw [← exists_definitionMap_iff]
  unfold checkSingleDefinition
  cases f.definitionMap with
  | error objection => simp [Except.map]
  | ok known => simp [Except.map]

/-! ## Phis -/

/-- Phis select from exactly the predecessors of their block. -/
def Keyed (f : Func) : Prop :=
  ∀ block, ∀ phi ∈ (f.blocks.get block).phis, ∀ key,
    key ∈ phi.incoming.keys ↔ ∃ pred : Fin f.blocks.length, key = pred.val ∧ f.flow.Leads pred block

/-- Keys and predecessors both ascend, so they agree if they have the same members. -/
theorem keys_eq_preds_iff {n : Nat} {graph : FlowGraph n} {edges : Edges n}
    (built : Edges.build graph = .ok edges) {incoming : Incoming Operand} {block : Fin n} :
    incoming.keys = (edges.preds.get block).map Fin.val ↔
      ∀ key, key ∈ incoming.keys ↔ ∃ pred : Fin n, key = pred.val ∧ graph.Leads pred block := by
  have member (key : Nat) : key ∈ (edges.preds.get block).map Fin.val ↔
      ∃ pred : Fin n, key = pred.val ∧ graph.Leads pred block := by
    rw [List.mem_map, ← FlowGraph.flows_eq_leads built]
    refine exists_congr fun pred => ?_
    rw [FlowGraph.transposed_of_build built pred block, and_comm, eq_comm]
  constructor
  · intro same key
    rw [same, member]
  · intro same
    have ascendingKeys : incoming.keys.Pairwise (· < ·) := List.pairwise_map.mpr incoming.ascending
    have ascendingPreds : ((edges.preds.get block).map Fin.val).Pairwise (· < ·) := by
      obtain ⟨_, rfl⟩ := Edges.build_eq_ok_iff.mp built
      exact List.pairwise_map.mpr (Edges.ascending_preds_ofSuccs _ block)
    refine List.Perm.eq_of_pairwise' ascendingKeys ascendingPreds ?_
    refine (List.perm_ext_iff_of_nodup ascendingKeys.nodup ascendingPreds.nodup).mpr fun key => ?_
    rw [same, member]

theorem checkPhis_eq_ok_iff : f.checkPhis = .ok (.ok ()) ↔
    (∀ block, ∀ target ∈ f.flow.succs block, target < f.blocks.length) ∧ f.Keyed := by
  unfold checkPhis
  rw [bind_eq_ok]
  have verdict {edges : Edges f.blocks.length} (built : Edges.build f.flow = .ok edges) :
      ((List.finRange f.blocks.length).forM fun block =>
        (f.blocks.get block).phis.forM fun phi =>
          if phi.incoming.keys = (edges.preds.get block).map Fin.val then .ok ()
          else (.error (.phiKeys f.name phi.dest block phi.incoming.keys
            ((edges.preds.get block).map Fin.val)) : Verdict)) = .ok () ↔ f.Keyed := by
    rw [forM_eq_ok_iff]
    refine forall_congr' fun block => ?_
    simp only [List.mem_finRange, true_imp_iff]
    rw [forM_eq_ok_iff]
    refine forall₂_congr fun phi member => ?_
    rw [← keys_eq_preds_iff built]
    split
    · next same => exact ⟨fun _ => same, fun _ => rfl⟩
    · next different => exact ⟨nofun, fun same => absurd same different⟩
  constructor
  · rintro ⟨edges, built, ok⟩
    exact ⟨(Edges.build_eq_ok_iff.mp built).1, (verdict built).mp (Except.ok.inj ok)⟩
  · rintro ⟨closed, keyed⟩
    have built := Edges.build_eq_ok_iff.mpr ⟨closed, rfl⟩
    exact ⟨_, built, congrArg Except.ok ((verdict built).mpr keyed)⟩

/-! ## Uses -/

theorem firstObjection_eq_ok_iff {verdicts : List (Except Fault Verdict)} :
    firstObjection verdicts = .ok (.ok ()) ↔ ∀ verdict ∈ verdicts, verdict = .ok (.ok ()) := by
  induction verdicts with
  | nil => exact ⟨fun _ verdict member => absurd member List.not_mem_nil, fun _ => rfl⟩
  | cons head rest ih =>
      rw [List.forall_mem_cons, ← ih]
      cases head with
      | error fault => exact ⟨nofun, nofun⟩
      | ok checked =>
          cases checked with
          | error objection => exact ⟨nofun, nofun⟩
          | ok => exact ⟨fun ok => ⟨rfl, ok⟩, fun ok => ok.2⟩

theorem mem_blockUses {index : Nat} {block : Block} {operand : Operand} {point : Point} :
    (operand, point) ∈ block.uses index ↔
      (∃ (i : Nat) (inst : Inst), block.insts[i]? = some inst ∧ operand ∈ inst.operands ∧
        point = ⟨index, i + 1⟩) ∨
      operand ∈ block.term.operands ∧ point = ⟨index, block.endPosition⟩ := by
  unfold Block.uses
  rw [List.mem_append, List.mem_flatten, List.mem_map]
  refine or_congr ?_ ?_
  · constructor
    · rintro ⟨used, listed, member⟩
      obtain ⟨i, inside, rfl⟩ := List.mem_mapIdx.mp listed
      obtain ⟨other, isOperand, same⟩ := List.mem_map.mp member
      obtain ⟨rfl, rfl⟩ := Prod.mk.inj same
      exact ⟨i, _, List.getElem?_eq_getElem inside, isOperand, rfl⟩
    · rintro ⟨i, inst, found, isOperand, rfl⟩
      obtain ⟨inside, rfl⟩ := List.getElem?_eq_some_iff.mp found
      exact ⟨_, List.mem_mapIdx.mpr ⟨i, inside, rfl⟩, List.mem_map_of_mem isOperand⟩
  · constructor
    · rintro ⟨other, isOperand, same⟩
      obtain ⟨rfl, rfl⟩ := Prod.mk.inj same
      exact ⟨isOperand, rfl⟩
    · rintro ⟨isOperand, rfl⟩
      exact ⟨operand, isOperand, rfl⟩

theorem mem_uses {use : Except Fault (Operand × Point)} :
    use ∈ f.uses ↔ ∃ block : Fin f.blocks.length, use ∈ f.phiUses (f.blocks.get block) ∨
      ∃ used ∈ (f.blocks.get block).uses block.val, use = .ok used := by
  unfold uses
  rw [List.mem_flatten]
  constructor
  · rintro ⟨used, listed, member⟩
    obtain ⟨b, inside, rfl⟩ := List.mem_mapIdx.mp listed
    refine ⟨⟨b, inside⟩, (List.mem_append.mp member).imp_right fun later => ?_⟩
    obtain ⟨used, isUsed, same⟩ := List.mem_map.mp later
    exact ⟨used, isUsed, same.symm⟩
  · rintro ⟨block, either⟩
    refine ⟨_, List.mem_mapIdx.mpr ⟨block.val, block.isLt, rfl⟩, List.mem_append.mpr ?_⟩
    refine either.imp_right ?_
    rintro ⟨used, isUsed, rfl⟩
    exact List.mem_map_of_mem isUsed

theorem mem_phiUses {block : Block} {use : Except Fault (Operand × Point)} :
    use ∈ f.phiUses block ↔ ∃ phi ∈ block.phis, ∃ entry ∈ phi.incoming.entries,
      use = (fetch f.blocks entry.1).map fun source =>
        (entry.2, ⟨entry.1, source.endPosition⟩) := by
  unfold phiUses
  rw [List.mem_flatMap]
  refine exists_congr fun phi => and_congr_right fun _ => ?_
  rw [List.mem_map]
  refine exists_congr fun entry => and_congr_right fun _ => ?_
  rw [eq_comm]
  obtain ⟨pred, operand⟩ := entry
  show use = (fetch f.blocks pred >>= _) ↔ use = (fetch f.blocks pred).map _
  cases fetch f.blocks pred with
  | error fault => rfl
  | ok source => rfl

theorem result_construct {n : Nat} (edges : Edges n) (entry : Nat) :
    (DomTree.construct edges entry).result = DomTree.build edges entry := by
  unfold DomTree.construct
  rw [Pass.result_bind]
  show (DomTree.build edges entry).bind _ = _
  cases DomTree.build edges entry with
  | error fault => rfl
  | ok tree =>
      show Pass.result (if n ≠ 0 then _ else _) = _
      split
      · rfl
      · rfl

end Func

/-! ## Strict functions -/

/-- The place comes before a position of a block on every path: earlier in the block, or in a block
that strictly dominates it. -/
def Point.Before {n : Nat} (edge : Fin n → Fin n → Prop) (root : Fin n) (point : Point)
    (block : Fin n) (position : Nat) : Prop :=
  point.block = block.val ∧ point.position < position ∨
    ∃ d : Fin n, point.block = d.val ∧ d ≠ block ∧ Dominates edge root d block

namespace Func

/-- A value has its definition before a position of a block. -/
def DefinedAt (f : Func) (root : Fin f.blocks.length) (v : Nat) (block : Fin f.blocks.length)
    (position : Nat) : Prop :=
  ∃ point, (v, point) ∈ f.definitions ∧ point.Before f.flow.Leads root block position

/-- An operand is defined before a position of a block. -/
def Defined (f : Func) (root : Fin f.blocks.length) (operand : Operand)
    (block : Fin f.blocks.length) (position : Nat) : Prop :=
  ∀ v, operand = .value v → f.DefinedAt root v block position

/-- Every value has one definition, every block is reached, and every use comes behind the definition;
operands of phis are used at the ends of the blocks they come from. -/
structure Strict (f : Func) (root : Fin f.blocks.length) : Prop where
  entry : root.val = FlowGraph.entry
  closed : ∀ block, ∀ target ∈ f.flow.succs block, target < f.blocks.length
  distinct : (f.definitions.map Prod.fst).Nodup
  reached : ∀ block, Relation.ReflTransGen f.flow.Leads root block
  phiUses : ∀ {block}, ∀ phi ∈ (f.blocks.get block).phis, ∀ entry ∈ phi.incoming.entries,
    ∃ pred : Fin f.blocks.length, entry.1 = pred.val ∧
      f.Defined root entry.2 pred (f.blocks.get pred).endPosition
  instUses : ∀ {block i inst}, (f.blocks.get block).insts[i]? = some inst →
    ∀ operand ∈ inst.operands, f.Defined root operand block (i + 1)
  termUses : ∀ {block}, ∀ operand ∈ (f.blocks.get block).term.operands,
    f.Defined root operand block (f.blocks.get block).endPosition

theorem Strict.unique {f : Func} {root : Fin f.blocks.length} (strict : f.Strict root) {v : Nat}
    {first second : Point} (isFirst : (v, first) ∈ f.definitions)
    (isSecond : (v, second) ∈ f.definitions) : first = second := by
  rw [← Incoming.lookup_eq_some_iff strict.distinct] at isFirst isSecond
  exact Option.some.inj (isFirst.symm.trans isSecond)

section Dominance

variable {f : Func} {known : NumberMap Point} {root : Fin f.blocks.length}
  {tree : DomTree f.blocks.length}

theorem checkUse_eq_ok_iff (defined : f.definitionMap = .ok known)
    (correct : tree.Correct f.flow.Leads root) {operand : Operand} {block : Fin f.blocks.length}
    {position : Nat} (reached : Relation.ReflTransGen f.flow.Leads root block) :
    f.checkUse tree known operand ⟨block.val, position⟩ = .ok (.ok ()) ↔
      f.Defined root operand block position := by
  cases operand with
  | const c => exact ⟨fun _ => nofun, fun _ => rfl⟩
  | undef => exact ⟨fun _ => nofun, fun _ => rfl⟩
  | value v =>
      have available : f.Defined root (.value v) block position ↔
          ∃ point, known.get? v = some point ∧ point.Before f.flow.Leads root block position := by
        simp only [get?_definitionMap defined]
        exact ⟨fun all => all v rfl, fun found w same => Operand.value.inj same ▸ found⟩
      rw [available]
      unfold checkUse Operand.value?
      simp only
      cases known.get? v with
      | none => exact ⟨nofun, nofun⟩
      | some point =>
          have answer (isBefore : Bool) :
              (Except.ok (if isBefore then .ok ()
                else .error (.notDominated f.name v point.block block.val)) :
                  Except Fault Verdict) = .ok (.ok ()) ↔ isBefore = true := by
            cases isBefore with
            | false => exact ⟨nofun, nofun⟩
            | true => exact ⟨fun _ => rfl, fun _ => rfl⟩
          simp only [Option.some.injEq, exists_eq_left']
          by_cases same : point.block = block.val
          · rw [if_pos same]
            refine (answer _).trans (decide_eq_true_iff.trans ⟨fun less => .inl ⟨same, less⟩, ?_⟩)
            rintro (⟨_, less⟩ | ⟨d, isBlock, different, _⟩)
            · exact less
            · exact absurd (Fin.ext (isBlock.symm.trans same)) different
          · rw [if_neg same, bind_eq_ok]
            simp only [pure, Except.pure, answer]
            rw [exists_eq_right, correct.dominates_eq_true_iff reached]
            constructor
            · rintro ⟨d, isBlock, dominates⟩
              exact .inr ⟨d, isBlock, fun equal => same (equal ▸ isBlock), dominates⟩
            · rintro (⟨here, _⟩ | ⟨d, isBlock, _, dominates⟩)
              · exact absurd here same
              · exact ⟨d, isBlock, dominates⟩

/-- Uses are checked at the places that strict functions have them. -/
theorem checkUses_iff (defined : f.definitionMap = .ok known)
    (correct : tree.Correct f.flow.Leads root)
    (reached : ∀ block, Relation.ReflTransGen f.flow.Leads root block) :
    (∀ use ∈ f.uses, (use >>= fun used => f.checkUse tree known used.1 used.2) = .ok (.ok ())) ↔
      (∀ {block}, ∀ phi ∈ (f.blocks.get block).phis, ∀ entry ∈ phi.incoming.entries,
        ∃ pred : Fin f.blocks.length, entry.1 = pred.val ∧
          f.Defined root entry.2 pred (f.blocks.get pred).endPosition) ∧
      (∀ {block i inst}, (f.blocks.get block).insts[i]? = some inst →
        ∀ operand ∈ inst.operands, f.Defined root operand block (i + 1)) ∧
      ∀ {block}, ∀ operand ∈ (f.blocks.get block).term.operands,
        f.Defined root operand block (f.blocks.get block).endPosition := by
  constructor
  · intro checked
    have used {block : Fin f.blocks.length} {operand : Operand} {position : Nat}
        (member : (operand, ⟨block.val, position⟩) ∈ (f.blocks.get block).uses block.val) :
        f.Defined root operand block position := by
      have ok := checked _ (mem_uses.mpr ⟨block, .inr ⟨_, member, rfl⟩⟩)
      exact (checkUse_eq_ok_iff defined correct (reached block)).mp ok
    refine ⟨?_, ?_, ?_⟩
    · intro block phi member entry inside
      have ok := checked _ (mem_uses.mpr ⟨block, .inl (mem_phiUses.mpr ⟨phi, member, entry, inside, rfl⟩)⟩)
      unfold fetch at ok
      cases found : f.blocks[entry.1]? with
      | none =>
          rw [found] at ok
          cases ok
      | some source =>
          rw [found] at ok
          obtain ⟨bound, rfl⟩ := List.getElem?_eq_some_iff.mp found
          exact ⟨⟨entry.1, bound⟩, rfl, (checkUse_eq_ok_iff defined correct (reached _)).mp ok⟩
    · intro block i inst listed operand member
      exact used (mem_blockUses.mpr (.inl ⟨i, inst, listed, member, rfl⟩))
    · intro block operand member
      exact used (mem_blockUses.mpr (.inr ⟨member, rfl⟩))
  · rintro ⟨phiUses, instUses, termUses⟩ use member
    obtain ⟨block, inPhi | ⟨⟨operand, point⟩, inBlock, rfl⟩⟩ := mem_uses.mp member
    · obtain ⟨phi, inside, entry, listed, rfl⟩ := mem_phiUses.mp inPhi
      obtain ⟨pred, isPred, available⟩ := phiUses phi inside entry listed
      have found : f.blocks[entry.1]? = some (f.blocks.get pred) := by
        rw [isPred]
        exact List.getElem?_eq_getElem pred.isLt
      unfold fetch
      rw [found, isPred]
      exact (checkUse_eq_ok_iff defined correct (reached pred)).mpr available
    · rcases mem_blockUses.mp inBlock with ⟨i, inst, listed, isOperand, rfl⟩ | ⟨isOperand, rfl⟩
      · exact (checkUse_eq_ok_iff defined correct (reached block)).mpr
          (instUses listed operand isOperand)
      · exact (checkUse_eq_ok_iff defined correct (reached block)).mpr (termUses operand isOperand)

/-- The functions that pass the check are the strict ones. -/
theorem checkDominance_eq_ok_iff (nonempty : 0 < f.blocks.length) :
    f.checkDominance.result = .ok (.ok ()) ↔ f.Strict ⟨FlowGraph.entry, nonempty⟩ := by
  unfold checkDominance
  constructor
  · intro ok
    cases defined : f.definitionMap with
    | error objection =>
        rw [defined] at ok
        cases ok
    | ok known =>
        rw [defined] at ok
        obtain ⟨edges, built, ok⟩ := Pass.result_bind_eq_ok.mp ok
        obtain ⟨tree, constructed, ok⟩ := Pass.result_bind_eq_ok.mp ok
        rw [result_construct] at constructed
        have correct := FlowGraph.correct_build built nonempty constructed
        split at ok
        · cases ok
        · next none =>
            rw [List.find?_eq_none] at none
            have reached (block : Fin f.blocks.length) :=
              correct.isReachable_iff.mp (by simpa using none block.val (List.mem_range.mpr block.isLt))
            have checked := firstObjection_eq_ok_iff.mp ok
            rw [List.forall_mem_map] at checked
            obtain ⟨phiUses, instUses, termUses⟩ :=
              (checkUses_iff defined correct reached).mp checked
            exact ⟨rfl, (Edges.build_eq_ok_iff.mp built).1, exists_definitionMap_iff.mp ⟨known, defined⟩,
              reached, phiUses, instUses, termUses⟩
  · intro strict
    obtain ⟨known, defined⟩ := exists_definitionMap_iff.mpr strict.distinct
    have built := Edges.build_eq_ok_iff.mpr ⟨strict.closed, rfl⟩
    have rooted : DomTree.build (.ofSuccs f.flow.targets) FlowGraph.entry = .ok _ := dif_pos nonempty
    have correct := FlowGraph.correct_build built nonempty rooted
    rw [defined]
    refine Pass.result_bind_eq_ok.mpr ⟨_, built, Pass.result_bind_eq_ok.mpr
      ⟨_, (result_construct _ _).trans rooted, ?_⟩⟩
    have all : (List.range f.blocks.length).find? (fun block =>
        !(DomTree.rooted (.ofSuccs f.flow.targets) ⟨FlowGraph.entry, nonempty⟩).isReachable block) =
          none := by
      rw [List.find?_eq_none]
      intro block inside
      have reached := strict.reached ⟨block, List.mem_range.mp inside⟩
      rw [correct.isReachable_iff.mpr reached]
      exact Bool.false_ne_true
    rw [all]
    refine firstObjection_eq_ok_iff.mpr ?_
    rw [List.forall_mem_map]
    exact (checkUses_iff defined correct strict.reached).mpr
      ⟨strict.phiUses, strict.instUses, strict.termUses⟩

end Dominance

end Func

end Lowering.Ssa
