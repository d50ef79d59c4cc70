import Lowering.Proofs.Ssa.Availability

/-!
# Rebuilt blocks

A block of the promoted function holds the old phis, the placed ones and the instructions that were
kept, with every operand resolved.  A value that is neither a promoted slot nor an alias keeps its
definition, and what came behind the definition still does.
-/

namespace Lowering.Ssa

/-! ## Operands -/

theorem Inst.def?_mapOperands (change : Operand → Operand) (inst : Inst) :
    (inst.mapOperands change).def? = inst.def? := by
  cases inst <;> rfl

theorem Inst.mem_operands_mapOperands {change : Operand → Operand} {inst : Inst} {operand : Operand}
    (member : operand ∈ (inst.mapOperands change).operands) :
    ∃ old ∈ inst.operands, operand = change old := by
  have mapped : (inst.mapOperands change).operands = inst.operands.map change := by
    cases inst <;> simp [mapOperands, operands, valueOperands, address?]
  rw [mapped] at member
  obtain ⟨old, isOld, same⟩ := List.mem_map.mp member
  exact ⟨old, isOld, same.symm⟩

theorem Terminator.mem_operands_mapOperands {change : Operand → Operand} {term : Terminator}
    {operand : Operand} (member : operand ∈ (term.mapOperands change).operands) :
    ∃ old ∈ term.operands, operand = change old := by
  have mapped : (term.mapOperands change).operands = term.operands.map change := by
    cases term with
    | ret value => cases value <;> rfl
    | branch cond thenBlock elseBlock => rfl
    | jump target => rfl
  rw [mapped] at member
  obtain ⟨old, isOld, same⟩ := List.mem_map.mp member
  exact ⟨old, isOld, same.symm⟩

theorem Terminator.targets_mapOperands (change : Operand → Operand) (term : Terminator) :
    (term.mapOperands change).targets = term.targets := by
  cases term <;> rfl

/-! ## Kept entries -/

section Filter

variable {α : Type} {keep : α → Bool} {list : List α} {i j : Nat} {a : α}

/-- The entries of a filtered list are those of the list, each behind the kept ones before it. -/
theorem getElem?_filter_iff : (list.filter keep)[j]? = some a ↔
    ∃ i, list[i]? = some a ∧ keep a = true ∧ (list.take i).countP keep = j := by
  induction list generalizing j with
  | nil => simp
  | cons head rest ih =>
      have shifted : (∃ i, (head :: rest)[i]? = some a ∧ keep a = true ∧
          ((head :: rest).take i).countP keep = j) ↔
            (head = a ∧ keep a = true ∧ j = 0) ∨ ∃ i, rest[i]? = some a ∧ keep a = true ∧
              (rest.take i).countP keep + (if keep head then 1 else 0) = j := by
        constructor
        · rintro ⟨i, found, kept, counted⟩
          cases i with
          | zero => exact .inl ⟨Option.some.inj found, kept, counted.symm⟩
          | succ i =>
              rw [List.take_succ_cons, List.countP_cons] at counted
              exact .inr ⟨i, found, kept, counted⟩
        · rintro (⟨rfl, kept, rfl⟩ | ⟨i, found, kept, counted⟩)
          · exact ⟨0, rfl, kept, rfl⟩
          · refine ⟨i + 1, found, kept, ?_⟩
            rw [List.take_succ_cons, List.countP_cons]
            exact counted
      rw [shifted, List.filter_cons]
      by_cases kept : keep head = true
      · rw [if_pos kept, if_pos kept]
        cases j with
        | zero =>
            rw [List.getElem?_cons_zero, Option.some.injEq]
            constructor
            · exact fun same => .inl ⟨same, same ▸ kept, rfl⟩
            · rintro (⟨same, _⟩ | ⟨i, _, _, counted⟩)
              · exact same
              · cases counted
        | succ j =>
            rw [List.getElem?_cons_succ, ih]
            simp
      · rw [if_neg kept, if_neg kept, ih]
        constructor
        · exact .inr
        · rintro (⟨rfl, isKept, _⟩ | found)
          · exact absurd isKept kept
          · exact found

theorem countP_take_le (le : i ≤ j) : (list.take i).countP keep ≤ (list.take j).countP keep :=
  List.Sublist.countP_le (List.take_sublist_take_left le)

theorem countP_take_lt (found : list[i]? = some a) (kept : keep a = true) (less : i < j) :
    (list.take i).countP keep < (list.take j).countP keep := by
  refine Nat.lt_of_lt_of_le ?_ (countP_take_le (Nat.succ_le_of_lt less))
  rw [List.take_add_one, found, List.countP_append]
  simp [kept]

end Filter

namespace Promotion

variable {f : Func} (p : Promotion f) {operand : Operand} {index : Fin f.blocks.length}
  {inst : Inst} {i : Nat}

/-! ## Blocks -/

/-- The placed phis of a block, before operands are resolved. -/
def placedPhis (block : Fin f.blocks.length) : List Phi :=
  (p.placed.filter fun phi => phi.block == block).map fun phi =>
    ⟨phi.dest, p.outcome.incoming.getD phi.dest .empty⟩

/-- A block of the promoted function. -/
def block (index : Fin f.blocks.length) : Block :=
  let old := f.blocks.get index
  { name := old.name
    phis := (old.phis ++ p.placedPhis index).map (Phi.mapOperands p.resolve)
    insts := (old.insts.filter (!p.plan.removes ·)).map (Inst.mapOperands p.resolve)
    term := old.term.mapOperands p.resolve }

theorem blocks_func : p.func.blocks = List.ofFn p.block := by
  have same (index : Fin f.blocks.length) :
      p.outcome.insts.get index = (f.blocks.get index).insts.filter (!p.plan.removes ·) :=
    p.toured.kept index trivial
  show List.ofFn _ = _
  refine congrArg List.ofFn (funext fun index => ?_)
  unfold block Block.mapOperands
  simp only [same]
  rfl

theorem length_blocks : p.func.blocks.length = f.blocks.length := by
  rw [blocks_func, List.length_ofFn]

theorem getElem?_blocks (index : Fin f.blocks.length) :
    p.func.blocks[index.val]? = some (p.block index) := by
  rw [blocks_func, List.getElem?_ofFn, dif_pos index.isLt]

/-- The number of a block of the promoted function among the old blocks. -/
def old (index : Fin p.func.blocks.length) : Fin f.blocks.length := index.cast p.length_blocks

theorem get_blocks (index : Fin p.func.blocks.length) :
    p.func.blocks.get index = p.block (p.old index) := by
  have found := p.getElem?_blocks (p.old index)
  exact Option.some.inj ((List.getElem?_eq_getElem index.isLt).symm.trans found)

theorem placed_entries {phi : PlacedPhi f.blocks.length f.promotableSlots.length}
    (member : phi ∈ p.placed) {key : Nat} :
    (key, operand) ∈ (p.outcome.incoming.getD phi.dest .empty).entries ↔
      ∃ pred : Fin f.blocks.length, key = pred.val ∧ f.flow.Leads pred phi.block ∧
        operand = p.plan.atEnd p.tree pred phi.slot := by
  obtain ⟨incoming, recorded⟩ := Option.isSome_iff_exists.mp (p.toured.recorded phi member)
  have isIncoming : p.outcome.incoming.getD phi.dest .empty = incoming := by
    rw [Std.TreeMap.getD_eq_getD_getElem?]
    exact congrArg (Option.getD · _) recorded
  have selects : p.outcome.selects phi.dest key = incoming.get? key := by
    unfold Renaming.selects
    rw [recorded]
    rfl
  rw [isIncoming, ← Incoming.get?_eq_some_iff, ← selects, p.toured.fed phi member]
  refine exists_congr fun pred => ?_
  rw [← FlowGraph.flows_eq_leads p.built]
  simp only [true_and]
  rfl

/-! ## Positions -/

/-- Where a position of a block has moved. -/
def shift (index : Fin f.blocks.length) : Nat → Nat
  | 0 => 0
  | i + 1 => ((f.blocks.get index).insts.take i).countP (!p.plan.removes ·) + 1

theorem shift_endPosition (index : Fin f.blocks.length) :
    p.shift index (f.blocks.get index).endPosition = (p.block index).endPosition := by
  have insts : (p.block index).insts.length =
      (f.blocks.get index).insts.countP (!p.plan.removes ·) := by
    rw [List.countP_eq_length_filter]
    exact List.length_map _
  show ((f.blocks.get index).insts.take (f.blocks.get index).insts.length).countP _ + 1 = _
  rw [List.take_length, Block.endPosition, insts]

theorem getElem?_insts_iff {j : Nat} :
    (p.block index).insts[j]? = some inst ↔
      ∃ i old, (f.blocks.get index).insts[i]? = some old ∧ p.plan.removes old = false ∧
        inst = old.mapOperands p.resolve ∧ j + 1 = p.shift index (i + 1) := by
  show ((_ : List Inst).map _)[j]? = _ ↔ _
  rw [List.getElem?_map, Option.map_eq_some_iff]
  constructor
  · rintro ⟨old, found, rfl⟩
    obtain ⟨i, listed, kept, rfl⟩ := getElem?_filter_iff.mp found
    exact ⟨i, old, listed, by simpa using kept, rfl, rfl⟩
  · rintro ⟨i, old, listed, kept, rfl, moved⟩
    refine ⟨old, getElem?_filter_iff.mpr ⟨i, listed, ?_, (Nat.succ.inj moved).symm⟩, rfl⟩
    rw [kept]
    rfl

theorem free_of_kept (found : (f.blocks.get index).insts[i]? = some inst)
    (kept : p.plan.removes inst = false)
    (member : operand ∈ inst.operands) :
    ∀ slot ∈ f.promotableSlots, operand ≠ .value slot := by
  rcases List.mem_append.mp member with isValue | isAddress
  · exact free_of_inst found isValue
  · have unslotted : slotOf? f.promotableSlots operand = none := by
      cases inst with
      | load dest addr =>
          obtain rfl := List.mem_singleton.mp isAddress
          exact Option.isNone_iff_eq_none.mp (Option.isSome_eq_false_iff.mp kept)
      | store value addr =>
          obtain rfl := List.mem_singleton.mp isAddress
          exact Option.isNone_iff_eq_none.mp (Option.isSome_eq_false_iff.mp kept)
      | alloca _ | binary _ _ _ _ | cmp _ _ _ _ | call _ _ _ => cases isAddress
    exact slotOf?_eq_none_iff.mp unslotted

theorem available_of_kept (found : (f.blocks.get index).insts[i]? = some inst)
    (kept : p.plan.removes inst = false)
    (member : operand ∈ inst.operands) :
    p.Available operand index (i + 1) :=
  available_of_defined (p.strict.instUses found operand member) (p.free_of_kept found kept member)

/-! ## Definitions -/

/-- An instruction that defines a value which is neither a promoted slot nor an alias is kept. -/
theorem not_removes {v : Nat} (found : (f.blocks.get index).insts[i]? = some inst)
    (made : inst.def? = some v)
    (free : v ∉ f.promotableSlots) (unaliased : p.outcome.aliases.get? v = none) :
    p.plan.removes inst = false := by
  cases inst with
  | alloca dest =>
      obtain rfl := Option.some.inj made
      have unslotted : slotOf? f.promotableSlots (.value dest) = none :=
        slotOf?_eq_none_iff.mpr fun slot member same => free (Operand.value.inj same ▸ member)
      show (slotOf? f.promotableSlots (.value dest)).isSome = false
      rw [unslotted]
      rfl
  | load dest addr =>
      obtain rfl := Option.some.inj made
      show (slotOf? f.promotableSlots addr).isSome = false
      cases isSlot : slotOf? f.promotableSlots addr with
      | none => rfl
      | some slot =>
          have aliased := p.alias_iff.mpr ⟨index, i, addr, slot, found, isSlot, rfl⟩
          rw [unaliased] at aliased
          cases aliased
  | store _ _ => cases made
  | binary _ _ _ _ | cmp _ _ _ _ | call _ _ _ => rfl

/-- A value that is neither a promoted slot nor an alias keeps its definition. -/
theorem definition_kept {v : Nat} {point : Point} (site : (v, point) ∈ p.sites)
    (free : v ∉ f.promotableSlots) (unaliased : p.outcome.aliases.get? v = none) :
    ∃ index : Fin f.blocks.length, point.block = index.val ∧
      (v, ⟨index.val, p.shift index point.position⟩) ∈ p.func.definitions ∧
      ∀ {later}, point.position < later →
        p.shift index point.position < p.shift index later := by
  have early (index : Fin f.blocks.length) {later : Nat} (positive : 0 < later) :
      p.shift index 0 < p.shift index later := by
    cases later with
    | zero => exact absurd positive (Nat.lt_irrefl 0)
    | succ i => exact Nat.succ_pos _
  have inPhis {index : Fin f.blocks.length} {phi : Phi}
      (member : phi ∈ (f.blocks.get index).phis ++ p.placedPhis index) :
      (phi.dest, ⟨index.val, 0⟩) ∈ p.func.definitions := by
    refine Func.mem_definitions.mpr (.inr ⟨index.val, _, p.getElem?_blocks index, ?_⟩)
    refine mem_blockDefinitions.mpr (.inl ⟨phi.mapOperands p.resolve, ?_, rfl, rfl⟩)
    exact List.mem_map_of_mem member
  rcases List.mem_append.mp site with defined | placed
  · rcases Func.mem_definitions.mp defined with ⟨param, rfl⟩ | ⟨b, code, isCode, defined⟩
    · refine ⟨p.root, p.strict.entry.symm, ?_, early p.root⟩
      exact Func.mem_definitions.mpr (.inl ⟨param, congrArg (Point.mk · 0) p.strict.entry⟩)
    · obtain ⟨inside, rfl⟩ := List.getElem?_eq_some_iff.mp isCode
      rcases mem_blockDefinitions.mp defined with ⟨phi, member, rfl, rfl⟩ |
        ⟨i, inst, found, made, rfl⟩
      · exact ⟨⟨b, inside⟩, rfl, inPhis (List.mem_append_left _ member), early _⟩
      · have found : (f.blocks.get ⟨b, inside⟩).insts[i]? = some inst := found
        have kept := p.not_removes found made free unaliased
        refine ⟨⟨b, inside⟩, rfl, ?_, ?_⟩
        · refine Func.mem_definitions.mpr (.inr ⟨b, _, p.getElem?_blocks ⟨b, inside⟩, ?_⟩)
          refine mem_blockDefinitions.mpr (.inr ⟨_, inst.mapOperands p.resolve,
            p.getElem?_insts_iff.mpr ⟨i, inst, found, kept, rfl, rfl⟩, ?_, rfl⟩)
          rw [Inst.def?_mapOperands, made]
        · intro later less
          cases later with
          | zero => cases less
          | succ j =>
              refine Nat.succ_lt_succ (countP_take_lt found ?_ (Nat.lt_of_succ_lt_succ less))
              rw [kept]
              rfl
  · obtain ⟨phi, member, same⟩ := List.mem_map.mp placed
    obtain ⟨rfl, rfl⟩ := Prod.mk.inj same
    refine ⟨phi.block, rfl, ?_, early phi.block⟩
    refine inPhis (List.mem_append_right _ (List.mem_map.mpr ⟨phi, ?_, rfl⟩))
    exact List.mem_filter.mpr ⟨member, beq_self_eq_true _⟩

end Promotion

end Lowering.Ssa
