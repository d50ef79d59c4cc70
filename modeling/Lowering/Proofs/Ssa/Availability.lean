import Lowering.Proofs.Ssa.Promotion
import Lowering.Proofs.Ssa.Resolution
import Mathlib.Data.Prod.Lex
import Mathlib.Order.WellFounded

/-!
# Availability

The values that a tour finds for the slots of a place are defined before the place.  So an alias leads
to a value defined earlier, following aliases ends, and what an operand resolves to is available
wherever the operand is.
-/

namespace Lowering.Ssa

open Dominance

namespace Point.Before

variable {n : Nat} {edge : Fin n → Fin n → Prop} {root : Fin n} {tree : DomTree n}
  {point : Point} {block lower : Fin n} {position later : Nat}

theorem mono (before : point.Before edge root block position) (le : position ≤ later) :
    point.Before edge root block later :=
  before.imp_left fun ⟨same, less⟩ => ⟨same, Nat.lt_of_lt_of_le less le⟩

/-- What comes before a block comes before the blocks it dominates. -/
theorem below (correct : tree.Correct edge root)
    (reached : ∀ block, Relation.ReflTransGen edge root block)
    (before : point.Before edge root block position) (different : block ≠ lower)
    (dominates : Dominates edge root block lower) : point.Before edge root lower later := by
  rcases before with ⟨same, _⟩ | ⟨d, same, other, above⟩
  · exact .inr ⟨block, same, different, dominates⟩
  · refine .inr ⟨d, same, ?_, above.trans dominates⟩
    rintro rfl
    obtain ⟨rank, hierarchy⟩ := correct.hierarchy
    exact other (hierarchy.antisymm (reached _) (reached _) above dominates)

theorem trans (correct : tree.Correct edge root)
    (reached : ∀ block, Relation.ReflTransGen edge root block)
    (first : point.Before edge root block position)
    (second : (⟨block.val, position⟩ : Point).Before edge root lower later) :
    point.Before edge root lower later := by
  rcases second with ⟨same, less⟩ | ⟨d, same, different, dominates⟩
  · obtain rfl := Fin.ext same
    exact first.mono (Nat.le_of_lt less)
  · obtain rfl := Fin.ext same
    exact first.below correct reached different dominates

/-- Places are ordered by the rank of their block, then by position. -/
theorem lt {idom : Table n (Option (Fin n))} {rank : Fin n → Nat}
    (hierarchy : DomTree.Hierarchy edge root idom rank)
    (reached : Relation.ReflTransGen edge root block)
    (before : point.Before edge root block position) : ∃ b : Fin n, point.block = b.val ∧
      toLex (rank b, point.position) < toLex (rank block, position) := by
  rcases before with ⟨same, less⟩ | ⟨d, same, different, dominates⟩
  · exact ⟨block, same, Prod.Lex.toLex_lt_toLex.mpr (.inr ⟨rfl, less⟩)⟩
  · refine ⟨d, same, Prod.Lex.toLex_lt_toLex.mpr (.inl ?_)⟩
    exact (hierarchy.eq_or_rank_lt reached dominates).resolve_left different

end Point.Before

namespace Func

variable {f : Func} {block : Fin f.blocks.length} {v : Nat}

theorem mem_definitions_of_inst {i : Nat} {inst : Inst}
    (found : (f.blocks.get block).insts[i]? = some inst) (made : inst.def? = some v) :
    (v, ⟨block.val, i + 1⟩) ∈ f.definitions :=
  mem_definitions.mpr (.inr ⟨block.val, _, List.getElem?_eq_getElem block.isLt,
    mem_blockDefinitions.mpr (.inr ⟨i, inst, found, made, rfl⟩)⟩)

/-- A value that an instruction defines has no other definition. -/
theorem Strict.inst_unique {root : Fin f.blocks.length} (strict : f.Strict root) {i : Nat}
    {inst : Inst} (found : (f.blocks.get block).insts[i]? = some inst) (made : inst.def? = some v)
    {other : Fin f.blocks.length} {j : Nat} {second : Inst}
    (otherFound : (f.blocks.get other).insts[j]? = some second) (otherMade : second.def? = some v) :
    block = other ∧ i = j ∧ inst = second := by
  have same := strict.unique (mem_definitions_of_inst found made)
    (mem_definitions_of_inst otherFound otherMade)
  obtain rfl : block = other := Fin.ext (congrArg Point.block same)
  obtain rfl : i = j := Nat.succ.inj (congrArg Point.position same)
  exact ⟨rfl, rfl, Option.some.inj (found.symm.trans otherFound)⟩

end Func

theorem slotOf?_eq_some {slots : List Nat} {addr : Operand} {slot : Fin slots.length}
    (found : slotOf? slots addr = some slot) : addr = .value (slots.get slot) := by
  unfold slotOf? at found
  cases addr with
  | value v => exact congrArg Operand.value (List.finIdxOf?_eq_some_iff.mp found).1.symm
  | const c => cases found
  | undef => cases found

theorem slotOf?_eq_none_iff {slots : List Nat} {addr : Operand} :
    slotOf? slots addr = none ↔ ∀ slot ∈ slots, addr ≠ .value slot := by
  unfold slotOf?
  cases addr with
  | value v =>
      rw [Operand.value?, Option.bind_some, List.finIdxOf?_eq_none_iff]
      exact ⟨fun absent slot member same => absent (Operand.value.inj same ▸ member),
        fun other member => other v member rfl⟩
  | const c => exact ⟨fun _ _ _ => nofun, fun _ => rfl⟩
  | undef => exact ⟨fun _ _ _ => nofun, fun _ => rfl⟩

namespace Promotion

variable {f : Func} (p : Promotion f) {v : Nat}

/-! ## Definitions, with those of the placed phis -/

/-- The definitions of the function and of the placed phis. -/
def sites : List (Nat × Point) :=
  f.definitions ++ p.placed.map fun phi => (phi.dest, ⟨phi.block.val, 0⟩)

theorem dest_ge {phi : PlacedPhi f.blocks.length f.promotableSlots.length}
    (member : phi ∈ p.placed) : f.nextValue ≤ phi.dest := by
  obtain ⟨_, dests, _⟩ := numberPhis_eq_ok p.numbered
  have listed : phi.dest ∈ p.placed.map PlacedPhi.dest := List.mem_map_of_mem member
  rw [dests] at listed
  exact (List.mem_range'_1.mp listed).1

theorem nodup_sites : (p.sites.map Prod.fst).Nodup := by
  obtain ⟨_, dests, _⟩ := numberPhis_eq_ok p.numbered
  unfold sites
  rw [List.map_append, List.map_map, List.nodup_append]
  refine ⟨p.strict.distinct, ?_, ?_⟩
  · show (p.placed.map PlacedPhi.dest).Nodup
    rw [dests]
    exact List.nodup_range'
  · intro v defined w listed
    obtain ⟨phi, member, rfl⟩ := List.mem_map.mp listed
    have less := p.above v (f.map_definitions ▸ defined)
    exact Nat.ne_of_lt (Nat.lt_of_lt_of_le less (p.dest_ge member))

theorem site_unique {first second : Point} (isFirst : (v, first) ∈ p.sites)
    (isSecond : (v, second) ∈ p.sites) : first = second := by
  rw [← Incoming.lookup_eq_some_iff p.nodup_sites] at isFirst isSecond
  exact Option.some.inj (isFirst.symm.trans isSecond)

/-- Values have heights that grow with their places. -/
theorem exists_height : ∃ height : Nat → Nat ×ₗ Nat, ∀ {v w : Nat} {point : Point}
    {block : Fin f.blocks.length} {position : Nat}, (v, ⟨block.val, position⟩) ∈ p.sites →
    (w, point) ∈ p.sites → point.Before f.flow.Leads p.root block position →
    height w < height v := by
  obtain ⟨rank, hierarchy⟩ := p.correct.hierarchy
  let stamp (point : Point) : Nat ×ₗ Nat :=
    toLex (if inside : point.block < f.blocks.length then rank ⟨point.block, inside⟩ else 0,
      point.position)
  refine ⟨fun v => (p.sites.lookup v).elim (toLex (0, 0)) stamp, ?_⟩
  intro v w point block position siteV siteW before
  obtain ⟨b, isBlock, less⟩ := before.lt hierarchy (p.strict.reached block)
  simp only [(Incoming.lookup_eq_some_iff p.nodup_sites).mpr siteV,
    (Incoming.lookup_eq_some_iff p.nodup_sites).mpr siteW]
  obtain ⟨blockOf, positionOf⟩ := point
  obtain rfl := isBlock
  show stamp _ < stamp _
  simp only [stamp, b.isLt, block.isLt, dif_pos]
  exact less

/-! ## Available operands -/

/-- An operand that is no promoted slot is defined before a position of a block. -/
def Available (operand : Operand) (block : Fin f.blocks.length) (position : Nat) : Prop :=
  ∀ v, operand = .value v → v ∉ f.promotableSlots ∧ ∃ point, (v, point) ∈ p.sites ∧
    point.Before f.flow.Leads p.root block position

variable {p} {operand : Operand} {block lower : Fin f.blocks.length} {position later i : Nat}

theorem Available.mono (available : p.Available operand block position) (le : position ≤ later) :
    p.Available operand block later := by
  intro v same
  obtain ⟨free, point, site, before⟩ := available v same
  exact ⟨free, point, site, before.mono le⟩

theorem Available.below (available : p.Available operand block position) (different : block ≠ lower)
    (dominates : Dominates f.flow.Leads p.root block lower) :
    p.Available operand lower later := by
  intro v same
  obtain ⟨free, point, site, before⟩ := available v same
  exact ⟨free, point, site, before.below p.correct p.strict.reached different dominates⟩

theorem Available.trans (available : p.Available operand block position)
    (before : (⟨block.val, position⟩ : Point).Before f.flow.Leads p.root lower later) :
    p.Available operand lower later := by
  intro v same
  obtain ⟨free, point, site, first⟩ := available v same
  exact ⟨free, point, site, first.trans p.correct p.strict.reached before⟩

theorem available_of_defined (defined : f.Defined p.root operand block position)
    (free : ∀ slot ∈ f.promotableSlots, operand ≠ .value slot) :
    p.Available operand block position := by
  intro v same
  obtain ⟨point, site, before⟩ := defined v same
  exact ⟨fun member => free v member same, point, List.mem_append_left _ site, before⟩

/-- An operand that is read as a value is no promoted slot. -/
theorem free_of_inst {inst : Inst} (found : (f.blocks.get block).insts[i]? = some inst)
    (member : operand ∈ inst.valueOperands) :
    ∀ slot ∈ f.promotableSlots, operand ≠ .value slot := by
  rintro slot promotable rfl
  refine Func.not_escaped promotable (List.get_mem f.blocks block) ?_
  refine List.mem_append_left _ (List.mem_append_right _ ?_)
  exact List.mem_flatMap.mpr ⟨inst, List.mem_of_getElem? found, member⟩

theorem free_of_term (member : operand ∈ (f.blocks.get block).term.operands) :
    ∀ slot ∈ f.promotableSlots, operand ≠ .value slot := by
  rintro slot promotable rfl
  exact Func.not_escaped promotable (List.get_mem f.blocks block) (List.mem_append_right _ member)

theorem free_of_phi {phi : Phi} (member : phi ∈ (f.blocks.get block).phis) {key : Nat}
    (listed : (key, operand) ∈ phi.incoming.entries) :
    ∀ slot ∈ f.promotableSlots, operand ≠ .value slot := by
  rintro slot promotable rfl
  refine Func.not_escaped promotable (List.get_mem f.blocks block) ?_
  refine List.mem_append_left _ (List.mem_append_left _ (List.mem_flatMap.mpr ⟨phi, member, ?_⟩))
  exact List.mem_map.mpr ⟨_, listed, rfl⟩

/-! ## Values of the slots -/

variable (p)

/-- The values of the slots before an instruction of a block. -/
def valuesAt (block : Fin f.blocks.length) (i : Nat) : Fin f.promotableSlots.length → Operand :=
  ((f.blocks.get block).insts.take i).foldl p.plan.settle (p.plan.atHead p.tree block)

theorem valuesAt_succ {inst : Inst} (found : (f.blocks.get block).insts[i]? = some inst) :
    p.valuesAt block (i + 1) = p.plan.settle (p.valuesAt block i) inst := by
  unfold valuesAt
  rw [List.take_add_one, found, List.foldl_append]
  rfl

theorem valuesAt_succ_of_none (past : (f.blocks.get block).insts[i]? = none) :
    p.valuesAt block (i + 1) = p.valuesAt block i := by
  unfold valuesAt
  rw [List.take_add_one, past, Option.toList_none, List.append_nil]

theorem valuesAt_length (block : Fin f.blocks.length) :
    p.valuesAt block (f.blocks.get block).insts.length = p.plan.atEnd p.tree block := by
  unfold valuesAt Renaming.Plan.atEnd Renaming.Plan.atHead
  rw [List.take_length, p.correct.get_chains (p.strict.reached block)]
  rfl

/-- The values before the head of a block are those at the end of its immediate dominator. -/
theorem atHead_eq (block : Fin f.blocks.length) :
    p.plan.atHead p.tree block = p.plan.head block
      ((p.tree.idom.get block).elim (fun _ => .undef) (p.plan.atEnd p.tree)) := by
  unfold Renaming.Plan.atHead
  rw [p.correct.get_chains (p.strict.reached block), List.tail_cons]
  cases p.tree.idom.get block with
  | none => rfl
  | some above => rfl

theorem available_valuesAt_of_head
    (head : ∀ slot, p.Available (p.plan.atHead p.tree block slot) block 1) (i : Nat)
    (slot : Fin f.promotableSlots.length) : p.Available (p.valuesAt block i slot) block (i + 1) := by
  induction i generalizing slot with
  | zero => exact head slot
  | succ i ih =>
      cases found : (f.blocks.get block).insts[i]? with
      | none =>
          rw [p.valuesAt_succ_of_none found]
          exact (ih slot).mono (Nat.le_succ _)
      | some inst =>
          rw [p.valuesAt_succ found]
          rcases p.plan.settle_cases (p.valuesAt block i) inst slot with
            same | ⟨value, addr, rfl, _, same⟩
          · rw [same]
            exact (ih slot).mono (Nat.le_succ _)
          · rw [same]
            have used : value ∈ (Inst.store value addr).valueOperands :=
              List.mem_singleton_self value
            have defined := p.strict.instUses found value (List.mem_append_left _ used)
            exact (available_of_defined defined (free_of_inst found used)).mono (Nat.le_succ _)

theorem available_atHead (block : Fin f.blocks.length) (slot : Fin f.promotableSlots.length) :
    p.Available (p.plan.atHead p.tree block slot) block 1 := by
  obtain ⟨rank, hierarchy⟩ := p.correct.hierarchy
  -- On the height of the block in the dominator tree.
  induction height : rank block using Nat.strongRecOn generalizing block slot with
  | ind height' ih =>
      rw [p.atHead_eq]
      rcases p.plan.head_cases block _ slot with ⟨_, same⟩ | ⟨phi, member, rfl, _, same⟩
      · rw [same]
        by_cases first : block = p.root
        · rw [first, hierarchy.first]
          exact nofun
        · obtain ⟨above, recorded, lower, _, immediate⟩ :=
            hierarchy.immediate (p.strict.reached block) first
          have dominates := (immediate.iff above).mpr (.inr (.refl above))
          rw [recorded, Option.elim_some, ← p.valuesAt_length]
          refine (p.available_valuesAt_of_head (fun slot => ?_) _ slot).below immediate.ne dominates
          exact ih (rank above) (height ▸ lower) above slot rfl
      · rw [same]
        rintro v ⟨⟩
        refine ⟨fun promotable => ?_, ⟨phi.block.val, 0⟩, ?_, .inl ⟨rfl, Nat.one_pos⟩⟩
        · have less := p.above _ (Func.mem_defs_of_promotable promotable)
          exact Nat.not_le_of_lt less (p.dest_ge member)
        · exact List.mem_append_right _ (List.mem_map.mpr ⟨phi, member, rfl⟩)

theorem available_valuesAt (block : Fin f.blocks.length) (i : Nat)
    (slot : Fin f.promotableSlots.length) : p.Available (p.valuesAt block i slot) block (i + 1) :=
  p.available_valuesAt_of_head (p.available_atHead block) i slot

/-! ## Aliases -/

/-- The aliases are the results of the removed loads, each with the value of its slot there. -/
theorem alias_iff : p.outcome.aliases.get? v = some operand ↔
    ∃ block i addr slot, (f.blocks.get block).insts[i]? = some (.load v addr) ∧
      slotOf? f.promotableSlots addr = some slot ∧ operand = p.valuesAt block i slot := by
  have sound {operand : Operand} (found : p.outcome.aliases.get? v = some operand) :
      ∃ block i addr slot, (f.blocks.get block).insts[i]? = some (.load v addr) ∧
        slotOf? f.promotableSlots addr = some slot ∧ operand = p.valuesAt block i slot := by
    obtain ⟨block, _, i, inst, listed, made⟩ := p.toured.sound found
    cases inst with
    | load dest addr =>
        obtain ⟨slot, isSlot, same⟩ := Option.map_eq_some_iff.mp made
        obtain ⟨rfl, rfl⟩ := Prod.mk.inj same
        exact ⟨block, i, addr, slot, listed, isSlot, rfl⟩
    | alloca _ | store _ _ | binary _ _ _ _ | cmp _ _ _ _ | call _ _ _ => cases made
  refine ⟨sound, ?_⟩
  rintro ⟨block, i, addr, slot, listed, isSlot, rfl⟩
  have made : p.plan.Makes (p.plan.atHead p.tree block) (p.plan.insts block) v
      (p.valuesAt block i slot) := by
    refine ⟨i, _, listed, ?_⟩
    exact Option.map_eq_some_iff.mpr ⟨slot, isSlot, rfl⟩
  obtain ⟨other, found⟩ := Option.isSome_iff_exists.mp (p.toured.complete trivial made)
  obtain ⟨block', i', addr', slot', listed', isSlot', rfl⟩ := sound found
  obtain ⟨rfl, rfl, same⟩ := p.strict.inst_unique listed rfl listed' rfl
  cases same
  rw [found, Option.some.inj (isSlot.symm.trans isSlot')]

/-- An alias leads to a value that is available at the load. -/
theorem alias_available (found : p.outcome.aliases.get? v = some operand) : ∃ block position,
      (v, ⟨block.val, position⟩) ∈ f.definitions ∧ p.Available operand block position := by
  obtain ⟨block, i, addr, slot, listed, _, rfl⟩ := p.alias_iff.mp found
  exact ⟨block, i + 1, Func.mem_definitions_of_inst listed rfl, p.available_valuesAt block i slot⟩

/-- What an operand stands for once aliases are followed. -/
def resolve (operand : Operand) : Operand :=
  Ssa.resolve p.outcome.aliases p.outcome.aliases.size operand

theorem resolve_value (unaliased : p.outcome.aliases.get? v = none) :
    p.resolve (.value v) = .value v :=
  Ssa.resolve_value unaliased _

theorem exists_falling : ∃ height : Nat → Nat ×ₗ Nat, ∀ {v w : Nat},
    p.outcome.aliases.get? v = some (.value w) → height w < height v := by
  obtain ⟨height, grows⟩ := p.exists_height
  refine ⟨height, fun found => ?_⟩
  obtain ⟨block, position, defined, available⟩ := p.alias_available found
  obtain ⟨_, point, site, before⟩ := available _ rfl
  exact grows (List.mem_append_left _ defined) site before

theorem resolve_alias (found : p.outcome.aliases.get? v = some operand) :
    p.resolve (.value v) = p.resolve operand := by
  obtain ⟨height, falls⟩ := p.exists_falling
  exact Ssa.resolve_alias falls found

/-- What an operand resolves to is available where the operand is, and is no alias. -/
theorem available_resolve (available : p.Available operand block position) :
    p.Available (p.resolve operand) block position ∧
      ∀ v, p.resolve operand = .value v → p.outcome.aliases.get? v = none := by
  cases operand with
  | const c =>
      rw [resolve, resolve_const]
      exact ⟨available, nofun⟩
  | undef =>
      rw [resolve, resolve_undef]
      exact ⟨available, nofun⟩
  | value v =>
      obtain ⟨height, falls⟩ := p.exists_falling
      induction reached : height v using WellFoundedLT.induction generalizing v with
      | ind _ ih =>
          cases found : p.outcome.aliases.get? v with
          | none =>
              rw [p.resolve_value found]
              refine ⟨available, ?_⟩
              rintro w ⟨⟩
              exact found
          | some operand =>
              obtain ⟨above, i, defined, earlier⟩ := p.alias_available found
              obtain ⟨_, point, site, before⟩ := available v rfl
              obtain rfl := p.site_unique (List.mem_append_left _ defined) site
              have there := earlier.trans before
              rw [p.resolve_alias found]
              cases operand with
              | const c =>
                  rw [resolve, resolve_const]
                  exact ⟨there, nofun⟩
              | undef =>
                  rw [resolve, resolve_undef]
                  exact ⟨there, nofun⟩
              | value w => exact ih _ (reached ▸ falls found) w there rfl

end Promotion

end Lowering.Ssa
