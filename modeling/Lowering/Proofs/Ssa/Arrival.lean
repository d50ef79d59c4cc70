import Lowering.Proofs.Ssa.Matching
import Lowering.Proofs.Ssa.Validity

/-!
# Heads of promoted blocks

Where control arrives at a block, the old phis select the same in both runs and a placed phi selects the
content of its slot.  A slot without a placed phi still holds what it held behind the immediate
dominator: no block whose frontier has this one stores to it.  So the runs match behind the phis.
-/

namespace Lowering.Ssa

open Dominance

variable {I : Interpretation}

namespace State

variable {s : State I} {origin : Option Nat} {phis : List Phi} {phi : Phi}

/-- The state behind the phis of a block. -/
def behind (s : State I) (origin : Option Nat) (phis : List Phi) : State I :=
  { s with
    env := fun v =>
      match phis.find? fun phi => phi.dest == v with
      | some phi => s.select origin phi
      | none => s.env v }

theorem enter_eq_ok (total : ∀ phi ∈ phis, ∃ x, s.select origin phi = some x) :
    s.enter origin phis = .ok (s.behind origin phis) :=
  if_pos (List.all_eq_true.mpr fun phi member => Option.isSome_iff_exists.mpr (total phi member))

theorem select_eq {block : Nat} {operand : Operand}
    (found : phi.incoming.get? block = some operand) :
    s.select (some block) phi = s.read operand :=
  congrArg (Option.bind · s.read) found

theorem select_mapOperands (change : Operand → Operand) {block : Nat} {operand : Operand}
    (found : phi.incoming.get? block = some operand) :
    s.select (some block) (phi.mapOperands change) = s.read (change operand) := by
  refine select_eq ?_
  show (phi.incoming.map change).get? block = _
  rw [Incoming.get?_map, found]
  rfl

theorem behind_dest (distinct : (phis.map Phi.dest).Nodup) (member : phi ∈ phis) :
    (s.behind origin phis).env phi.dest = s.select origin phi := by
  unfold behind
  cases found : phis.find? fun other => other.dest == phi.dest with
  | none => exact absurd (beq_self_eq_true phi.dest) (List.find?_eq_none.mp found phi member)
  | some other =>
      have same : (other.dest == phi.dest) = true :=
        List.find?_some (p := fun other : Phi => other.dest == phi.dest) found
      simp only [found]
      rw [List.inj_on_of_nodup_map distinct (List.mem_of_find?_eq_some found) member
        (beq_iff_eq.mp same)]

theorem behind_other {v : Nat} (other : ∀ phi ∈ phis, phi.dest ≠ v) :
    (s.behind origin phis).env v = s.env v := by
  have none : (phis.find? fun phi => phi.dest == v) = none :=
    List.find?_eq_none.mpr fun phi member same => other phi member (beq_iff_eq.mp same)
  unfold behind
  simp only [none]

end State

namespace Func

variable {f : Func}

theorem nodup_dests (distinct : f.defs.Nodup) {code : Block} (member : code ∈ f.blocks) :
    (code.phis.map Phi.dest).Nodup := by
  have blocks := (List.nodup_append.mp distinct).2.1
  exact (List.nodup_append.mp ((List.nodup_flatMap.mp blocks).1 code member)).1

/-- What a dominator of a block defines is defined at the end of the block. -/
theorem definedAt_end {root d block : Fin f.blocks.length} {v : Nat} {point : Point}
    (listed : (v, point) ∈ f.definitions) (isBlock : point.block = d.val)
    (dominates : Dominates f.flow.Leads root d block) :
    f.DefinedAt root v block (f.blocks.get block).endPosition := by
  refine ⟨point, listed, ?_⟩
  by_cases same : d = block
  · refine .inl ⟨isBlock.trans (congrArg Fin.val same), ?_⟩
    rcases mem_definitions.mp listed with ⟨_, rfl⟩ | ⟨b, code, isCode, defined⟩
    · exact Nat.succ_pos _
    · rcases mem_blockDefinitions.mp defined with ⟨_, _, _, rfl⟩ | ⟨i, inst, found, _, rfl⟩
      · exact Nat.succ_pos _
      · obtain rfl : b = block.val := isBlock.trans (congrArg Fin.val same)
        obtain ⟨_, rfl⟩ := List.getElem?_eq_some_iff.mp isCode
        obtain ⟨inside, _⟩ := List.getElem?_eq_some_iff.mp found
        exact Nat.succ_lt_succ inside
  · exact .inr ⟨d, isBlock, same, dominates⟩

/-- A promoted slot is made by an instruction, not at the head of a block. -/
theorem Strict.promotable_position {root : Fin f.blocks.length} (strict : f.Strict root) {v : Nat}
    {point : Point} (promotable : v ∈ f.promotableSlots) (listed : (v, point) ∈ f.definitions) :
    0 < point.position := by
  obtain ⟨home, i, found⟩ := exists_alloca promotable
  rw [strict.unique listed (mem_definitions_of_inst found rfl)]
  exact Nat.succ_pos i

end Func

namespace Promotion

variable {f : Func} (p : Promotion f) {block : Fin f.blocks.length} {v : Nat} {phi : Phi}

/-! ## New phis -/

/-- A placed phi with its operands resolved. -/
def placedPhi (phi : PlacedPhi f.blocks.length f.promotableSlots.length) : Phi :=
  Phi.mapOperands p.resolve ⟨phi.dest, p.outcome.incoming.getD phi.dest .empty⟩

theorem mem_phis : phi ∈ (p.block block).phis ↔
    (∃ old ∈ (f.blocks.get block).phis, phi = old.mapOperands p.resolve) ∨
      ∃ placed ∈ p.placed, placed.block = block ∧ phi = p.placedPhi placed := by
  show phi ∈ (_ ++ p.placedPhis block).map _ ↔ _
  unfold placedPhis placedPhi
  rw [List.map_append, List.mem_append, List.mem_map, List.mem_map]
  refine or_congr (exists_congr fun old => and_congr_right' eq_comm) ?_
  constructor
  · rintro ⟨_, listed, rfl⟩
    obtain ⟨placed, member, rfl⟩ := List.mem_map.mp listed
    obtain ⟨member, isBlock⟩ := List.mem_filter.mp member
    exact ⟨placed, member, beq_iff_eq.mp isBlock, rfl⟩
  · rintro ⟨placed, member, isBlock, rfl⟩
    refine ⟨_, List.mem_map_of_mem (List.mem_filter.mpr ⟨member, ?_⟩), rfl⟩
    exact beq_iff_eq.mpr isBlock

theorem site_of_phi (member : phi ∈ (p.block block).phis) :
    (phi.dest, ⟨block.val, 0⟩) ∈ p.sites := by
  rcases p.mem_phis.mp member with ⟨old, isOld, rfl⟩ | ⟨placed, isPlaced, rfl, rfl⟩
  · have listed := List.getElem?_eq_getElem block.isLt
    refine List.mem_append_left _ (Func.mem_definitions.mpr (.inr ⟨block.val, _, listed, ?_⟩))
    exact mem_blockDefinitions.mpr (.inl ⟨old, isOld, rfl, rfl⟩)
  · exact List.mem_append_right _ (List.mem_map.mpr ⟨placed, isPlaced, rfl⟩)

/-- Aliases are made by instructions, not at the head of a block. -/
theorem unaliased_of_site {b : Nat} (site : (v, ⟨b, 0⟩) ∈ p.sites) :
    p.outcome.aliases.get? v = none := by
  cases aliased : p.outcome.aliases.get? v with
  | none => rfl
  | some operand =>
      obtain ⟨other, i, addr, slot, listed, _⟩ := p.alias_iff.mp aliased
      have defined := Func.mem_definitions_of_inst listed rfl
      cases congrArg Point.position (p.site_unique site (List.mem_append_left _ defined))

theorem nodup_dests (block : Fin f.blocks.length) : ((p.block block).phis.map Phi.dest).Nodup :=
  Func.nodup_dests p.nodup_defs (List.mem_of_getElem? (p.getElem?_blocks block))

theorem dest_notMem_params (member : phi ∈ (p.block block).phis) :
    phi.dest ∉ f.params := by
  intro param
  have inBlocks : phi.dest ∈ p.func.blocks.flatMap Block.defs :=
    List.mem_flatMap.mpr ⟨_, List.mem_of_getElem? (p.getElem?_blocks block),
      List.mem_append_left _ (List.mem_map_of_mem member)⟩
  exact (List.nodup_append.mp p.nodup_defs).2.2 _ param _ inBlocks rfl

/-! ## Values before the phis -/

/-- A value that is defined where control arrives at a block. -/
def Carried (v : Nat) (block : Fin f.blocks.length) : Prop :=
  f.DefinedAt p.root v block 0 ∨ v ∈ f.params ∧ block = p.root

variable {p}

theorem carried_or_phi (defined : f.DefinedAt p.root v block 1) :
    p.Carried v block ∨ ∃ phi ∈ (f.blocks.get block).phis, phi.dest = v := by
  obtain ⟨point, listed, ⟨here, first⟩ | above⟩ := defined
  · rcases Func.mem_definitions.mp listed with ⟨param, rfl⟩ | ⟨b, code, isCode, defined⟩
    · exact .inl (.inr ⟨param, Fin.ext (here.symm.trans p.strict.entry.symm)⟩)
    · rcases mem_blockDefinitions.mp defined with ⟨phi, member, isDest, rfl⟩ |
        ⟨i, inst, _, _, rfl⟩
      · obtain rfl : b = block.val := here
        obtain ⟨_, rfl⟩ := List.getElem?_eq_some_iff.mp isCode
        exact .inr ⟨phi, member, isDest⟩
      · exact absurd first (Nat.not_lt.mpr (Nat.le_add_left 1 i))
  · exact .inl (.inl ⟨point, listed, .inr above⟩)

/-- The phis of a block define no value that is carried into it. -/
theorem Carried.ne_dest (carried : p.Carried v block)
    (member : phi ∈ (p.block block).phis) : phi.dest ≠ v := by
  rintro rfl
  rcases carried with ⟨point, listed, before⟩ | ⟨param, _⟩
  · obtain rfl := p.site_unique (List.mem_append_left _ listed) (p.site_of_phi member)
    exact Point.not_before_self before
  · exact p.dest_notMem_params member param

theorem Carried.ne_dest_old (carried : p.Carried v block) :
    ∀ phi ∈ (f.blocks.get block).phis, phi.dest ≠ v := by
  intro phi member
  have listed : phi.mapOperands p.resolve ∈ (p.block block).phis :=
    p.mem_phis.mpr (.inl ⟨phi, member, rfl⟩)
  show (phi.mapOperands p.resolve).dest ≠ v
  exact carried.ne_dest listed

variable {s t : State I} {origin : Option Nat}

/-- The phis of a block define no value that an operand available before them resolves to. -/
theorem Available.read_behind {operand : Operand} (available : p.Available operand block 0) :
    (t.behind origin (p.block block).phis).read (p.resolve operand) =
      t.read (p.resolve operand) := by
  cases resolved : p.resolve operand with
  | const c => rfl
  | undef => rfl
  | value w =>
      refine State.behind_other fun phi member same => ?_
      exact available.resolve_ne (p.site_of_phi member) (same ▸ resolved)

theorem unaliased_of_param (p : Promotion f) (param : v ∈ f.params) :
    p.outcome.aliases.get? v = none :=
  p.unaliased_of_site (List.mem_append_left _ (Func.mem_definitions.mpr (.inl ⟨param, rfl⟩)))

theorem Carried.read_behind (carried : p.Carried v block) (free : v ∉ f.promotableSlots) :
    (t.behind origin (p.block block).phis).read (p.resolve (.value v)) =
      t.read (p.resolve (.value v)) := by
  rcases id carried with defined | ⟨param, _⟩
  · exact (available_of_definedAt free defined).read_behind
  · rw [p.resolve_value (p.unaliased_of_param param)]
    exact State.behind_other fun phi member => carried.ne_dest member

/-! ## Contents of slots before the phis -/

variable (p) {slot : Fin f.promotableSlots.length}

/-- The value of a slot at the end of a block, or at the start of the function. -/
def leaving (slot : Fin f.promotableSlots.length) : Option (Fin f.blocks.length) → Operand
  | none => .undef
  | some block => p.plan.atEnd p.tree block slot

/-- No phi is placed in the block for the slot. -/
def Unplaced (block : Fin f.blocks.length) (slot : Fin f.promotableSlots.length) : Prop :=
  ∀ phi ∈ p.placed, phi.block = block → phi.slot ≠ slot

theorem atHead_cases (block : Fin f.blocks.length) (slot : Fin f.promotableSlots.length) :
    p.Unplaced block slot ∧
        p.plan.atHead p.tree block slot = p.leaving slot (p.tree.idom.get block) ∨
      ∃ phi ∈ p.placed, phi.block = block ∧ phi.slot = slot ∧
        p.plan.atHead p.tree block slot = .value phi.dest := by
  rw [p.atHead_eq]
  refine (p.plan.head_cases block _ slot).imp_left fun ⟨unplaced, same⟩ => ⟨unplaced, ?_⟩
  rw [same]
  cases p.tree.idom.get block with
  | none => rfl
  | some above => rfl

theorem available_leaving (block : Fin f.blocks.length) (slot : Fin f.promotableSlots.length) :
    p.Available (p.leaving slot (p.tree.idom.get block)) block 0 := by
  cases recorded : p.tree.idom.get block with
  | none => exact nofun
  | some above =>
      obtain ⟨_, immediate⟩ := p.correct.immediate_of_recorded recorded
      have dominates := (immediate.iff above).mpr (.inr (.refl above))
      have available := p.available_valuesAt above (f.blocks.get above).insts.length slot
      rw [p.valuesAt_length] at available
      exact available.below immediate.ne dominates

/-- A block that has no placed phi for a slot and does not store to it leaves the slot alone. -/
theorem leaving_eq_of_unstored (unplaced : p.Unplaced block slot)
    (unstored : block ∉ f.storeSites (f.promotableSlots.get slot)) :
    p.leaving slot (some block) = p.leaving slot (p.tree.idom.get block) := by
  have head : p.plan.atHead p.tree block slot = p.leaving slot (p.tree.idom.get block) := by
    rcases p.atHead_cases block slot with ⟨_, same⟩ | ⟨phi, member, isBlock, isSlot, _⟩
    · exact same
    · exact absurd isSlot (unplaced phi member isBlock)
  have body (i : Nat) : p.valuesAt block i slot = p.plan.atHead p.tree block slot := by
    induction i with
    | zero => rfl
    | succ i ih =>
        cases found : (f.blocks.get block).insts[i]? with
        | none => rw [p.valuesAt_succ_of_none found, ih]
        | some inst =>
            rw [p.valuesAt_succ found]
            rcases p.plan.settle_cases (p.valuesAt block i) inst slot with
              same | ⟨value, addr, rfl, isSlot, _⟩
            · rw [same, ih]
            · refine absurd (Func.mem_storeSites.mpr ⟨_, List.mem_of_getElem? found, ?_⟩) unstored
              rw [slotOf?_eq_some isSlot]
              exact beq_self_eq_true _
  show p.plan.atEnd p.tree block slot = _
  rw [← p.valuesAt_length, body, head]

theorem unplaced_iff : p.Unplaced block slot ↔
    block ∉ joins (p.tree.frontiers p.edges) (f.storeSites (f.promotableSlots.get slot)) := by
  obtain ⟨sites, _⟩ := numberPhis_eq_ok p.numbered
  rw [← Func.mem_phiSites, ← sites, List.mem_map]
  constructor
  · rintro unplaced ⟨phi, member, same⟩
    obtain ⟨isSlot, isBlock⟩ := Prod.mk.inj same
    exact unplaced phi member isBlock isSlot
  · intro unlisted phi member isBlock isSlot
    exact unlisted ⟨phi, member, Prod.ext isSlot isBlock⟩

/-- Where no phi is placed for a slot, every predecessor leaves what the immediate dominator left: a
block in between that changes the slot would have this one in its iterated frontier. -/
theorem leaving_eq {pred : Fin f.blocks.length} (leads : f.flow.Leads pred block)
    (unplaced : p.Unplaced block slot) :
    p.leaving slot (some pred) = p.leaving slot (p.tree.idom.get block) := by
  have closed := (joins_closed (p.tree.frontiers p.edges)
    (f.storeSites (f.promotableSlots.get slot))).2
  have listed : pred ∈ p.edges.preds.get block := by
    rw [← FlowGraph.flows_eq_leads p.built] at leads
    exact (FlowGraph.transposed_of_build p.built pred block).mpr leads
  have noJoin := p.unplaced_iff.mp unplaced
  refine p.correct.eq_of_frontier (p.strict.reached pred) leads listed fun x inFrontier => ?_
  refine p.leaving_eq_of_unstored (p.unplaced_iff.mpr fun joined => noJoin ?_) fun stores => noJoin ?_
  · exact closed x (.inr joined) block inFrontier
  · exact closed x (.inl stores) block inFrontier

/-! ## Arrival -/

/-- The runs of the function and of the promoted one where control arrives at a block. -/
structure Arrives (block : Fin f.blocks.length) (origin : Option Nat) (s t : State I) : Prop where
  agree : State.Agree f.promotableSlots s t
  values : ∀ {v}, v ∉ f.promotableSlots → p.Carried v block →
    ∃ x, s.env v = some x ∧ t.read (p.resolve (.value v)) = some x ∧ I.Blind f.promotableSlots x
  slots : ∀ {v}, v ∈ f.promotableSlots → f.DefinedAt p.root v block 0 → s.env v = some (I.slot v)
  phis : ∀ phi ∈ (f.blocks.get block).phis, ∃ x, s.select origin phi = some x ∧
    t.select origin (phi.mapOperands p.resolve) = some x ∧ I.Blind f.promotableSlots x
  placed : ∀ phi ∈ p.placed, phi.block = block → t.select origin (p.placedPhi phi) =
    some (s.memory (I.slot (f.promotableSlots.get phi.slot)))
  unplaced : ∀ slot, p.Unplaced block slot →
    t.read (p.resolve (p.leaving slot (p.tree.idom.get block))) =
      some (s.memory (I.slot (f.promotableSlots.get slot)))

variable {p}

/-- The runs match behind the phis. -/
theorem Arrives.enter (arrives : p.Arrives block origin s t) : ∃ s' t',
    s.enter origin (f.blocks.get block).phis = .ok s' ∧
      t.enter origin (p.block block).phis = .ok t' ∧ p.Matches block 0 s' t' := by
  have totalS : ∀ phi ∈ (f.blocks.get block).phis, ∃ x, s.select origin phi = some x := by
    intro phi member
    obtain ⟨x, selected, _⟩ := arrives.phis phi member
    exact ⟨x, selected⟩
  have totalT : ∀ phi ∈ (p.block block).phis, ∃ x, t.select origin phi = some x := by
    intro phi member
    rcases p.mem_phis.mp member with ⟨old, isOld, rfl⟩ | ⟨placed, isPlaced, isBlock, rfl⟩
    · obtain ⟨x, _, selected, _⟩ := arrives.phis old isOld
      exact ⟨x, selected⟩
    · exact ⟨_, arrives.placed placed isPlaced isBlock⟩
  have old {phi : Phi} (member : phi ∈ (f.blocks.get block).phis) :
      phi.mapOperands p.resolve ∈ (p.block block).phis := p.mem_phis.mpr (.inl ⟨phi, member, rfl⟩)
  have distinct : ((f.blocks.get block).phis.map Phi.dest).Nodup :=
    Func.nodup_dests (f.map_definitions ▸ p.strict.distinct) (List.get_mem f.blocks block)
  refine ⟨_, _, State.enter_eq_ok totalS, State.enter_eq_ok totalT, arrives.agree.env _ _, ?_, ?_, ?_⟩
  · intro v free defined
    rcases carried_or_phi defined with carried | ⟨phi, member, rfl⟩
    · obtain ⟨x, envS, readT, blind⟩ := arrives.values free carried
      exact ⟨x, (State.behind_other carried.ne_dest_old).trans envS,
        (carried.read_behind free).trans readT, blind⟩
    · obtain ⟨x, selectedS, selectedT, blind⟩ := arrives.phis phi member
      have site := p.site_of_phi (old member)
      have unaliased : p.outcome.aliases.get? phi.dest = none := p.unaliased_of_site site
      refine ⟨x, (State.behind_dest distinct member).trans selectedS, ?_, blind⟩
      rw [p.resolve_value unaliased]
      exact (State.behind_dest (p.nodup_dests block) (old member)).trans selectedT
  · intro v promotable defined
    obtain ⟨point, listed, ⟨_, first⟩ | above⟩ := defined
    · have later := p.strict.promotable_position promotable listed
      exact absurd later (Nat.not_lt.mpr (Nat.le_of_lt_succ first))
    · have before := arrives.slots promotable ⟨point, listed, .inr above⟩
      rw [State.behind_other (Carried.ne_dest_old (.inl ⟨point, listed, .inr above⟩)), before]
  · intro slot
    show (t.behind origin (p.block block).phis).read (p.resolve (p.plan.atHead p.tree block slot)) = _
    rcases p.atHead_cases block slot with ⟨unplaced, same⟩ | ⟨phi, member, isBlock, rfl, same⟩
    · rw [same, (p.available_leaving block slot).read_behind]
      exact arrives.unplaced slot unplaced
    · have listed : p.placedPhi phi ∈ (p.block block).phis :=
        p.mem_phis.mpr (.inr ⟨phi, member, isBlock, rfl⟩)
      have unaliased : p.outcome.aliases.get? phi.dest = none :=
        p.unaliased_of_site (p.site_of_phi listed)
      rw [same, p.resolve_value unaliased]
      exact (State.behind_dest (p.nodup_dests block) listed).trans
        (arrives.placed phi member isBlock)

/-- Along an edge, the runs arrive at the next block. -/
theorem Matches.arrives (keyed : f.Keyed) {pred : Fin f.blocks.length}
    (matched : p.Matches pred (f.blocks.get pred).insts.length s t)
    (leads : f.flow.Leads pred block) : p.Arrives block (some pred.val) s t := by
  have carried {v : Nat} (defined : f.DefinedAt p.root v block 0) :
      f.DefinedAt p.root v pred (f.blocks.get pred).endPosition := by
    obtain ⟨point, listed, ⟨_, none⟩ | ⟨d, isBlock, different, dominates⟩⟩ := defined
    · exact absurd none (Nat.not_lt_zero _)
    · exact Func.definedAt_end listed isBlock (dominates.of_edge leads different)
  have contents (slot : Fin f.promotableSlots.length) :
      t.read (p.resolve (p.leaving slot (some pred))) =
        some (s.memory (I.slot (f.promotableSlots.get slot))) := by
    have contents := matched.contents slot
    rw [p.valuesAt_length] at contents
    exact contents
  refine ⟨matched.agree, ?_, fun promotable defined => matched.slots promotable (carried defined),
    ?_, ?_, ?_⟩
  · rintro v free (defined | ⟨param, rfl⟩)
    · exact matched.values free (carried defined)
    · have listed := Func.mem_definitions.mpr (.inl ⟨param, rfl⟩)
      exact matched.values free
        (Func.definedAt_end listed p.strict.entry.symm (dominates_root pred))
  · intro phi member
    have isKey := (keyed block phi member pred.val).mpr ⟨pred, rfl, leads⟩
    obtain ⟨⟨_, operand⟩, listed, rfl⟩ := List.mem_map.mp isKey
    obtain ⟨other, same, defined⟩ := p.strict.phiUses phi member _ listed
    obtain rfl := Fin.ext same
    obtain ⟨x, readS, readT, blind⟩ := matched.read defined (free_of_phi member listed)
    have found := Incoming.get?_eq_some_iff.mpr listed
    exact ⟨x, (State.select_eq found).trans readS,
      (State.select_mapOperands p.resolve found).trans readT, blind⟩
  · rintro phi member rfl
    have listed := (p.placed_entries member).mpr ⟨pred, rfl, leads, rfl⟩
    have found := Incoming.get?_eq_some_iff.mpr listed
    exact (State.select_mapOperands p.resolve found).trans (contents phi.slot)
  · intro slot unplaced
    rw [← p.leaving_eq leads unplaced, contents]

theorem exists_lookup_zip {α : Type} {params : List Nat} {arguments : List α}
    (all : arguments.length = params.length) (param : v ∈ params) :
    ∃ x ∈ arguments, (params.zip arguments).lookup v = some x := by
  induction params generalizing arguments with
  | nil => cases param
  | cons first rest ih =>
      cases arguments with
      | nil => cases all
      | cons x others =>
          rw [List.zip_cons_cons, Incoming.lookup_cons_eq]
          by_cases here : v = first
          · exact ⟨x, List.mem_cons_self, if_pos here⟩
          · have later : v ∈ rest := (List.mem_cons.mp param).resolve_left here
            obtain ⟨y, member, found⟩ := ih (Nat.succ.inj all) later
            exact ⟨y, List.mem_cons_of_mem x member, (if_neg here).trans found⟩

/-- The runs arrive at the root when the function is entered. -/
theorem arrives_root (p : Promotion f) {arguments : List I.Val} {memory : I.Val → I.Val}
    {world : I.World} (all : arguments.length = f.params.length)
    (hides : Hides I.mentions I.knows (· ∈ f.promotableSlots) arguments memory world)
    (clear : ∀ slot ∈ f.promotableSlots, memory (I.slot slot) = I.undef) :
    p.Arrives p.root none (.initial f.params arguments memory world)
      (.initial f.params arguments memory world) := by
  have hidden : Hides I.mentions I.knows (· ∈ f.promotableSlots) [] memory world :=
    ⟨fun _ _ _ none => absurd none List.not_mem_nil, hides.memory, hides.world⟩
  have first {v : Nat} : ¬ f.DefinedAt p.root v p.root 0 := by
    rintro ⟨_, _, ⟨_, none⟩ | ⟨d, _, different, dominates⟩⟩
    · exact Nat.not_lt_zero _ none
    · exact different (List.mem_singleton.mp (dominates _ .start))
  have cleared (slot : Fin f.promotableSlots.length) :
      memory (I.slot (f.promotableSlots.get slot)) = I.undef := clear _ (List.get_mem _ slot)
  refine ⟨⟨fun _ _ => rfl, rfl, rfl, hidden, hidden⟩, ?_, fun _ defined => absurd defined first,
    ?_, ?_, ?_⟩
  · rintro v free (defined | ⟨param, _⟩)
    · exact absurd defined first
    · obtain ⟨x, given, found⟩ := exists_lookup_zip all param
      rw [p.resolve_value (p.unaliased_of_param param)]
      exact ⟨x, found, found, fun slot member => hides.arguments slot member x given⟩
  · exact fun phi _ => ⟨I.undef, rfl, rfl, Interpretation.blind_undef⟩
  · intro phi _ _
    exact congrArg some (cleared phi.slot).symm
  · intro slot _
    obtain ⟨rank, hierarchy⟩ := p.correct.hierarchy
    rw [hierarchy.first]
    show State.read _ (p.resolve .undef) = _
    rw [p.resolve_undef]
    exact congrArg some (cleared slot).symm

end Promotion

end Lowering.Ssa
