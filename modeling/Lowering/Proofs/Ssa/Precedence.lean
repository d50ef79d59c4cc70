import Lowering.Proofs.Ssa.Checks

/-!
# Definitions on every path

Control goes from point to point.  A point precedes another one if every path from the entry to the
second passes the first before it gets there.  For the points of definitions and uses this is the
comparison that the dominance check makes, so the check accepts exactly the functions whose values are
defined once, whose blocks are all reached, and whose uses come behind a definition on every path.
-/

namespace Lowering.Dominance

variable {V : Type} {edge : V → V → Prop} {root : V}

/-- A path that passes a vertex can stop where it meets the vertex first. -/
theorem Trail.exists_first {b d : V} {passed : List V} (path : Trail edge root b passed)
    (member : d ∈ passed) : ∃ before, Trail edge root d (d :: before) ∧ d ∉ before := by
  induction path with
  | start =>
      obtain rfl := List.mem_singleton.mp member
      exact ⟨[], .start, List.not_mem_nil⟩
  | @step a b passed path joined ih =>
      by_cases earlier : d ∈ passed
      · exact ih earlier
      · obtain rfl := (List.mem_cons.mp member).resolve_right earlier
        exact ⟨passed, path.step joined, earlier⟩

theorem Trail.exists_eq_cons {b : V} {passed : List V} (path : Trail edge root b passed) :
    ∃ before, passed = b :: before := by
  cases path with
  | start => exact ⟨[], rfl⟩
  | step _ _ => exact ⟨_, rfl⟩

end Lowering.Dominance

namespace Lowering.Ssa

open Dominance

namespace Func

/-! ## Points -/

/-- Control can go from a point to another one. -/
inductive Goes (f : Func) : Point → Point → Prop where
  | on {b i : Nat} {code : Block} : f.blocks[b]? = some code → i < code.endPosition →
      Goes f ⟨b, i⟩ ⟨b, i + 1⟩
  | jump {b target : Nat} {code : Block} : f.blocks[b]? = some code → target ∈ code.term.targets →
      Goes f ⟨b, code.endPosition⟩ ⟨target, 0⟩

/-- Where control starts. -/
def top : Point := ⟨FlowGraph.entry, 0⟩

/-- A parameter, a phi or an instruction at the point makes the value. -/
inductive DefinesAt (f : Func) : Nat → Point → Prop where
  | param {v : Nat} : v ∈ f.params → DefinesAt f v top
  | phi {b : Nat} {code : Block} {phi : Phi} : f.blocks[b]? = some code → phi ∈ code.phis →
      DefinesAt f phi.dest ⟨b, 0⟩
  | inst {b i v : Nat} {code : Block} {inst : Inst} : f.blocks[b]? = some code →
      code.insts[i]? = some inst → inst.def? = some v → DefinesAt f v ⟨b, i + 1⟩

/-- The value is an operand at the point; phis read theirs at the end of the block control comes
from. -/
inductive UsesAt (f : Func) : Nat → Point → Prop where
  | inst {b i v : Nat} {code : Block} {inst : Inst} : f.blocks[b]? = some code →
      code.insts[i]? = some inst → .value v ∈ inst.operands → UsesAt f v ⟨b, i + 1⟩
  | term {b v : Nat} {code : Block} : f.blocks[b]? = some code → .value v ∈ code.term.operands →
      UsesAt f v ⟨b, code.endPosition⟩
  | phi {b pred v : Nat} {code source : Block} {phi : Phi} : f.blocks[b]? = some code →
      phi ∈ code.phis → (pred, .value v) ∈ phi.incoming.entries → f.blocks[pred]? = some source →
      UsesAt f v ⟨pred, source.endPosition⟩

/-- Every path from the top to the second point passes the first one before its end. -/
def Precedes (f : Func) (first second : Point) : Prop :=
  ∀ earlier, Trail f.Goes top second (second :: earlier) → first ∈ earlier

variable {f : Func} {v : Nat} {point : Point}

theorem definesAt_iff :
    f.DefinesAt v point ↔ (v, point) ∈ f.definitions := by
  rw [mem_definitions]
  simp only [mem_blockDefinitions]
  constructor
  · intro defines
    cases defines with
    | param member => exact .inl ⟨member, rfl⟩
    | @phi b code phi listed member =>
        exact .inr ⟨b, code, listed, .inl ⟨phi, member, rfl, rfl⟩⟩
    | @inst b i v code inst listed found made =>
        exact .inr ⟨b, code, listed, .inr ⟨i, inst, found, made, rfl⟩⟩
  · rintro (⟨member, rfl⟩ | ⟨b, code, listed, ⟨phi, member, rfl, rfl⟩ | ⟨i, inst, found, made, rfl⟩⟩)
    · exact .param member
    · exact .phi listed member
    · exact .inst listed found made

theorem getElem?_blocks (block : Fin f.blocks.length) :
    f.blocks[block.val]? = some (f.blocks.get block) :=
  List.getElem?_eq_getElem block.isLt

theorem exists_block {b : Nat} {code : Block} (listed : f.blocks[b]? = some code) :
    ∃ block : Fin f.blocks.length, block.val = b ∧ f.blocks.get block = code := by
  obtain ⟨inside, same⟩ := List.getElem?_eq_some_iff.mp listed
  exact ⟨⟨b, inside⟩, rfl, same⟩

theorem DefinesAt.exists_block (nonempty : 0 < f.blocks.length)
    (defines : f.DefinesAt v point) : ∃ block : Fin f.blocks.length,
      point.block = block.val ∧ point.position < (f.blocks.get block).endPosition := by
  cases defines with
  | param _ => exact ⟨⟨FlowGraph.entry, nonempty⟩, rfl, Nat.succ_pos _⟩
  | phi listed _ =>
      obtain ⟨block, rfl, _⟩ := Func.exists_block listed
      exact ⟨block, rfl, Nat.succ_pos _⟩
  | inst listed found _ =>
      obtain ⟨block, rfl, rfl⟩ := Func.exists_block listed
      exact ⟨block, rfl, Nat.succ_lt_succ (List.getElem?_eq_some_iff.mp found).1⟩

theorem UsesAt.nonempty_blocks (uses : f.UsesAt v point) :
    Nonempty (Fin f.blocks.length) := by
  cases uses with
  | inst listed _ _ => exact (Func.exists_block listed).nonempty
  | term listed _ => exact (Func.exists_block listed).nonempty
  | phi listed _ _ _ => exact (Func.exists_block listed).nonempty

/-! ## Paths of points and paths of blocks -/

section Paths

variable {root block : Fin f.blocks.length} (isEntry : root.val = FlowGraph.entry)
  (closed : ∀ block, ∀ target ∈ f.flow.succs block, target < f.blocks.length) {position : Nat}

include isEntry closed

/-- A path of points runs along a path of blocks.  It has passed the blocks before the last one from
top to end, and the last one down to where it is. -/
theorem exists_blockTrail {here : Point} {passed : List Point}
    (path : Trail f.Goes top here passed) :
    ∃ (block : Fin f.blocks.length) (blocks : List (Fin f.blocks.length)),
      here.block = block.val ∧ here.position ≤ (f.blocks.get block).endPosition ∧
      Trail f.flow.Leads root block (block :: blocks) ∧
      (∀ position ≤ here.position, ⟨block.val, position⟩ ∈ passed) ∧
      ∀ d ∈ blocks, ∀ position ≤ (f.blocks.get d).endPosition, ⟨d.val, position⟩ ∈ passed := by
  induction path with
  | start =>
      refine ⟨root, [], isEntry.symm, Nat.zero_le _, .start, ?_, nofun⟩
      intro position zero
      rw [isEntry, Nat.le_zero.mp zero]
      exact List.mem_cons_self
  | step _ goes ih =>
      obtain ⟨block, blocks, isBlock, _, trail, inBlock, inBlocks⟩ := ih
      cases goes with
      | @on b i code listed less =>
          obtain ⟨other, rfl, rfl⟩ := exists_block listed
          obtain rfl : other = block := Fin.ext isBlock
          refine ⟨other, blocks, rfl, less, trail, ?_, ?_⟩
          · intro position reached
            rcases Nat.le_succ_iff.mp reached with earlier | rfl
            · exact List.mem_cons_of_mem _ (inBlock position earlier)
            · exact List.mem_cons_self
          · intro d member position inside
            exact List.mem_cons_of_mem _ (inBlocks d member position inside)
      | @jump b target code listed isTarget =>
          obtain ⟨other, rfl, rfl⟩ := exists_block listed
          obtain rfl : other = block := Fin.ext isBlock
          refine ⟨⟨target, closed other target isTarget⟩, other :: blocks, rfl, Nat.zero_le _,
            trail.step isTarget, ?_, ?_⟩
          · intro position zero
            rw [Nat.le_zero.mp zero]
            exact List.mem_cons_self
          · intro d member position inside
            rcases List.mem_cons.mp member with rfl | later
            · exact List.mem_cons_of_mem _ (inBlock position inside)
            · exact List.mem_cons_of_mem _ (inBlocks d later position inside)

omit isEntry closed in
/-- From the top of a block control goes down to any position of it. -/
theorem exists_trail_down {before : List Point}
    (path : Trail f.Goes top ⟨block.val, 0⟩ (⟨block.val, 0⟩ :: before))
    (inside : position ≤ (f.blocks.get block).endPosition) :
    ∃ earlier, Trail f.Goes top ⟨block.val, position⟩ (⟨block.val, position⟩ :: earlier) ∧
      ∀ point ∈ earlier, point ∈ before ∨ point.block = block.val ∧ point.position < position := by
  induction position with
  | zero => exact ⟨before, path, fun point member => .inl member⟩
  | succ position ih =>
      obtain ⟨earlier, path, members⟩ := ih (Nat.le_of_succ_le inside)
      refine ⟨_, path.step (.on (getElem?_blocks block) inside), fun point member => ?_⟩
      rcases List.mem_cons.mp member with rfl | earlier
      · exact .inr ⟨rfl, Nat.lt_succ_self _⟩
      · exact (members point earlier).imp_right fun ⟨here, less⟩ => ⟨here, Nat.lt_succ_of_lt less⟩

omit closed in
/-- A path of blocks is run by a path of points that passes no other block. -/
theorem exists_pointTrail {blocks passed : List (Fin f.blocks.length)}
    (trail : Trail f.flow.Leads root block passed) (split : passed = block :: blocks)
    (inside : position ≤ (f.blocks.get block).endPosition) :
    ∃ earlier, Trail f.Goes top ⟨block.val, position⟩ (⟨block.val, position⟩ :: earlier) ∧
      ∀ point ∈ earlier, (∃ d ∈ blocks, point.block = d.val) ∨
        point.block = block.val ∧ point.position < position := by
  induction trail generalizing blocks position with
  | start =>
      have path : Trail f.Goes top ⟨root.val, 0⟩ [⟨root.val, 0⟩] := by
        rw [isEntry]
        exact .start
      obtain ⟨earlier, path, members⟩ := exists_trail_down path inside
      refine ⟨earlier, path, fun point member => .inr ?_⟩
      exact (members point member).resolve_left List.not_mem_nil
  | @step a b passed trail joined ih =>
      obtain ⟨_, rfl⟩ := List.cons.inj split
      obtain ⟨before, rfl⟩ := trail.exists_eq_cons
      obtain ⟨above, path, upper⟩ := ih rfl (Nat.le_refl _)
      obtain ⟨earlier, path, members⟩ :=
        exists_trail_down (path.step (.jump (getElem?_blocks a) joined)) inside
      refine ⟨earlier, path, fun point member => (members point member).imp_left fun old => ?_⟩
      rcases List.mem_cons.mp old with rfl | old
      · exact ⟨a, List.mem_cons_self, rfl⟩
      · rcases upper point old with ⟨d, inBefore, isBlock⟩ | ⟨isBlock, _⟩
        · exact ⟨d, List.mem_cons_of_mem _ inBefore, isBlock⟩
        · exact ⟨a, List.mem_cons_self, isBlock⟩

theorem reaches_iff :
    Relation.ReflTransGen f.Goes top ⟨block.val, 0⟩ ↔
      Relation.ReflTransGen f.flow.Leads root block := by
  constructor
  · intro reaches
    obtain ⟨passed, path⟩ := exists_trail reaches
    obtain ⟨other, blocks, isBlock, _, trail, _⟩ := exists_blockTrail isEntry closed path
    obtain rfl : block = other := Fin.ext isBlock
    exact trail.reaches
  · intro reaches
    obtain ⟨passed, trail⟩ := exists_trail reaches
    obtain ⟨blocks, split⟩ := trail.exists_eq_cons
    obtain ⟨earlier, path, _⟩ := exists_pointTrail isEntry trail split (Nat.zero_le _)
    exact path.reaches

/-- A point before the end of a block precedes a point of a reached block if it stands higher in the
same block or if its block strictly dominates the other one. -/
theorem precedes_iff {d : Fin f.blocks.length} {point : Point} (isBlock : point.block = d.val)
    (before : point.position < (f.blocks.get d).endPosition)
    (reached : Relation.ReflTransGen f.flow.Leads root block)
    (inside : position ≤ (f.blocks.get block).endPosition) :
    f.Precedes point ⟨block.val, position⟩ ↔ point.Before f.flow.Leads root block position := by
  constructor
  · intro precedes
    by_cases same : d = block
    · subst same
      -- a path that gets to the block for the first time has seen nothing of it but what is above
      obtain ⟨passed, trail⟩ := exists_trail reached
      obtain ⟨blocks, trail, first⟩ := trail.exists_first (Dominates.refl d passed trail)
      obtain ⟨earlier, path, members⟩ := exists_pointTrail isEntry trail rfl inside
      rcases members point (precedes earlier path) with ⟨other, member, isOther⟩ | higher
      · exact absurd (Fin.ext (isBlock.symm.trans isOther) ▸ member) first
      · exact .inl higher
    · refine .inr ⟨d, isBlock, same, fun passed trail => ?_⟩
      obtain ⟨blocks, rfl⟩ := trail.exists_eq_cons
      obtain ⟨earlier, path, members⟩ := exists_pointTrail isEntry trail rfl inside
      rcases members point (precedes earlier path) with ⟨other, member, isOther⟩ | ⟨isOther, _⟩
      · exact List.mem_cons_of_mem _ (Fin.ext (isBlock.symm.trans isOther) ▸ member)
      · exact absurd (Fin.ext (isBlock.symm.trans isOther)) same
  · intro isBefore earlier path
    obtain ⟨other, blocks, isOther, _, trail, inBlock, inBlocks⟩ :=
      exists_blockTrail isEntry closed path
    obtain rfl : block = other := Fin.ext isOther
    obtain ⟨_, at'⟩ := point
    obtain rfl : _ = d.val := isBlock
    have passed : (⟨d.val, at'⟩ : Point) ∈ (⟨block.val, position⟩ : Point) :: earlier ∧
        (⟨d.val, at'⟩ : Point) ≠ ⟨block.val, position⟩ := by
      rcases isBefore with ⟨same, higher⟩ | ⟨other, isOther, different, dominates⟩
      · obtain rfl := Fin.ext same
        exact ⟨inBlock at' (Nat.le_of_lt higher),
          fun equal => absurd (congrArg Point.position equal) (Nat.ne_of_lt higher)⟩
      · obtain rfl : d = other := Fin.ext isOther
        have member := (List.mem_cons.mp (dominates _ trail)).resolve_left different
        exact ⟨inBlocks d member at' (Nat.le_of_lt before),
          fun equal => different (Fin.ext (congrArg Point.block equal))⟩
    exact (List.mem_cons.mp passed.1).resolve_left passed.2

end Paths

/-! ## The check -/

theorem exists_firstObjection {verdicts : List (Except Fault Verdict)}
    (total : ∀ verdict ∈ verdicts, ∃ checked, verdict = .ok checked) :
    ∃ checked, firstObjection verdicts = .ok checked := by
  induction verdicts with
  | nil => exact ⟨.ok (), rfl⟩
  | cons head rest ih =>
      obtain ⟨⟨checked, rfl⟩, later⟩ := List.forall_mem_cons.mp total
      cases checked with
      | error objection => exact ⟨.error objection, rfl⟩
      | ok => exact ih later

section Total

variable {known : NumberMap Point} {root : Fin f.blocks.length} {tree : DomTree f.blocks.length}
  (defined : f.definitionMap = .ok known) (correct : tree.Correct f.flow.Leads root)
  (reached : ∀ block, Relation.ReflTransGen f.flow.Leads root block)

include defined correct reached

/-- The tree is only asked about blocks, and all of them are reached. -/
theorem exists_checkUse (operand : Operand) (block : Fin f.blocks.length) (position : Nat) :
    ∃ checked, f.checkUse tree known operand ⟨block.val, position⟩ = .ok checked := by
  unfold checkUse
  cases operand.value? with
  | none => exact ⟨_, rfl⟩
  | some v =>
      simp only
      cases found : known.get? v with
      | none => exact ⟨_, rfl⟩
      | some point =>
          have defines := definesAt_iff.mpr ((get?_definitionMap defined).mp found)
          obtain ⟨d, isBlock, _⟩ := defines.exists_block (Nat.zero_lt_of_lt root.isLt)
          simp only
          rw [isBlock, correct.dominates_eq (reached d) (reached block)]
          split
          · exact ⟨_, rfl⟩
          · exact ⟨_, rfl⟩

theorem exists_checkUses (keyed : f.Keyed) :
    ∃ checked, firstObjection (f.uses.map fun use =>
      use >>= fun used => f.checkUse tree known used.1 used.2) = .ok checked := by
  refine exists_firstObjection ?_
  rw [List.forall_mem_map]
  intro use member
  obtain ⟨block, inPhi | ⟨⟨operand, point⟩, inBlock, rfl⟩⟩ := mem_uses.mp member
  · obtain ⟨phi, inside, entry, listed, rfl⟩ := mem_phiUses.mp inPhi
    obtain ⟨pred, isPred, _⟩ :=
      (keyed block phi inside entry.1).mp (List.mem_map_of_mem listed)
    unfold fetch
    rw [isPred, getElem?_blocks]
    exact exists_checkUse defined correct reached entry.2 pred _
  · rcases mem_blockUses.mp inBlock with ⟨i, inst, _, _, rfl⟩ | ⟨_, rfl⟩
    · exact exists_checkUse defined correct reached operand block _
    · exact exists_checkUse defined correct reached operand block _

end Total

/-- Without blocks there is nothing to check but the parameters. -/
theorem checkDominance_of_empty (empty : f.blocks.length = 0) {known : NumberMap Point}
    (defined : f.definitionMap = .ok known) : f.checkDominance.result = .ok (.ok ()) := by
  obtain ⟨name, params, blocks, nextValue⟩ := f
  obtain rfl := List.length_eq_zero_iff.mp empty
  unfold checkDominance
  rw [defined]
  rfl

theorem nodup_of_checkDominance (ok : f.checkDominance.result = .ok (.ok ())) : f.defs.Nodup := by
  rw [← f.map_definitions, ← exists_definitionMap_iff]
  unfold checkDominance at ok
  cases defined : f.definitionMap with
  | error objection =>
      rw [defined] at ok
      cases ok
  | ok known => exact ⟨known, rfl⟩

theorem exists_checkDominance (accepted : f.checkPhis = .ok (.ok ())) :
    ∃ verdict, f.checkDominance.result = .ok verdict := by
  obtain ⟨closed, keyed⟩ := checkPhis_eq_ok_iff.mp accepted
  cases defined : f.definitionMap with
  | error objection =>
      unfold checkDominance
      rw [defined]
      exact ⟨_, rfl⟩
  | ok known =>
      rcases Nat.eq_zero_or_pos f.blocks.length with empty | nonempty
      · exact ⟨_, checkDominance_of_empty empty defined⟩
      have built := Edges.build_eq_ok_iff.mpr ⟨closed, rfl⟩
      have rooted : DomTree.build (.ofSuccs f.flow.targets) FlowGraph.entry = .ok _ :=
        dif_pos nonempty
      have correct := FlowGraph.correct_build built nonempty rooted
      unfold checkDominance
      rw [defined]
      refine Pass.exists_result_bind built
        (Pass.exists_result_bind ((result_construct _ _).trans rooted) ?_)
      split
      · exact ⟨_, rfl⟩
      · next none =>
          rw [List.find?_eq_none] at none
          have reached (block : Fin f.blocks.length) :=
            correct.isReachable_iff.mp (by simpa using none block.val (List.mem_range.mpr block.isLt))
          exact exists_checkUses defined correct reached keyed

/-- Availability at a point is precedence of a definition. -/
theorem defined_value_iff {root : Fin f.blocks.length} (isEntry : root.val = FlowGraph.entry)
    (closed : ∀ block, ∀ target ∈ f.flow.succs block, target < f.blocks.length)
    {block : Fin f.blocks.length} (reached : Relation.ReflTransGen f.flow.Leads root block)
    {position : Nat} (inside : position ≤ (f.blocks.get block).endPosition) :
    f.Defined root (.value v) block position ↔
      ∃ point, f.DefinesAt v point ∧ f.Precedes point ⟨block.val, position⟩ := by
  have same : f.Defined root (.value v) block position ↔ f.DefinedAt root v block position :=
    ⟨fun all => all v rfl, fun found w same => Operand.value.inj same ▸ found⟩
  rw [same]
  refine exists_congr fun point => ?_
  rw [← definesAt_iff]
  refine and_congr_right fun defines => ?_
  obtain ⟨d, isBlock, before⟩ := defines.exists_block (Nat.zero_lt_of_lt root.isLt)
  exact (precedes_iff isEntry closed isBlock before reached inside).symm

/-- Strictness, said of paths of points. -/
theorem strict_iff {root : Fin f.blocks.length} (isEntry : root.val = FlowGraph.entry)
    (closed : ∀ block, ∀ target ∈ f.flow.succs block, target < f.blocks.length) (keyed : f.Keyed) :
    f.Strict root ↔ f.defs.Nodup ∧
      (∀ b < f.blocks.length, Relation.ReflTransGen f.Goes top ⟨b, 0⟩) ∧
      ∀ v use, f.UsesAt v use → ∃ point, f.DefinesAt v point ∧ f.Precedes point use := by
  constructor
  · intro strict
    have available {block : Fin f.blocks.length} {position v : Nat}
        (inside : position ≤ (f.blocks.get block).endPosition) :
        f.Defined root (.value v) block position → _ :=
      (defined_value_iff isEntry closed (strict.reached block) inside).mp
    refine ⟨f.map_definitions ▸ strict.distinct, fun b inside => ?_, fun v use uses => ?_⟩
    · exact (reaches_iff isEntry closed).mpr (strict.reached ⟨b, inside⟩)
    · cases uses with
      | inst listed found member =>
          obtain ⟨block, rfl, rfl⟩ := exists_block listed
          exact available (Nat.succ_le_succ (Nat.le_of_lt (List.getElem?_eq_some_iff.mp found).1))
            (strict.instUses found _ member)
      | term listed member =>
          obtain ⟨block, rfl, rfl⟩ := exists_block listed
          exact available (Nat.le_refl _) (strict.termUses _ member)
      | phi listed member entry source =>
          obtain ⟨block, rfl, rfl⟩ := exists_block listed
          obtain ⟨pred, isPred, defined⟩ := strict.phiUses _ member _ entry
          obtain ⟨_, rfl⟩ := List.getElem?_eq_some_iff.mp source
          subst isPred
          exact available (Nat.le_refl _) defined
  · rintro ⟨distinct, reached, uses⟩
    have reached (block : Fin f.blocks.length) : Relation.ReflTransGen f.flow.Leads root block :=
      (reaches_iff isEntry closed).mp (reached block.val block.isLt)
    have available {block : Fin f.blocks.length} {position : Nat} {operand : Operand}
        (inside : position ≤ (f.blocks.get block).endPosition)
        (used : ∀ v, operand = .value v → f.UsesAt v ⟨block.val, position⟩) :
        f.Defined root operand block position := by
      rintro v rfl
      exact (defined_value_iff isEntry closed (reached block) inside).mpr (uses v _ (used v rfl)) v rfl
    refine ⟨isEntry, closed, f.map_definitions.symm ▸ distinct, reached, ?_, ?_, ?_⟩
    · intro block phi member entry listed
      obtain ⟨pred, isPred, _⟩ :=
        (keyed block phi member entry.1).mp (List.mem_map_of_mem listed)
      refine ⟨pred, isPred, available (Nat.le_refl _) fun v isValue => ?_⟩
      obtain ⟨key, operand⟩ := entry
      subst isPred isValue
      exact .phi (getElem?_blocks block) member listed (getElem?_blocks pred)
    · intro block i inst found operand member
      refine available (Nat.succ_le_succ (Nat.le_of_lt (List.getElem?_eq_some_iff.mp found).1)) ?_
      rintro v rfl
      exact .inst (getElem?_blocks block) found member
    · intro block operand member
      refine available (Nat.le_refl _) ?_
      rintro v rfl
      exact .term (getElem?_blocks block) member

/-- The dominance check always gives a verdict on functions whose phis select from their predecessors,
and accepts exactly those where no value is defined twice, every block is reached, and on every path
to a use a definition of the value has been passed. -/
theorem checkDominance_exact (accepted : f.checkPhis = .ok (.ok ())) :
    ∃ verdict, f.checkDominance.result = .ok verdict ∧
      (verdict = .ok () ↔ f.defs.Nodup ∧
        (∀ b < f.blocks.length, Relation.ReflTransGen f.Goes top ⟨b, 0⟩) ∧
        ∀ v use, f.UsesAt v use → ∃ point, f.DefinesAt v point ∧ f.Precedes point use) := by
  obtain ⟨verdict, done⟩ := exists_checkDominance accepted
  obtain ⟨closed, keyed⟩ := checkPhis_eq_ok_iff.mp accepted
  refine ⟨verdict, done, ?_⟩
  have passes : verdict = .ok () ↔ f.checkDominance.result = .ok (.ok ()) := by
    rw [done]
    exact ⟨congrArg Except.ok, Except.ok.inj⟩
  rw [passes]
  rcases Nat.eq_zero_or_pos f.blocks.length with empty | nonempty
  · refine ⟨fun ok => ⟨nodup_of_checkDominance ok, ?_, ?_⟩, fun ⟨distinct, _⟩ => ?_⟩
    · intro b inside
      exact absurd inside (empty ▸ Nat.not_lt_zero b)
    · intro v use uses
      obtain ⟨block⟩ := uses.nonempty_blocks
      have inside := block.isLt
      omega
    · obtain ⟨known, defined⟩ := exists_definitionMap_iff.mpr (f.map_definitions.symm ▸ distinct)
      exact checkDominance_of_empty empty defined
  · exact (checkDominance_eq_ok_iff nonempty).trans (strict_iff rfl closed keyed)

/-- A block that jumps back to itself and reads a value above its definition: only the first time
around there is nothing to read. -/
def spinning : Func where
  name := "spinning"
  params := []
  blocks := [⟨"loop", [], [.binary .add 0 (.value 1) (.const 1), .binary .sub 1 (.value 0) (.const 2)],
    .jump 0⟩]
  nextValue := 2

theorem checkDominance_exact_spinning : spinning.checkPhis = .ok (.ok ()) ∧
    ∃ objection, spinning.checkDominance.result = .ok (.error objection) := by
  have accepted : spinning.checkPhis = .ok (.ok ()) := by rfl
  refine ⟨accepted, ?_⟩
  obtain ⟨verdict, done, exact⟩ := checkDominance_exact accepted
  cases verdict with
  | error objection => exact ⟨objection, done⟩
  | ok =>
      obtain ⟨_, _, uses⟩ := exact.mp rfl
      have first : Trail spinning.Goes top ⟨0, 1⟩ [⟨0, 1⟩, top] := .step .start (.on rfl (by decide))
      obtain ⟨point, defines, precedes⟩ := uses 1 ⟨0, 1⟩ (.inst rfl rfl (by decide))
      rw [List.mem_singleton.mp (precedes _ first), definesAt_iff] at defines
      exact absurd defines (by decide)

end Func

end Lowering.Ssa
