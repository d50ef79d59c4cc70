import Lowering.Proofs.Ssa.Hiding
import Lowering.Proofs.Ssa.Rebuilding

/-!
# Promoted code keeps in step

Inside of a block the two runs match: a value that is available has the value of what it resolves to, a
promoted slot holds the value of the operand that the tour found for it, and elsewhere the states agree.
A removed instruction is a step of the old run alone, a kept one a step of both.
-/

namespace Lowering.Ssa

variable {f : Func} {I : Interpretation}

namespace Func

variable {block : Fin f.blocks.length} {v i : Nat}

theorem inst_of_mem_definitions (defined : (v, ⟨block.val, i + 1⟩) ∈ f.definitions) :
    ∃ inst, (f.blocks.get block).insts[i]? = some inst ∧ inst.def? = some v := by
  rcases mem_definitions.mp defined with ⟨_, same⟩ | ⟨b, code, isCode, defined⟩
  · cases congrArg Point.position same
  · rcases mem_blockDefinitions.mp defined with ⟨_, _, _, same⟩ | ⟨j, inst, found, made, same⟩
    · cases congrArg Point.position same
    · obtain rfl : block.val = b := congrArg Point.block same
      obtain rfl : i = j := Nat.succ.inj (congrArg Point.position same)
      obtain ⟨_, rfl⟩ := List.getElem?_eq_some_iff.mp isCode
      exact ⟨inst, found, made⟩

theorem exists_alloca (promotable : v ∈ f.promotableSlots) :
    ∃ (block : Fin f.blocks.length) (i : Nat),
      (f.blocks.get block).insts[i]? = some (.alloca v) := by
  obtain ⟨code, member, listed⟩ := mem_slots.mp (List.mem_filter.mp promotable).1
  obtain ⟨block, rfl⟩ := List.get_of_mem member
  obtain ⟨i, found⟩ := List.mem_iff_getElem?.mp listed
  exact ⟨block, i, found⟩

/-- What is defined behind an instruction is defined before it or by it. -/
theorem DefinedAt.cases {root : Fin f.blocks.length} (defined : f.DefinedAt root v block (i + 1 + 1)) :
    f.DefinedAt root v block (i + 1) ∨
      ∃ inst, (f.blocks.get block).insts[i]? = some inst ∧ inst.def? = some v := by
  obtain ⟨point, listed, ⟨same, less⟩ | above⟩ := defined
  · by_cases earlier : point.position < i + 1
    · exact .inl ⟨point, listed, .inl ⟨same, earlier⟩⟩
    · have last : point.position = i + 1 := by omega
      have here : point = ⟨block.val, i + 1⟩ := by
        rw [← same, ← last]
      exact .inr (inst_of_mem_definitions (here ▸ listed))
  · exact .inl ⟨point, listed, .inr above⟩

end Func

theorem Point.not_before_self {n : Nat} {edge : Fin n → Fin n → Prop} {root block : Fin n}
    {position : Nat} : ¬ (⟨block.val, position⟩ : Point).Before edge root block position := by
  rintro (⟨_, less⟩ | ⟨d, same, different, _⟩)
  · exact Nat.lt_irrefl _ less
  · exact different (Fin.ext same.symm)

/-- Runs an operation on two operands. -/
def State.operate (s : State I) (operation : I.Val → I.Val → Option I.Val) (dest : Nat)
    (lhs rhs : Operand) : Execution I (State I) := do
  let x ← s.require (s.read lhs)
  let y ← s.require (s.read rhs)
  let z ← s.require (operation x y)
  return s.set dest z

theorem State.operate_eq {s : State I} {operation : I.Val → I.Val → Option I.Val} {dest : Nat}
    {lhs rhs : Operand} {x y : I.Val} (left : s.read lhs = some x) (right : s.read rhs = some y) :
    s.operate operation dest lhs rhs =
      match operation x y with
      | some z => .ok (s.set dest z)
      | none => .error s.trace := by
  unfold State.operate
  rw [left, right]
  cases result : operation x y with
  | none => simp only [State.require, bind, Except.bind, result]
  | some z => simp only [State.require, bind, Except.bind, result, pure, Except.pure]

namespace Promotion

variable {p : Promotion f} {block : Fin f.blocks.length} {position : Nat} {operand : Operand}

/-- What an available operand resolves to is not defined at the place itself. -/
theorem Available.resolve_ne (available : p.Available operand block position) {w : Nat}
    (site : (w, ⟨block.val, position⟩) ∈ p.sites) : p.resolve operand ≠ .value w := by
  intro same
  obtain ⟨_, point, other, before⟩ := (p.available_resolve available).1 w same
  obtain rfl := p.site_unique site other
  exact Point.not_before_self before

theorem available_of_definedAt {v : Nat} (free : v ∉ f.promotableSlots)
    (defined : f.DefinedAt p.root v block position) : p.Available (.value v) block position := by
  rintro _ ⟨⟩
  obtain ⟨point, listed, before⟩ := defined
  exact ⟨free, point, List.mem_append_left _ listed, before⟩

/-- The runs of the function and of the promoted one before instruction `i` of a block. -/
structure Matches (p : Promotion f) (block : Fin f.blocks.length) (i : Nat) (s t : State I) :
    Prop where
  agree : State.Agree f.promotableSlots s t
  values : ∀ {v}, v ∉ f.promotableSlots → f.DefinedAt p.root v block (i + 1) →
    ∃ x, s.env v = some x ∧ t.read (p.resolve (.value v)) = some x ∧ I.Blind f.promotableSlots x
  slots : ∀ {v}, v ∈ f.promotableSlots → f.DefinedAt p.root v block (i + 1) →
    s.env v = some (I.slot v)
  contents : ∀ slot, t.read (p.resolve (p.valuesAt block i slot)) =
    some (s.memory (I.slot (f.promotableSlots.get slot)))

variable {i : Nat} {s t : State I}

/-! ## Reading -/

theorem resolve_const (p : Promotion f) (c : Int) : p.resolve (.const c) = .const c :=
  Ssa.resolve_const _ c

theorem resolve_undef (p : Promotion f) : p.resolve .undef = .undef :=
  Ssa.resolve_undef _

variable (matched : p.Matches block i s t)
include matched

/-- Both read the same, and nothing that tells a promoted slot. -/
theorem Matches.read {operand : Operand} (defined : f.Defined p.root operand block (i + 1))
    (free : ∀ slot ∈ f.promotableSlots, operand ≠ .value slot) :
    ∃ x, s.read operand = some x ∧ t.read (p.resolve operand) = some x ∧
      I.Blind f.promotableSlots x := by
  cases operand with
  | const c =>
      rw [p.resolve_const]
      exact ⟨_, rfl, rfl, Interpretation.blind_const c⟩
  | undef =>
      rw [p.resolve_undef]
      exact ⟨_, rfl, rfl, Interpretation.blind_undef⟩
  | value v => exact matched.values (fun member => free v member rfl) (defined v rfl)

theorem Matches.readAll {operands : List Operand}
    (defined : ∀ operand ∈ operands, f.Defined p.root operand block (i + 1))
    (free : ∀ operand ∈ operands, ∀ slot ∈ f.promotableSlots, operand ≠ .value slot) :
    ∃ xs, operands.mapM s.read = some xs ∧ (operands.map p.resolve).mapM t.read = some xs ∧
      ∀ x ∈ xs, I.Blind f.promotableSlots x := by
  induction operands with
  | nil => exact ⟨[], rfl, rfl, fun x member => absurd member List.not_mem_nil⟩
  | cons operand rest ih =>
      obtain ⟨definedHere, definedRest⟩ := List.forall_mem_cons.mp defined
      obtain ⟨freeHere, freeRest⟩ := List.forall_mem_cons.mp free
      obtain ⟨x, readS, readT, blind⟩ := matched.read definedHere freeHere
      obtain ⟨xs, restS, restT, blindRest⟩ := ih definedRest freeRest
      refine ⟨x :: xs, ?_, ?_, List.forall_mem_cons.mpr ⟨blind, blindRest⟩⟩
      · simp [readS, restS]
      · simp [readT, restT]

/-! ## Steps -/

omit matched in
/-- The instruction that makes a promoted slot is its `alloca`. -/
theorem alloca_of_promotable (p : Promotion f) {inst : Inst} {slot : Nat}
    (promotable : slot ∈ f.promotableSlots)
    (found : (f.blocks.get block).insts[i]? = some inst) (made : inst.def? = some slot) :
    inst = .alloca slot := by
  obtain ⟨other, j, isAlloca⟩ := Func.exists_alloca promotable
  exact (p.strict.inst_unique found made isAlloca rfl).2.2

variable {inst : Inst} {s' t' : State I}

omit matched in
theorem removes_alloca (p : Promotion f) {slot : Nat} (promotable : slot ∈ f.promotableSlots) :
    p.plan.removes (.alloca slot) = true := by
  show (slotOf? f.promotableSlots (.value slot)).isSome = true
  rw [Option.isSome_iff_ne_none]
  exact fun none => slotOf?_eq_none_iff.mp none slot promotable rfl

omit matched in
/-- An instruction defines no value that an operand available before it resolves to. -/
theorem Available.read_eq (available : p.Available operand block (i + 1))
    (found : (f.blocks.get block).insts[i]? = some inst)
    (others : ∀ v, inst.def? ≠ some v → t'.env v = t.env v) :
    t'.read (p.resolve operand) = t.read (p.resolve operand) := by
  cases resolved : p.resolve operand with
  | const c => rfl
  | undef => rfl
  | value w =>
      refine others w fun made => ?_
      exact available.resolve_ne (List.mem_append_left _ (Func.mem_definitions_of_inst found made)) resolved

/-- The runs match behind an instruction if they do for the value that it defines, for the contents of
the slots, and outside of them. -/
theorem Matches.advance (found : (f.blocks.get block).insts[i]? = some inst)
    (agree : State.Agree f.promotableSlots s' t')
    (othersS : ∀ v, inst.def? ≠ some v → s'.env v = s.env v)
    (othersT : ∀ v, inst.def? ≠ some v → t'.env v = t.env v)
    (value : ∀ v, inst.def? = some v → v ∉ f.promotableSlots →
      ∃ x, s'.env v = some x ∧ t'.read (p.resolve (.value v)) = some x ∧
        I.Blind f.promotableSlots x)
    (slot : ∀ v, inst.def? = some v → v ∈ f.promotableSlots → s'.env v = some (I.slot v))
    (contents : ∀ slot, t'.read (p.resolve (p.valuesAt block (i + 1) slot)) =
      some (s'.memory (I.slot (f.promotableSlots.get slot)))) :
    p.Matches block (i + 1) s' t' := by
  have other {v : Nat} (defined : f.DefinedAt p.root v block (i + 1)) : inst.def? ≠ some v := by
    intro made
    obtain ⟨point, listed, before⟩ := defined
    obtain rfl := p.strict.unique listed (Func.mem_definitions_of_inst found made)
    exact Point.not_before_self before
  have here {v : Nat} (made : ∃ inst, (f.blocks.get block).insts[i]? = some inst ∧
      inst.def? = some v) : inst.def? = some v := by
    obtain ⟨same, isSame, made⟩ := made
    exact Option.some.inj (found.symm.trans isSame) ▸ made
  refine ⟨agree, ?_, ?_, contents⟩
  · intro v free defined
    rcases defined.cases with earlier | made
    · obtain ⟨x, envS, readT, blind⟩ := matched.values free earlier
      refine ⟨x, (othersS v (other earlier)).trans envS, ?_, blind⟩
      rw [(available_of_definedAt free earlier).read_eq found othersT, readT]
    · exact value v (here made) free
  · intro v promotable defined
    rcases defined.cases with earlier | made
    · rw [othersS v (other earlier), matched.slots promotable earlier]
    · exact slot v (here made) promotable

/-- A removed instruction is a step of the old run alone. -/
theorem Matches.removed (found : (f.blocks.get block).insts[i]? = some inst)
    (removed : p.plan.removes inst = true) :
    ∃ s', inst.exec s = .ok s' ∧ p.Matches block (i + 1) s' t := by
  have address {addr : Operand} (member : addr ∈ inst.operands)
      {slot : Fin f.promotableSlots.length} (isSlot : slotOf? f.promotableSlots addr = some slot) :
      s.read addr = some (I.slot (f.promotableSlots.get slot)) := by
    obtain rfl := slotOf?_eq_some isSlot
    exact matched.slots (List.get_mem _ slot) (p.strict.instUses found _ member _ rfl)
  cases inst with
  | alloca dest =>
      obtain ⟨slot, isSlot⟩ := Option.isSome_iff_exists.mp removed
      obtain rfl := Operand.value.inj (slotOf?_eq_some isSlot)
      refine ⟨_, rfl, matched.advance found (matched.agree.env _ _) ?_ (fun _ _ => rfl) ?_ ?_ ?_⟩
      · intro v other
        exact if_neg fun same => other (congrArg some same.symm)
      · rintro _ ⟨⟩ free
        exact absurd (List.get_mem _ slot) free
      · rintro _ ⟨⟩ _
        exact if_pos rfl
      · rw [p.valuesAt_succ found]
        exact matched.contents
  | load dest addr =>
      obtain ⟨slot, isSlot⟩ := Option.isSome_iff_exists.mp removed
      have isAddress := address (List.mem_singleton_self addr) isSlot
      refine ⟨_, Inst.exec_load isAddress,
        matched.advance found (matched.agree.env _ _) ?_ (fun _ _ => rfl) ?_ ?_ ?_⟩
      · intro v other
        exact if_neg fun same => other (congrArg some same.symm)
      · rintro _ ⟨⟩ _
        refine ⟨_, if_pos rfl, ?_, fun told member => matched.agree.first.memory told member _⟩
        rw [p.resolve_alias (p.alias_iff.mpr ⟨block, i, addr, slot, found, isSlot, rfl⟩)]
        exact matched.contents slot
      · rintro _ ⟨⟩ promotable
        cases p.alloca_of_promotable promotable found rfl
      · rw [p.valuesAt_succ found]
        exact matched.contents
  | store value addr =>
      obtain ⟨slot, isSlot⟩ := Option.isSome_iff_exists.mp removed
      have used : value ∈ (Inst.store value addr).valueOperands := List.mem_singleton_self value
      have isAddress := address (List.mem_append_right _ (List.mem_singleton_self addr)) isSlot
      obtain ⟨x, readS, readT, blind⟩ := matched.read
        (p.strict.instUses found value (List.mem_append_left _ used)) (free_of_inst found used)
      refine ⟨_, Inst.exec_store readS isAddress,
        matched.advance found (matched.agree.storeSlot (List.get_mem _ slot) blind)
          (fun _ _ => rfl) (fun _ _ => rfl) nofun nofun ?_⟩
      intro other
      rw [p.valuesAt_succ found, Renaming.Plan.settle_store isSlot]
      show _ = some (if I.slot (f.promotableSlots.get other) = I.slot (f.promotableSlots.get slot)
        then x else s.memory (I.slot (f.promotableSlots.get other)))
      by_cases same : other = slot
      · rw [same, Function.update_self, if_pos rfl, readT]
      · have apart : f.promotableSlots.get other ≠ f.promotableSlots.get slot := fun equal =>
          same (List.nodup_iff_injective_get.mp f.nodup_promotableSlots equal)
        rw [Function.update_of_ne same,
          if_neg fun equal => apart (Interpretation.slot_injective equal)]
        exact matched.contents other
  | binary _ _ _ _ | cmp _ _ _ _ | call _ _ _ => cases removed

/-- The runs match behind a kept instruction if it defines the same on both sides and leaves the
promoted slots alone. -/
theorem Matches.advance_kept (found : (f.blocks.get block).insts[i]? = some inst)
    (kept : p.plan.removes inst = false)
    (agree : State.Agree f.promotableSlots s' t')
    (othersS : ∀ v, inst.def? ≠ some v → s'.env v = s.env v)
    (othersT : ∀ v, inst.def? ≠ some v → t'.env v = t.env v)
    (value : ∀ v, inst.def? = some v → v ∉ f.promotableSlots →
      ∃ x, s'.env v = some x ∧ t'.env v = some x ∧ I.Blind f.promotableSlots x)
    (memory : ∀ slot ∈ f.promotableSlots, s'.memory (I.slot slot) = s.memory (I.slot slot)) :
    p.Matches block (i + 1) s' t' := by
  refine matched.advance found agree othersS othersT ?_ ?_ ?_
  · intro v made free
    obtain ⟨x, envS, envT, blind⟩ := value v made free
    have unaliased : p.outcome.aliases.get? v = none := by
      cases aliased : p.outcome.aliases.get? v with
      | none => rfl
      | some operand =>
          obtain ⟨other, j, addr, slot, listed, isSlot, _⟩ := p.alias_iff.mp aliased
          obtain ⟨_, _, rfl⟩ := p.strict.inst_unique found made listed rfl
          have removed : (slotOf? f.promotableSlots addr).isSome = false := kept
          rw [isSlot] at removed
          cases removed
    exact ⟨x, envS, (p.resolve_value unaliased).symm ▸ envT, blind⟩
  · intro v made promotable
    obtain rfl := p.alloca_of_promotable promotable found made
    rw [p.removes_alloca promotable] at kept
    cases kept
  · intro slot
    rw [p.valuesAt_succ found, Renaming.Plan.settle_kept kept,
      (p.available_valuesAt block i slot).read_eq found othersT, matched.contents,
      memory _ (List.get_mem _ slot)]

theorem Matches.set (found : (f.blocks.get block).insts[i]? = some inst)
    (kept : p.plan.removes inst = false)
    {dest : Nat} (made : inst.def? = some dest) {x : I.Val}
    (blind : dest ∉ f.promotableSlots → I.Blind f.promotableSlots x) :
    p.Matches block (i + 1) (s.set dest x) (t.set dest x) := by
  have other {v : Nat} (different : inst.def? ≠ some v) : ¬ v = dest :=
    fun same => different (same ▸ made)
  refine matched.advance_kept found kept (matched.agree.env _ _) (fun v different => if_neg (other different))
    (fun v different => if_neg (other different)) ?_ (fun _ _ => rfl)
  intro v isDest free
  obtain rfl := Option.some.inj (made.symm.trans isDest)
  exact ⟨x, if_pos rfl, if_pos rfl, blind free⟩

theorem Matches.operate (found : (f.blocks.get block).insts[i]? = some inst)
    (kept : p.plan.removes inst = false)
    {dest : Nat} (made : inst.def? = some dest) {lhs rhs : Operand} (left : lhs ∈ inst.operands)
    (right : rhs ∈ inst.operands) {operation : I.Val → I.Val → Option I.Val}
    (told : ∀ {x y z slot}, operation x y = some z → I.mentions z slot →
      I.mentions x slot ∨ I.mentions y slot) :
    Together f.promotableSlots (p.Matches block (i + 1)) (s.operate operation dest lhs rhs)
      (t.operate operation dest (p.resolve lhs) (p.resolve rhs)) := by
  obtain ⟨x, leftS, leftT, blindX⟩ :=
    matched.read (p.strict.instUses found lhs left) (p.free_of_kept found kept left)
  obtain ⟨y, rightS, rightT, blindY⟩ :=
    matched.read (p.strict.instUses found rhs right) (p.free_of_kept found kept right)
  rw [State.operate_eq leftS rightS, State.operate_eq leftT rightT, matched.agree.trace]
  cases result : operation x y with
  | none => exact .stopped
  | some z =>
      refine .ok (matched.set found kept made ?_)
      intro _ slot member mentioned
      exact (told result mentioned).elim (blindX slot member) (blindY slot member)

/-- A kept instruction is a step of both runs. -/
theorem Matches.kept (found : (f.blocks.get block).insts[i]? = some inst)
    (kept : p.plan.removes inst = false) :
    Together f.promotableSlots (p.Matches block (i + 1)) (inst.exec s)
      ((inst.mapOperands p.resolve).exec t) := by
  have read {operand : Operand} (member : operand ∈ inst.operands) :=
    matched.read (p.strict.instUses found operand member) (p.free_of_kept found kept member)
  cases inst with
  | alloca dest => exact .ok (matched.set found kept rfl Interpretation.blind_slot)
  | load dest addr =>
      obtain ⟨address, readS, readT, blind⟩ := read (List.mem_singleton_self addr)
      obtain ⟨same, blindLoaded⟩ := matched.agree.load blind
      have loaded : ((Inst.load dest addr).mapOperands p.resolve).exec t =
          .ok (t.set dest (t.memory address)) := Inst.exec_load readT
      rw [Inst.exec_load readS, loaded, ← same]
      exact .ok (matched.set found kept rfl fun _ => blindLoaded)
  | store value addr =>
      obtain ⟨x, readS, readT, blind⟩ := read List.mem_cons_self
      obtain ⟨address, addressS, addressT, blindAddress⟩ :=
        read (List.mem_append_right _ (List.mem_singleton_self addr))
      have stored : ((Inst.store value addr).mapOperands p.resolve).exec t =
          .ok (t.store address x) := Inst.exec_store readT addressT
      rw [Inst.exec_store readS addressS, stored]
      refine .ok (matched.advance_kept found kept (matched.agree.store blindAddress blind)
        (fun _ _ => rfl) (fun _ _ => rfl) nofun ?_)
      exact fun slot member => if_neg (blindAddress.ne_slot member).symm
  | binary op dest lhs rhs =>
      exact matched.operate found kept rfl List.mem_cons_self
        (List.mem_cons_of_mem _ List.mem_cons_self) I.mentions_binary
  | cmp op dest lhs rhs =>
      exact matched.operate found kept rfl List.mem_cons_self
        (List.mem_cons_of_mem _ List.mem_cons_self) I.mentions_cmp
  | call dest callee args =>
      have inside {operand : Operand} (member : operand ∈ args) :
          operand ∈ (Inst.call dest callee args).operands := List.mem_append_left _ member
      obtain ⟨xs, readS, readT, blind⟩ := matched.readAll
        (fun operand member => p.strict.instUses found operand (inside member))
        (fun operand member => p.free_of_kept found kept (inside member))
      have called : ((Inst.call dest callee args).mapOperands p.resolve).exec t =
          t.call dest callee xs := Inst.exec_call readT
      rw [Inst.exec_call readS, called]
      refine (matched.agree.call blind dest callee).imp ?_
      rintro s' t' ⟨result, called⟩
      refine matched.advance_kept found kept called.agree ?_ ?_ ?_ called.memory
      · intro v different
        rw [called.envFirst, if_neg fun same => different same.symm]
      · intro v different
        rw [called.envSecond, if_neg fun same => different same.symm]
      · intro v made _
        obtain rfl : dest = some v := made
        exact ⟨result, (called.envFirst v).trans (if_pos rfl),
          (called.envSecond v).trans (if_pos rfl), called.blind⟩

end Promotion

end Lowering.Ssa
