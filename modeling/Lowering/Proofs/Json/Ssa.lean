import Lowering.Json.Ssa
import Lowering.Proofs.Json.Members
import Lowering.Proofs.Ssa.Incoming

/-!
# SSA functions restored from JSON

An SSA function whose numbers have their widths is restored from its written form, and nothing else is
ever read.  The operands of a phi are keyed by numerals and come back in numerical order.
-/

namespace Lowering.Ssa

open Json

/-! ## Operands keyed by blocks -/

theorem foldl_toDigits (n : Nat) :
    (Nat.toDigits 10 n).foldl (fun n c => 10 * n + (c.toNat - '0'.toNat)) 0 = n := by
  rw [← Nat.ofDigitChars_eq_foldl, Nat.ofDigitChars_ten_toDigits]

/-- Only the numeral of zero begins with the digit zero. -/
theorem head?_toDigits {n : Nat} (positive : 0 < n) : (Nat.toDigits 10 n).head? ≠ some '0' := by
  induction n using Nat.strongRecOn with
  | ind n ih =>
      by_cases small : n < 10
      · rw [Nat.toDigits_of_lt_base small, List.head?_cons]
        intro isZero
        have zero := Nat.digitChar_eq_zero.mp (Option.some.inj isZero)
        omega
      · rw [Nat.toDigits_of_base_le (by decide) (by omega), List.head?_append]
        have first := ih (n / 10) (by omega) (by omega)
        cases found : (Nat.toDigits 10 (n / 10)).head? with
        | none => exact absurd (List.head?_eq_none_iff.mp found) Nat.toDigits_ne_nil
        | some c => rwa [found] at first

theorem blockKey?_toString {block : Nat} (below : block < Width.w64.bound) :
    blockKey? s!"{block}" = some block := by
  have digits : (s!"{block}").toList = Nat.toDigits 10 block := by simp
  have proper : (!(Nat.toDigits 10 block).isEmpty && (Nat.toDigits 10 block).all Char.isDigit &&
      ((Nat.toDigits 10 block).length == 1 || (Nat.toDigits 10 block).head? != some '0')) = true := by
    simp only [Bool.and_eq_true, Bool.or_eq_true, Bool.not_eq_true', beq_iff_eq, bne_iff_ne]
    refine ⟨⟨List.isEmpty_eq_false_iff.mpr Nat.toDigits_ne_nil, List.all_eq_true.mpr fun c isDigit =>
      Nat.isDigit_of_mem_toDigits (by decide) (by decide) isDigit⟩, ?_⟩
    rcases Nat.eq_zero_or_pos block with rfl | positive
    · exact .inl rfl
    · exact .inr (head?_toDigits positive)
  unfold blockKey?
  rw [digits]
  dsimp only
  rw [if_pos proper, foldl_toDigits]
  exact if_pos below

theorem blockKey?_lt {key : String} {block : Nat} (found : blockKey? key = some block) :
    block < Width.w64.bound := by
  unfold blockKey? at found
  dsimp only at found
  split at found
  · split at found
    · next below =>
        cases found
        exact below
    · cases found
  · cases found

namespace Incoming

variable {α : Type}

/-- An ascending list of entries is known by what it says about each block. -/
theorem ext_get? {first second : Incoming α} (same : ∀ block, first.get? block = second.get? block) :
    first = second := by
  have nodup (incoming : Incoming α) : incoming.entries.Nodup := incoming.keys_nodup.of_map _
  have permutes : first.entries.Perm second.entries := by
    refine (List.perm_ext_iff_of_nodup (nodup first) (nodup second)).mpr fun entry => ?_
    rw [← Prod.eta entry, ← get?_eq_some_iff, ← get?_eq_some_iff, same]
  have equal : first.entries = second.entries :=
    permutes.eq_of_pairwise (fun a b _ _ less greater => absurd less (Nat.lt_asymm greater))
      first.ascending second.ascending
  cases first
  cases second
  cases equal
  rfl

theorem ofList_permuted {incoming : Incoming α} {entries : List (Nat × α)}
    (permutes : incoming.entries.Perm entries) : ofList entries = incoming := by
  have distinct : (entries.map Prod.fst).Nodup := (permutes.map _).nodup_iff.mp incoming.keys_nodup
  refine ext_get? fun block => Option.ext fun operand => ?_
  rw [get?_ofList entries distinct, lookup_eq_some_iff distinct,
    get?_eq_some_iff, permutes.mem_iff]

theorem mem_of_mem_ofList {entries : List (Nat × α)} {entry : Nat × α}
    (member : entry ∈ (ofList entries).entries) : entry ∈ entries := by
  refine List.foldlRecOn entries _ (motive := fun incoming : Incoming α =>
    entry ∈ incoming.entries → entry ∈ entries) (absurd · List.not_mem_nil) ?_ member
  intro incoming earlier added isAdded member
  exact (mem_place member).elim (fun equal => equal ▸ isAdded) earlier

end Incoming

/-! ## Restored functions -/

namespace Operand

/-- Values have 32 bits, constants 64. -/
def InRange : Operand → Prop
  | value v => v < Width.w32.bound
  | const c => -9223372036854775808 ≤ c ∧ c ≤ 9223372036854775807
  | undef => True

theorem restores {operand : Operand} (inRange : operand.InRange) : Restores toJson ofJson? operand := by
  intro json same
  cases operand with
  | value v =>
      obtain ⟨data, rfl, written⟩ := exists_of_reorders_tagged same
      exact congrArg (Option.map value) (restores_u32 inRange data written)
  | const c =>
      obtain ⟨data, rfl, written⟩ := exists_of_reorders_tagged same
      exact congrArg (Option.map const) (restores_int inRange data written)
  | undef =>
      cases reorders_str.mp same
      rfl

theorem yields : Yields ofJson? InRange := by
  intro json operand found
  unfold ofJson? at found
  obtain ⟨_, _, found⟩ := Option.bind_eq_some_iff.mp found
  split at found
  · obtain ⟨v, isValue, rfl⟩ := Option.map_eq_some_iff.mp found
    exact yields_u32.required isValue
  · obtain ⟨c, isConst, rfl⟩ := Option.map_eq_some_iff.mp found
    exact (yields_intWithin _ _).required isConst
  · exact yields_bare found trivial
  · cases found

theorem toJson_ne_null (operand : Operand) : operand.toJson ≠ null := by
  cases operand <;> exact nofun

end Operand

theorem BinOp.restores (op : BinOp) : Restores toJson ofJson? op := by
  intro json same
  cases reorders_str.mp same
  cases op <;> rfl

theorem CmpOp.restores (op : CmpOp) : Restores toJson ofJson? op := by
  intro json same
  cases reorders_str.mp same
  cases op <;> rfl

namespace Inst

def InRange : Inst → Prop
  | alloca dest => dest < Width.w32.bound
  | load dest addr => dest < Width.w32.bound ∧ addr.InRange
  | store value addr => value.InRange ∧ addr.InRange
  | binary _ dest lhs rhs | cmp _ dest lhs rhs => dest < Width.w32.bound ∧ lhs.InRange ∧ rhs.InRange
  | call dest _ args => (∀ value ∈ dest, value < Width.w32.bound) ∧ ∀ arg ∈ args, arg.InRange

theorem restores {inst : Inst} (inRange : inst.InRange) : Restores toJson ofJson? inst := by
  intro json same
  cases inst with
  | alloca dest =>
      obtain ⟨data, _, rfl, members, _ | ⟨writtenDest, ⟨⟩⟩⟩ :=
        exists_of_reorders_case ["dest"] [nat dest] same rfl (by decide)
      show ofData? "Alloca" data = _
      simp [ofData?, members, required?, restores_u32 inRange _ writtenDest]
  | load dest addr =>
      obtain ⟨data, _, rfl, members, _ | ⟨writtenDest, _ | ⟨writtenAddr, ⟨⟩⟩⟩⟩ :=
        exists_of_reorders_case ["dest", "addr"] [nat dest, addr.toJson] same rfl (by decide)
      show ofData? "Load" data = _
      simp [ofData?, members, required?, restores_u32 inRange.1 _ writtenDest,
        Operand.restores inRange.2 _ writtenAddr]
  | store value addr =>
      obtain ⟨data, _, rfl, members, _ | ⟨writtenValue, _ | ⟨writtenAddr, ⟨⟩⟩⟩⟩ :=
        exists_of_reorders_case ["value", "addr"] [value.toJson, addr.toJson] same rfl (by decide)
      show ofData? "Store" data = _
      simp [ofData?, members, required?,
        Operand.restores inRange.1 _ writtenValue, Operand.restores inRange.2 _ writtenAddr]
  | binary op dest lhs rhs =>
      obtain ⟨data, _, rfl, members, _ | ⟨writtenOp, _ | ⟨writtenDest,
          _ | ⟨writtenLhs, _ | ⟨writtenRhs, ⟨⟩⟩⟩⟩⟩⟩ :=
        exists_of_reorders_case ["op", "dest", "lhs", "rhs"]
          [op.toJson, nat dest, lhs.toJson, rhs.toJson] same rfl (by decide)
      show ofData? "Binary" data = _
      simp [ofData?, members, required?, op.restores _ writtenOp,
        restores_u32 inRange.1 _ writtenDest, Operand.restores inRange.2.1 _ writtenLhs,
        Operand.restores inRange.2.2 _ writtenRhs]
  | cmp op dest lhs rhs =>
      obtain ⟨data, _, rfl, members, _ | ⟨writtenOp, _ | ⟨writtenDest,
          _ | ⟨writtenLhs, _ | ⟨writtenRhs, ⟨⟩⟩⟩⟩⟩⟩ :=
        exists_of_reorders_case ["op", "dest", "lhs", "rhs"]
          [op.toJson, nat dest, lhs.toJson, rhs.toJson] same rfl (by decide)
      show ofData? "Cmp" data = _
      simp [ofData?, members, required?, op.restores _ writtenOp,
        restores_u32 inRange.1 _ writtenDest, Operand.restores inRange.2.1 _ writtenLhs,
        Operand.restores inRange.2.2 _ writtenRhs]
  | call dest callee args =>
      obtain ⟨data, _, rfl, members, _ | ⟨writtenDest, _ | ⟨writtenCallee, _ | ⟨writtenArgs, ⟨⟩⟩⟩⟩⟩ :=
        exists_of_reorders_case ["dest", "callee", "args"]
          [ofOption nat dest, str callee, arr (args.map Operand.toJson)] same rfl (by decide)
      have args := Restores.list (fun arg isArg => Operand.restores (inRange.2 arg isArg)) _ writtenArgs
      have dest : nullable? u32? _ = some dest :=
        Restores.nullable (fun value isDest => restores_u32 (inRange.1 value isDest)) (fun _ => nofun) _
          writtenDest
      show ofData? "Call" data = _
      simp [ofData?, members, required?, optional?, dest,
        restores_str callee _ writtenCallee, args]

theorem ofData?_inRange {name : String} {data : Json} {inst : Inst}
    (found : ofData? name data = some inst) : inst.InRange := by
  unfold ofData? at found
  split at found
  case h_7 => cases found
  -- every other case reads the members of a record
  all_goals
    obtain ⟨_, _, found⟩ := Option.bind_eq_some_iff.mp found
    split at found
    case h_2 => cases found
    simp only [Option.bind_eq_bind, Option.bind_eq_some_iff, Option.some.injEq] at found
  · obtain ⟨dest, isDest, rfl⟩ := found
    exact yields_u32.required isDest
  · obtain ⟨dest, isDest, addr, isAddr, rfl⟩ := found
    exact ⟨yields_u32.required isDest, Operand.yields.required isAddr⟩
  · obtain ⟨value, isValue, addr, isAddr, rfl⟩ := found
    exact ⟨Operand.yields.required isValue, Operand.yields.required isAddr⟩
  · obtain ⟨op, _, dest, isDest, lhs, isLhs, rhs, isRhs, rfl⟩ := found
    exact ⟨yields_u32.required isDest, Operand.yields.required isLhs, Operand.yields.required isRhs⟩
  · obtain ⟨op, _, dest, isDest, lhs, isLhs, rhs, isRhs, rfl⟩ := found
    exact ⟨yields_u32.required isDest, Operand.yields.required isLhs, Operand.yields.required isRhs⟩
  · obtain ⟨dest, isDest, callee, _, args, areArgs, rfl⟩ := found
    exact ⟨yields_u32.optional isDest, Operand.yields.list.required areArgs⟩

theorem yields : Yields ofJson? InRange := by
  intro json inst found
  unfold ofJson? at found
  obtain ⟨⟨name, data⟩, _, found⟩ := Option.bind_eq_some_iff.mp found
  split at found
  · exact ofData?_inRange found
  · cases found

end Inst

namespace Terminator

def InRange : Terminator → Prop
  | ret value => ∀ operand ∈ value, operand.InRange
  | branch cond thenBlock elseBlock =>
      cond.InRange ∧ thenBlock < Width.w64.bound ∧ elseBlock < Width.w64.bound
  | jump target => target < Width.w64.bound

theorem restores {term : Terminator} (inRange : term.InRange) : Restores toJson ofJson? term := by
  intro json same
  cases term with
  | ret value =>
      obtain ⟨data, rfl, written⟩ := exists_of_reorders_tagged same
      have value : data.nullable? Operand.ofJson? = some value :=
        Restores.nullable (fun operand isValue => Operand.restores (inRange operand isValue))
          Operand.toJson_ne_null _ written
      simp [ofJson?, tagged, case?, value]
  | branch cond thenBlock elseBlock =>
      obtain ⟨data, _, rfl, members, _ | ⟨writtenCond, _ | ⟨writtenThen, _ | ⟨writtenElse, ⟨⟩⟩⟩⟩⟩ :=
        exists_of_reorders_case ["cond", "then", "els"]
          [cond.toJson, nat thenBlock, nat elseBlock] same rfl (by decide)
      simp [ofJson?, tagged, case?, members, required?, Operand.restores inRange.1 _ writtenCond,
        restores_u64 inRange.2.1 _ writtenThen, restores_u64 inRange.2.2 _ writtenElse]
  | jump target =>
      obtain ⟨data, rfl, written⟩ := exists_of_reorders_tagged same
      exact congrArg (Option.map jump) (restores_u64 inRange data written)

theorem yields : Yields ofJson? InRange := by
  intro json term found
  unfold ofJson? at found
  obtain ⟨⟨name, data⟩, _, found⟩ := Option.bind_eq_some_iff.mp found
  split at found
  · split at found
    · obtain ⟨value, isValue, rfl⟩ := Option.map_eq_some_iff.mp found
      exact Operand.yields.nullable _ _ isValue
    · obtain ⟨_, _, found⟩ := Option.bind_eq_some_iff.mp found
      split at found
      · simp only [Option.bind_eq_bind, Option.bind_eq_some_iff, Option.some.injEq] at found
        obtain ⟨cond, isCond, thenBlock, isThen, elseBlock, isElse, rfl⟩ := found
        exact ⟨Operand.yields.required isCond, yields_u64.required isThen, yields_u64.required isElse⟩
      · cases found
    · obtain ⟨target, isTarget, rfl⟩ := Option.map_eq_some_iff.mp found
      exact yields_u64 _ _ isTarget
    · cases found
  · cases found

end Terminator

/-- Reads the operand from one block. -/
def entryOfJson? (member : String × Json) : Option (Nat × Operand) := do
  some (← blockKey? member.1, ← Operand.ofJson? member.2)

theorem incomingOfJson?_obj (members : List (String × Json)) :
    incomingOfJson? (obj members) = (members.mapM entryOfJson?).map Incoming.ofList := by
  rw [Option.map_eq_bind]
  rfl

theorem entryOfJson?_inRange {member : String × Json} {entry : Nat × Operand}
    (found : entryOfJson? member = some entry) : entry.1 < Width.w64.bound ∧ entry.2.InRange := by
  simp only [entryOfJson?, Option.bind_eq_bind, Option.bind_eq_some_iff, Option.some.injEq] at found
  obtain ⟨block, isBlock, operand, isOperand, rfl⟩ := found
  exact ⟨blockKey?_lt isBlock, Operand.yields _ _ isOperand⟩

theorem yields_incoming : Yields incomingOfJson? fun incoming =>
    ∀ entry ∈ incoming.entries, entry.1 < Width.w64.bound ∧ entry.2.InRange := by
  intro json incoming found entry member
  unfold incomingOfJson? at found
  split at found
  · next members =>
      obtain ⟨entries, isRead, rfl⟩ :=
        Option.map_eq_some_iff.mp ((incomingOfJson?_obj members).symm.trans found)
      obtain ⟨_, isEntry⟩ := exists_of_mem_mapM isRead (Incoming.mem_of_mem_ofList member)
      exact entryOfJson?_inRange isEntry
  · cases found

namespace Phi

/-- Operands come from blocks whose numbers have 64 bits. -/
structure InRange (phi : Phi) : Prop where
  dest : phi.dest < Width.w32.bound
  incoming : ∀ entry ∈ phi.incoming.entries, entry.1 < Width.w64.bound ∧ entry.2.InRange

theorem mapM_entryOfJson? {entries : List (Nat × Operand)}
    (inRange : ∀ entry ∈ entries, entry.1 < Width.w64.bound ∧ entry.2.InRange)
    {members : List (String × Json)}
    (keys : members.map Prod.fst = entries.map fun entry => s!"{entry.1}")
    (operands : List.Forall₂ Reorders (entries.map fun entry => entry.2.toJson)
      (members.map Prod.snd)) :
    members.mapM entryOfJson? = some entries := by
  refine mapM_eq_some_iff.mpr ?_
  induction entries generalizing members with
  | nil =>
      cases List.map_eq_nil_iff.mp keys
      exact .nil
  | cons entry entries ih =>
      obtain ⟨first, rest, rfl, key, keys⟩ := List.map_eq_cons_iff.mp keys
      obtain ⟨operand, operands⟩ := List.forall₂_cons.mp operands
      obtain ⟨⟨block, written⟩, others⟩ := List.forall_mem_cons.mp inRange
      refine .cons ?_ (ih others keys operands)
      have isBlock : blockKey? first.1 = some entry.1 := key ▸ blockKey?_toString block
      simp [entryOfJson?, isBlock, Operand.restores written _ operand]

theorem restores {phi : Phi} (inRange : phi.InRange) : Restores toJson ofJson? phi := by
  intro json same
  obtain ⟨_, members, _ | ⟨writtenDest, _ | ⟨writtenIncoming, ⟨⟩⟩⟩⟩ :=
    exists_of_reorders_record ["dest", "incoming"] [nat phi.dest, obj (phi.incoming.entries.map
      fun (entry : Nat × Operand) => (s!"{entry.1}", entry.2.toJson))] same rfl (by decide)
  obtain ⟨others, permuted, rfl, permutes, keys, operands⟩ := exists_of_reorders_obj writtenIncoming
  rw [List.map_map] at keys operands
  obtain ⟨entries, read, sameEntries⟩ :=
    exists_mapM_permuted permutes (mapM_entryOfJson? inRange.incoming keys operands)
  simp [ofJson?, members, required?, restores_u32 inRange.dest _ writtenDest, incomingOfJson?_obj, read,
    Incoming.ofList_permuted sameEntries]

theorem yields : Yields ofJson? InRange := by
  intro json phi found
  unfold ofJson? at found
  obtain ⟨_, _, found⟩ := Option.bind_eq_some_iff.mp found
  split at found
  · simp only [Option.bind_eq_bind, Option.bind_eq_some_iff, Option.some.injEq] at found
    obtain ⟨dest, isDest, incoming, isIncoming, rfl⟩ := found
    exact ⟨yields_u32.required isDest, yields_incoming.required isIncoming⟩
  · cases found

end Phi

namespace Block

structure InRange (block : Block) : Prop where
  phis : ∀ phi ∈ block.phis, phi.InRange
  insts : ∀ inst ∈ block.insts, inst.InRange
  term : block.term.InRange

theorem restores {block : Block} (inRange : block.InRange) : Restores toJson ofJson? block := by
  intro json same
  obtain ⟨_, members, _ | ⟨writtenName, _ | ⟨writtenPhis,
      _ | ⟨writtenInsts, _ | ⟨writtenTerm, ⟨⟩⟩⟩⟩⟩⟩ :=
    exists_of_reorders_record ["name", "phis", "insts", "term"]
      [str block.name, arr (block.phis.map Phi.toJson), arr (block.insts.map Inst.toJson),
        block.term.toJson] same rfl (by decide)
  have phis := Restores.list (fun phi isPhi => Phi.restores (inRange.phis phi isPhi)) _ writtenPhis
  have insts := Restores.list (fun inst isInst => Inst.restores (inRange.insts inst isInst)) _
    writtenInsts
  simp [ofJson?, members, required?, default?, restores_str _ _ writtenName, phis, insts,
    Terminator.restores inRange.term _ writtenTerm]

theorem yields : Yields ofJson? InRange := by
  intro json block found
  unfold ofJson? at found
  obtain ⟨_, _, found⟩ := Option.bind_eq_some_iff.mp found
  split at found
  · simp only [Option.bind_eq_bind, Option.bind_eq_some_iff, Option.some.injEq] at found
    obtain ⟨name, _, phis, arePhis, insts, areInsts, term, isTerm, rfl⟩ := found
    exact ⟨Phi.yields.list.default (List.forall_mem_nil _) arePhis,
      Inst.yields.list.default (List.forall_mem_nil _) areInsts, Terminator.yields.required isTerm⟩
  · cases found

end Block

namespace Func

/-- The numbers of the function have their widths: values, constants and blocks. -/
structure InRange (f : Func) : Prop where
  params : ∀ value ∈ f.params, value < Width.w32.bound
  blocks : ∀ block ∈ f.blocks, block.InRange
  nextValue : f.nextValue < Width.w32.bound

theorem restores {f : Func} (inRange : f.InRange) : Restores toJson ofJson? f := by
  intro json same
  obtain ⟨_, members, _ | ⟨writtenName, _ | ⟨writtenParams,
      _ | ⟨writtenBlocks, _ | ⟨writtenNext, ⟨⟩⟩⟩⟩⟩⟩ :=
    exists_of_reorders_record ["name", "params", "blocks", "next_value"]
      [str f.name, arr (f.params.map nat), arr (f.blocks.map Block.toJson), nat f.nextValue] same rfl
      (by decide)
  have params := Restores.list (fun value isParam => restores_u32 (inRange.params value isParam)) _
    writtenParams
  have blocks := Restores.list (fun block isBlock => Block.restores (inRange.blocks block isBlock)) _
    writtenBlocks
  simp [ofJson?, members, required?, default?, restores_str _ _ writtenName, params, blocks,
    restores_u32 inRange.nextValue _ writtenNext]

theorem yields : Yields ofJson? InRange := by
  intro json f found
  unfold ofJson? at found
  obtain ⟨_, _, found⟩ := Option.bind_eq_some_iff.mp found
  split at found
  · simp only [Option.bind_eq_bind, Option.bind_eq_some_iff, Option.some.injEq] at found
    obtain ⟨name, _, params, areParams, blocks, areBlocks, next, isNext, rfl⟩ := found
    exact ⟨yields_u32.list.default (List.forall_mem_nil _) areParams,
      Block.yields.list.required areBlocks, yields_u32.default (by decide) isNext⟩
  · cases found

end Func

end Lowering.Ssa
