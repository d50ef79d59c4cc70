import Lowering.Proofs.Allocation.SpillCode
import Lowering.Proofs.Machine.Execution

/-!
# Spill code runs like the code it relieves

A spilled register has a slot of its own behind the frame.  Between two instructions the slot holds
the word of the register, and the registers handed out for spill code hold nothing of interest.
-/

namespace Lowering

namespace Machine

/-- An instruction refers to plain registers and to slots of the frame only. -/
structure Instr.Fits (bound slots : Nat) (instr : Instr) : Prop where
  uses : ∀ reg ∈ instr.operandUses, reg.Plain bound
  definition : ∀ reg, instr.operandDef? = some reg → reg.Plain bound
  slot : ∀ slot, instr.slot? = some slot → slot < slots

instance (bound slots : Nat) (instr : Instr) : Decidable (instr.Fits bound slots) :=
  decidable_of_iff ((∀ reg ∈ instr.operandUses, reg.Plain bound) ∧
    (∀ reg ∈ instr.operandDef?, reg.Plain bound) ∧ ∀ slot ∈ instr.slot?, slot < slots)
    ⟨fun ⟨uses, definition, slot⟩ => ⟨uses, definition, slot⟩,
      fun ⟨uses, definition, slot⟩ => ⟨uses, definition, slot⟩⟩

variable {bound slots : Nat} {f : Func} {slotOf after : RegMap Nat} {spilled : List Reg}

theorem Instr.Fits.mono {larger more : Nat} {instr : Instr} (fits : instr.Fits bound slots)
    (le : bound ≤ larger) (leSlots : slots ≤ more) :
    instr.Fits larger more where
  uses reg used := (fits.uses reg used).mono le
  definition reg defined := (fits.definition reg defined).mono le
  slot slot isSlot := Nat.lt_of_lt_of_le (fits.slot slot isSlot) leSlots

structure Block.Fits (bound slots : Nat) (block : Block) : Prop where
  instrs : ∀ instr ∈ block.instrs, instr.Fits bound slots
  term : ∀ reg ∈ block.term.operandUses, reg.Plain bound

theorem Block.Fits.mono {larger : Nat} {block : Block} (fits : block.Fits bound slots)
    (le : bound ≤ larger) : block.Fits larger slots :=
  ⟨fun instr member => (fits.instrs instr member).mono le (Nat.le_refl _),
    fun reg used => (fits.term reg used).mono le⟩

instance (bound slots : Nat) (block : Block) : Decidable (block.Fits bound slots) :=
  decidable_of_iff ((∀ instr ∈ block.instrs, instr.Fits bound slots) ∧
    ∀ reg ∈ block.term.operandUses, reg.Plain bound)
    ⟨fun ⟨instrs, term⟩ => ⟨instrs, term⟩, fun ⟨instrs, term⟩ => ⟨instrs, term⟩⟩

/-- A function's code refers to registers below its counter and slots of its frame only. -/
def Func.Fits (f : Func) : Prop := ∀ block ∈ f.blocks, block.Fits f.nextVirtual f.slots

instance (f : Func) : Decidable f.Fits :=
  inferInstanceAs (Decidable (∀ block ∈ f.blocks, block.Fits f.nextVirtual f.slots))

/-- Spilled registers have slots of their own between two bounds. -/
structure SlotMap (lower upper : Nat) (slotOf : RegMap Nat) : Prop where
  inside : ∀ (reg : Reg) (slot : Nat), slotOf[reg]? = some slot → lower ≤ slot ∧ slot < upper
  own : ∀ (a b : Reg) (slot : Nat), slotOf[a]? = some slot → slotOf[b]? = some slot → a = b
  virtual : ∀ (reg : Reg) (slot : Nat), slotOf[reg]? = some slot → reg.isPhysical = false

namespace SlotMap

variable {lower upper : Nat} {slotOf : RegMap Nat}

theorem empty (bound : Nat) : SlotMap bound bound ∅ where
  inside reg slot found := by cases found
  own a b slot found := by cases found
  virtual reg slot found := by cases found

theorem getElem?_insert {reg other : Reg} {slot : Nat} :
    (slotOf.insert reg slot)[other]? = if other = reg then some slot else slotOf[other]? := by
  rw [Std.TreeMap.getElem?_insert]
  by_cases same : other = reg
  · rw [if_pos (Reg.order_eq_iff.mpr same.symm), if_pos same]
  · rw [if_neg fun equal => same (Reg.order_eq_iff.mp equal).symm, if_neg same]

/-- The next slot may be given to any register that is not physical. -/
theorem insert (slotMap : SlotMap lower upper slotOf) (le : lower ≤ upper) {reg : Reg}
    (notPhysical : reg.isPhysical = false) :
    SlotMap lower (upper + 1) (slotOf.insert reg upper) where
  inside other slot found := by
    rw [getElem?_insert] at found
    split at found
    · cases found
      omega
    · have inside := slotMap.inside other slot found
      omega
  own a b slot foundA foundB := by
    rw [getElem?_insert] at foundA foundB
    split at foundA
    · next isA =>
        cases foundA
        split at foundB
        · next isB => rw [isA, isB]
        · have inside := slotMap.inside b upper foundB
          omega
    · split at foundB
      · cases foundB
        have inside := slotMap.inside a upper foundA
        omega
      · exact slotMap.own a b slot foundA foundB
  virtual other slot found := by
    rw [getElem?_insert] at found
    split at found
    · next same => rw [same, notPhysical]
    · exact slotMap.virtual other slot found

end SlotMap

theorem Func.assignSlots_cons {g : Func} {reg : Reg} {rest : List Reg}
    (notPhysical : reg.isPhysical = false)
    (ok : (f.assignSlots slotOf (reg :: rest)).result = .ok (g, after)) :
    (Func.assignSlots { f with slots := f.slots + 1 } (slotOf.insert reg f.slots) rest).result =
      .ok (g, after) := by
  cases reg with
  | physical phys => cases notPhysical
  | _ =>
      obtain ⟨⟨grown, slot⟩, isGrown, ok⟩ := Pass.result_bind_eq_ok.mp ok
      obtain ⟨_, _, ok⟩ := Pass.result_bind_eq_ok.mp ok
      obtain ⟨slots, isSlots, isGrown⟩ := bind_eq_ok.mp isGrown
      cases isGrown
      obtain ⟨rfl, _⟩ := Width.add_eq_ok_iff.mp isSlots
      exact ok

/-- Every register of a list gets a slot, also one that is listed twice, and nothing else changes. -/
theorem Func.grown_of_assignSlots {grown : Func}
    (ok : (f.assignSlots slotOf spilled).result = .ok (grown, after)) :
    grown = { f with slots := f.slots + spilled.length } := by
  induction spilled generalizing f slotOf with
  | nil =>
      cases ok
      rfl
  | cons reg rest ih =>
      cases kind : reg.isPhysical with
      | true =>
          cases reg <;> cases kind
          cases ok
      | false =>
          rw [ih (Func.assignSlots_cons kind ok), List.length_cons, Nat.add_comm rest.length,
            ← Nat.add_assoc]

theorem Func.slots_assignSlots (f : Func) {grown : Func}
    (ok : (f.assignSlots slotOf spilled).result = .ok (grown, after)) :
    grown.slots = f.slots + spilled.length := by
  rw [Func.grown_of_assignSlots ok]

theorem Func.slotMap_assignSlots {lower : Nat} {g : Func} (slotMap : SlotMap lower f.slots slotOf)
    (le : lower ≤ f.slots) (ok : (f.assignSlots slotOf spilled).result = .ok (g, after)) :
    SlotMap lower g.slots after := by
  induction spilled generalizing f slotOf with
  | nil =>
      cases ok
      exact slotMap
  | cons reg rest ih =>
      cases kind : reg.isPhysical with
      | true =>
          cases reg <;> cases kind
          cases ok
      | false =>
          exact ih (slotMap.insert le kind) (Nat.le_succ_of_le le) (Func.assignSlots_cons kind ok)

theorem Func.assignSlots_eq_ok {lower : Nat} {g : Func} (slotMap : SlotMap lower f.slots slotOf)
    (le : lower ≤ f.slots) (ok : (f.assignSlots slotOf spilled).result = .ok (g, after)) :
    SlotMap lower g.slots after ∧ f.slots ≤ g.slots ∧ g.blocks = f.blocks ∧
      g.nextVirtual = f.nextVirtual := by
  have slotMapAfter := Func.slotMap_assignSlots slotMap le ok
  obtain rfl := Func.grown_of_assignSlots ok
  exact ⟨slotMapAfter, Nat.le_add_right _ _, rfl, rfl⟩

/-- The state `t` holds spilled registers of `s` in their slots and the other ones, below a bound, in
themselves. -/
structure Spills (slotOf : RegMap Nat) (bound slots : Nat) (s t : State) : Prop where
  held : ∀ reg : Reg, slotOf[reg]? = none → reg.Plain bound →
    ∀ word, s.read reg = some word → t.read reg = some word
  stored : ∀ (reg : Reg) (slot : Nat), slotOf[reg]? = some slot →
    ∀ word, s.read reg = some word → t.slots slot = word
  slots : ∀ slot < slots, t.slots slot = s.slots slot
  memory : t.memory = s.memory
  trace : t.trace = s.trace

namespace Spills

variable {slotOf : RegMap Nat} {bound slots upper : Nat} {s t : State}

variable (spills : Spills slotOf bound slots s t)
include spills

/-- Registers handed out for spill code may change. -/
theorem of_same_below {next : State}
    (same : ∀ reg : Reg, reg.Plain bound → next.read reg = t.read reg)
    (sameSlots : next.slots = t.slots) (sameMemory : next.memory = t.memory)
    (sameTrace : next.trace = t.trace) : Spills slotOf bound slots s next where
  held reg notSpilled plain word holds := by
    rw [same reg plain]
    exact spills.held reg notSpilled plain word holds
  stored := by
    rw [sameSlots]
    exact spills.stored
  slots := by
    rw [sameSlots]
    exact spills.slots
  memory := sameMemory.trans spills.memory
  trace := sameTrace.trans spills.trace

theorem write_temp {temp : Nat} (fresh : bound ≤ temp)
    (word : Word) : Spills slotOf bound slots s (t.write (.virtual temp) word) := by
  apply spills.of_same_below
  · intro reg plain
    apply State.read_write_ne
    rintro rfl
    exact absurd plain (Nat.not_lt.mpr fresh)
  · simp
  · simp
  · simp

theorem write {dest : Reg} (notSpilled : slotOf[dest]? = none) (word : Word) :
    Spills slotOf bound slots (s.write dest word) (t.write dest word) where
  held reg isNone plain value holds := by
    rw [State.read_write] at holds ⊢
    split
    · next written =>
        rw [if_pos written] at holds
        exact holds
    · next kept =>
        rw [if_neg kept] at holds
        exact spills.held reg isNone plain value holds
  stored reg slot found value holds := by
    have different : reg ≠ dest := by
      rintro rfl
      rw [notSpilled] at found
      cases found
    rw [State.read_write_ne _ _ different] at holds
    rw [State.slots_write]
    exact spills.stored reg slot found value holds
  slots := by simpa using spills.slots
  memory := by simpa using spills.memory
  trace := by simpa using spills.trace

theorem write_spilled (slotMap : SlotMap slots upper slotOf) {dest : Reg} {slot : Nat}
    (found : slotOf[dest]? = some slot) (word : Word) :
    Spills slotOf bound slots (s.write dest word) (t.setSlot slot word) where
  held reg isNone plain value holds := by
    have different : reg ≠ dest := by
      rintro rfl
      rw [isNone] at found
      cases found
    rw [State.read_write_ne _ _ different] at holds
    exact spills.held reg isNone plain value holds
  stored reg other isOther value holds := by
    by_cases same : reg = dest
    · subst same
      rw [found] at isOther
      cases isOther
      have notZero : reg ≠ .physical .zero := by
        rintro rfl
        cases slotMap.virtual _ slot found
      rw [State.read_write_self _ _ notZero] at holds
      cases holds
      simp [State.setSlot]
    · rw [State.read_write_ne _ _ same] at holds
      have different : other ≠ slot := by
        rintro rfl
        exact same (slotMap.own reg dest other isOther found)
      simp only [State.setSlot, if_neg different]
      exact spills.stored reg other isOther value holds
  slots other inside := by
    have behind := slotMap.inside dest slot found
    have different : other ≠ slot := by omega
    simp only [State.setSlot, if_neg different, State.slots_write]
    exact spills.slots other inside
  memory := by simpa [State.setSlot] using spills.memory
  trace := by simpa [State.setSlot] using spills.trace

theorem setSlot (slotMap : SlotMap slots upper slotOf) {slot : Nat} (inside : slot < slots)
    (word : Word) :
    Spills slotOf bound slots (s.setSlot slot word) (t.setSlot slot word) where
  held := spills.held
  stored reg other found value holds := by
    have behind := slotMap.inside reg other found
    have different : other ≠ slot := by omega
    simp only [State.setSlot, if_neg different]
    exact spills.stored reg other found value holds
  slots other otherInside := by
    simp only [State.setSlot]
    split
    · rfl
    · exact spills.slots other otherInside
  memory := spills.memory
  trace := spills.trace

theorem setMemory (address word : Word) :
    Spills slotOf bound slots (s.setMemory address word) (t.setMemory address word) where
  held := spills.held
  stored := spills.stored
  slots := spills.slots
  memory := by simp only [State.setMemory, spills.memory]
  trace := by simp only [State.setMemory, spills.trace]

theorem held_physical (slotMap : SlotMap slots upper slotOf) {phys : PhysReg} {word : Word}
    (holds : s.read (.physical phys) = some word) : t.read (.physical phys) = some word := by
  apply spills.held (.physical phys) _ trivial word holds
  cases found : slotOf[Reg.physical phys]? with
  | none => rfl
  | some slot => cases slotMap.virtual _ slot found

theorem call (slotMap : SlotMap slots upper slotOf) (env : Environment) (callee : String)
    (args : List Word) :
    Spills slotOf bound slots (s.call env callee args) (t.call env callee args) where
  held reg isNone plain word holds := by
    rw [State.read_call] at holds ⊢
    cases reg with
    | physical phys =>
        cases saved : phys.isCallerSaved with
        | true =>
            simp only [saved, if_true, spills.memory] at holds ⊢
            exact holds
        | false =>
            simp only [saved, Bool.false_eq_true, if_false] at holds ⊢
            exact spills.held_physical slotMap holds
    | virtual number => exact spills.held _ isNone plain word holds
    | spilled slot => exact spills.held _ isNone plain word holds
  stored reg slot found word holds := by
    rw [State.read_call] at holds
    cases reg with
    | physical phys => cases slotMap.virtual _ slot found
    | virtual number => exact spills.stored _ slot found word holds
    | spilled other => exact spills.stored _ slot found word holds
  slots := spills.slots
  memory := by simp only [State.call, spills.memory]
  trace := by simp only [State.call, spills.trace]

end Spills

/-- Loads put the words of slots into the registers handed out for them. -/
theorem exec_loadsOf (env : Environment) {temps : List (Nat × Nat)} (t : State)
    (own : ∀ a ∈ temps, ∀ b ∈ temps, a.2 = b.2 → a = b) :
    ∃ next, (loadsOf temps).foldlM (Instr.exec env) t = some next ∧
      (∀ pair ∈ temps, next.read (.virtual pair.2) = some (t.slots pair.1)) ∧
      (∀ reg, (∀ pair ∈ temps, reg ≠ .virtual pair.2) → next.read reg = t.read reg) ∧
      next.slots = t.slots ∧ next.memory = t.memory ∧ next.trace = t.trace := by
  induction temps generalizing t with
  | nil => exact ⟨t, rfl, by simp, by simp, rfl, rfl, rfl⟩
  | cons first rest ih =>
      have ownRest : ∀ a ∈ rest, ∀ b ∈ rest, a.2 = b.2 → a = b := by
        intro a memberA b memberB
        exact own a (List.mem_cons_of_mem _ memberA) b (List.mem_cons_of_mem _ memberB)
      obtain ⟨next, ran, loaded, others, sameSlots, sameMemory, sameTrace⟩ :=
        ih (t.write (.virtual first.2) (t.slots first.1)) ownRest
      rw [State.slots_write] at loaded sameSlots
      rw [State.memory_write] at sameMemory
      rw [State.trace_write] at sameTrace
      refine ⟨next, ran, ?_, ?_, sameSlots, sameMemory, sameTrace⟩
      · intro pair member
        rcases List.mem_cons.mp member with rfl | later
        · by_cases again : pair ∈ rest
          · exact loaded pair again
          · rw [others, State.read_write_virtual]
            intro other memberOther same
            cases own pair List.mem_cons_self other (List.mem_cons_of_mem _ memberOther)
              (Reg.virtual.inj same)
            exact again memberOther
        · exact loaded pair later
      · intro reg apart
        rw [others reg fun pair member => apart pair (List.mem_cons_of_mem _ member),
          State.read_write_ne _ _ (apart first List.mem_cons_self)]

namespace Spills

variable {slotOf : RegMap Nat} {bound slots upper : Nat} {env : Environment} {s t : State}

theorem exec_loads (env : Environment) (spills : Spills slotOf bound slots s t) {operands : List Reg}
    (plain : ∀ reg ∈ operands, reg.Plain bound) {next last : Nat} (le : bound ≤ next)
    {loaded : List (Nat × Nat)}
    (ok : assignTemps next (spilledSlots (operands.map (markSpilled slotOf))) =
      .ok (loaded, last)) :
    ∃ middle, (loadsOf (sortTemps loaded)).foldlM (Instr.exec env) t = some middle ∧
      Spills slotOf bound slots s middle ∧
      ∀ reg ∈ operands, ∀ word, s.read reg = some word →
        middle.read (replaceSpilled loaded (markSpilled slotOf reg)) = some word := by
  have handed := assignTemps_eq_ok ok
  have distinct : (loaded.map Prod.fst).Nodup := handed.slots ▸ nodup_eraseDups _
  have own : ∀ a ∈ sortTemps loaded, ∀ b ∈ sortTemps loaded, a.2 = b.2 → a = b := by
    intro a memberA b memberB
    exact handed.own a ((mem_sortTemps distinct).mp memberA) b ((mem_sortTemps distinct).mp memberB)
  obtain ⟨middle, ran, available, others, sameSlots, sameMemory, sameTrace⟩ :=
    exec_loadsOf env t own
  have spillsMiddle : Spills slotOf bound slots s middle := by
    apply spills.of_same_below _ sameSlots sameMemory sameTrace
    intro reg isPlain
    apply others
    rintro pair member rfl
    have inside := handed.inside pair ((mem_sortTemps distinct).mp member)
    exact absurd isPlain (Nat.not_lt.mpr (Nat.le_trans le inside.1))
  refine ⟨middle, ran, spillsMiddle, ?_⟩
  intro reg member word holds
  cases found : slotOf[reg]? with
  | none =>
      rw [markSpilled_of_none found, replaceSpilled_of_plain _ (plain reg member)]
      exact spillsMiddle.held reg found (plain reg member) word holds
  | some slot =>
      obtain ⟨temp, isTemp, memberTemp⟩ := handed.lookup (mem_spilledSlots_of_found member found)
      rw [markSpilled_of_some found]
      simp only [replaceSpilled, isTemp]
      rw [available _ ((mem_sortTemps distinct).mpr memberTemp)]
      exact congrArg some (spills.stored reg slot found word holds)

variable {instr : Instr} {next : Nat} {code : SpillCode} {after : State}

/-- The stores of registers handed out for definitions. -/
def storesOf (temps : List (Nat × Nat)) : List Instr :=
  temps.map fun (slot, temp) => .store (.virtual temp) (.slot slot)

/-- An instruction whose spilled operands are available does its work, and stores what it defines
if that is spilled. -/
theorem exec_body (spills : Spills slotOf bound slots s t)
    (slotMap : SlotMap slots upper slotOf) (fits : instr.Fits bound slots) (le : bound ≤ next)
    {use : Reg → Reg} (reads : ∀ reg ∈ instr.operandUses, ∀ word, s.read reg = some word →
      t.read (use reg) = some word)
    {stored : List (Nat × Nat)} {last : Nat}
    (ok : assignTemps next
      ((instr.operandDef?.map (markSpilled slotOf)).bind Reg.slot?).toList = .ok (stored, last))
    (ran : instr.exec env s = some after) :
    ∃ finish, (instr.mapOperands use (replaceSpilled stored ∘ markSpilled slotOf) ::
        storesOf stored).foldlM (Instr.exec env) t = some finish ∧
      Spills slotOf bound slots after finish := by
  cases defines : instr.operandDef? with
  | some dest =>
      obtain ⟨word, isWord, rfl⟩ := Instr.exec_eq_some_of_operandDef defines ran
      have computed (definition : Reg → Reg) :
          (instr.mapOperands use definition).exec env t =
            some (t.write (definition dest) word) := by
        have definesToo : (instr.mapOperands use definition).operandDef? =
            some (definition dest) := by
          rw [Instr.operandDef?_mapOperands, defines, Option.map_some]
        rw [Instr.exec_of_operandDef definesToo, Instr.value_mapOperands reads spills.memory
          (fun slot isSlot => spills.slots slot (fits.slot slot isSlot)) isWord, Option.map_some]
      have plain := fits.definition dest defines
      rw [defines, Option.map_some, Option.bind_some] at ok
      cases found : slotOf[dest]? with
      | none =>
          rw [markSpilled_of_none found, slot?_of_plain plain] at ok
          cases ok
          refine ⟨_, ?_, spills.write found word⟩
          rw [List.foldlM_cons, computed, Function.comp_apply, markSpilled_of_none found,
            replaceSpilled_of_plain _ plain]
          rfl
      | some slot =>
          rw [markSpilled_of_some found] at ok
          obtain ⟨after, isAfter, ok⟩ := bind_eq_ok.mp ok
          cases ok
          refine ⟨_, ?_, (spills.write_temp le word).write_spilled slotMap found word⟩
          rw [List.foldlM_cons, computed, Function.comp_apply, markSpilled_of_some found]
          simp [replaceSpilled, storesOf, Instr.exec, State.store]
  | none =>
      rw [defines] at ok
      cases ok
      simp only [storesOf, List.map_nil, List.foldlM_cons, List.foldlM_nil, bind_pure]
      cases instr with
      | li dest imm => cases defines
      | la dest symbol => cases defines
      | load dest addr => cases defines
      | move dest src => cases defines
      | alu op dest lhs rhs => cases defines
      | aluImm op dest lhs imm => cases defines
      | cmpZero op dest src => cases defines
      | store src addr =>
          obtain ⟨value, isValue, stores⟩ := Instr.exec_store_cases ran
          have readSrc := reads src (by cases addr <;> simp [Instr.operandUses]) value isValue
          rcases stores with ⟨slot, rfl, rfl⟩ | ⟨base, offset, address, rfl, isAddress, rfl⟩
          · exact ⟨_, Instr.exec_store_slot slot readSrc,
              spills.setSlot slotMap (fits.slot slot rfl) value⟩
          · have readBase := reads base (by simp [Instr.operandUses]) address isAddress
            exact ⟨_, Instr.exec_store_based offset readSrc readBase, spills.setMemory _ value⟩
      | call callee argc =>
          simp only [Instr.exec, Option.map_eq_some_iff] at ran
          obtain ⟨args, areArgs, rfl⟩ := ran
          have sameArgs : (Instr.arguments argc).mapM t.read = some args := by
            apply mapM_of_forall areArgs
            intro reg used word holds
            obtain ⟨i, _, rfl⟩ := List.mem_map.mp used
            exact spills.held_physical slotMap holds
          refine ⟨_, ?_, spills.call slotMap env callee args⟩
          simp [Instr.mapOperands, Instr.exec, sameArgs]
      | spGrow => exact ⟨t, rfl, Option.some.inj ran ▸ spills⟩
      | spRecover => exact ⟨t, rfl, Option.some.inj ran ▸ spills⟩

/-- Spill code of a copy copies. -/
theorem exec_spill_move (spills : Spills slotOf bound slots s t)
    (slotMap : SlotMap slots upper slotOf) {dest src : Reg}
    (fits : (Instr.move dest src).Fits bound slots) (le : bound ≤ next)
    (ok : ((Instr.move dest src).mapRegs (markSpilled slotOf)).spill next = .ok code)
    (ran : (Instr.move dest src).exec env s = some after) :
    ∃ finish, code.instrs.foldlM (Instr.exec env) t = some finish ∧
      Spills slotOf bound slots after finish := by
  obtain ⟨word, isWord, rfl⟩ := Instr.exec_eq_some_of_operandDef rfl ran
  have plainSrc := fits.uses src List.mem_cons_self
  cases copySpill_of_ok (fits.definition dest rfl) plainSrc ok with
  | stay foundSrc foundDest =>
      refine ⟨_, ?_, spills.write foundDest word⟩
      simp [Instr.exec, Instr.value, spills.held src foundSrc plainSrc word isWord]
  | save foundSrc foundDest =>
      refine ⟨_, ?_, spills.write_spilled slotMap foundDest word⟩
      simp [Instr.exec, State.store, spills.held src foundSrc plainSrc word isWord]
  | fetch foundSrc foundDest =>
      refine ⟨_, ?_, spills.write foundDest word⟩
      simp [Instr.exec, Instr.value, State.load, spills.stored src _ foundSrc word isWord]
  | drop foundSrc foundDest =>
      -- the same slot belongs to the same register
      cases slotMap.own dest src _ foundDest foundSrc
      exact ⟨t, rfl, (State.write_read isWord).symm ▸ spills⟩
  | pass foundSrc foundDest =>
      refine ⟨_, ?_, (spills.write_temp le word).write_spilled slotMap foundDest word⟩
      simp [Instr.exec, Instr.value, State.load, State.store,
        spills.stored src _ foundSrc word isWord]

end Spills

section Fitting

variable {slotOf : RegMap Nat} {bound slots upper next last : Nat} {temps : List (Nat × Nat)}
  {reg : Reg}

theorem fits_load_slot {slot : Nat} (plain : reg.Plain bound) (inside : slot < slots) :
    (Instr.load reg (.slot slot)).Fits bound slots where
  uses other used := by cases used
  definition other defined := Option.some.inj defined ▸ plain
  slot other isSlot := Option.some.inj isSlot ▸ inside

theorem fits_store_slot {slot : Nat} (plain : reg.Plain bound) (inside : slot < slots) :
    (Instr.store reg (.slot slot)).Fits bound slots where
  uses other used := List.mem_singleton.mp used ▸ plain
  definition other defined := by cases defined
  slot other isSlot := Option.some.inj isSlot ▸ inside

variable {operands : List Reg}

variable (slotMap : SlotMap slots upper slotOf)
include slotMap

theorem fits_loads (plain : ∀ reg ∈ operands, reg.Plain bound)
    (handed : TempsFor next last (spilledSlots (operands.map (markSpilled slotOf))) temps) :
    ∀ instr ∈ loadsOf (sortTemps temps), instr.Fits last upper := by
  intro instr member
  obtain ⟨⟨slot, temp⟩, isPair, rfl⟩ := List.mem_map.mp member
  rw [mem_sortTemps (handed.slots ▸ nodup_eraseDups _)] at isPair
  have listed : slot ∈ spilledSlots (operands.map (markSpilled slotOf)) :=
    handed.slots ▸ List.mem_map_of_mem isPair
  obtain ⟨reg, _, found⟩ := mem_spilledSlots_mark plain listed
  exact fits_load_slot (handed.inside _ isPair).2 (slotMap.inside reg slot found).2

omit slotMap in
theorem plain_replaced (plain : ∀ reg ∈ operands, reg.Plain bound) (le : bound ≤ last)
    (handed : TempsFor next last (spilledSlots (operands.map (markSpilled slotOf))) temps)
    (member : reg ∈ operands) :
    (replaceSpilled temps (markSpilled slotOf reg)).Plain last := by
  cases found : slotOf[reg]? with
  | none =>
      rw [markSpilled_of_none found, replaceSpilled_of_plain _ (plain reg member)]
      exact (plain reg member).mono le
  | some slot =>
      obtain ⟨temp, isTemp, memberTemp⟩ := handed.lookup (mem_spilledSlots_of_found member found)
      rw [markSpilled_of_some found]
      simp only [replaceSpilled, isTemp]
      exact (handed.inside _ memberTemp).2

variable {instr : Instr} {code : SpillCode}

theorem fits_spillPlain (leSlots : slots ≤ upper) (fits : instr.Fits bound slots)
    (le : bound ≤ next)
    (ok : (instr.mapRegs (markSpilled slotOf)).spillPlain next = .ok code) :
    ∀ instr ∈ code.instrs, instr.Fits code.next upper := by
  obtain ⟨⟨loaded, middle⟩, isLoaded, ok⟩ := bind_eq_ok.mp ok
  obtain ⟨⟨stored, last⟩, isStored, ok⟩ := bind_eq_ok.mp ok
  cases ok
  rw [Instr.mapRegs, Instr.operandUses_mapOperands] at isLoaded
  rw [Instr.mapRegs, Instr.operandDef?_mapOperands, slots_of_definition] at isStored
  have plainDefinition : ∀ reg ∈ instr.operandDef?.toList, reg.Plain bound := by
    intro reg member
    exact fits.definition reg (by simpa using member)
  have handed := assignTemps_eq_ok isLoaded
  have handedStored := assignTemps_eq_ok isStored
  have leMiddle : bound ≤ middle := Nat.le_trans le handed.le
  intro part member
  rcases List.mem_append.mp member with isLoad | member
  · exact (fits_loads slotMap fits.uses handed part isLoad).mono handedStored.le (Nat.le_refl _)
  · rcases List.mem_cons.mp member with rfl | isStore
    · rw [Instr.mapRegs, Instr.mapOperands_mapOperands]
      refine ⟨fun reg used => ?_, fun reg defined => ?_, fun slot isSlot => ?_⟩
      · rw [Instr.operandUses_mapOperands] at used
        obtain ⟨operand, isOperand, rfl⟩ := List.mem_map.mp used
        exact (plain_replaced fits.uses leMiddle handed isOperand).mono handedStored.le
      · rw [Instr.operandDef?_mapOperands, Option.map_eq_some_iff] at defined
        obtain ⟨operand, isOperand, rfl⟩ := defined
        exact plain_replaced plainDefinition (Nat.le_trans leMiddle handedStored.le) handedStored
          (by simpa using isOperand)
      · rw [Instr.slot?_mapOperands] at isSlot
        exact Nat.lt_of_lt_of_le (fits.slot slot isSlot) leSlots
    · obtain ⟨⟨slot, temp⟩, isPair, rfl⟩ := List.mem_map.mp isStore
      have listed : slot ∈ spilledSlots (instr.operandDef?.toList.map (markSpilled slotOf)) :=
        handedStored.slots ▸ List.mem_map_of_mem isPair
      obtain ⟨reg, _, found⟩ := mem_spilledSlots_mark plainDefinition listed
      exact fits_store_slot (handedStored.inside _ isPair).2 (slotMap.inside reg slot found).2

/-- Spill code of a copy fits in the larger frame and touches slots behind the smaller one only. -/
theorem fits_spill_move (leSlots : slots ≤ upper) {dest src : Reg}
    (fits : (Instr.move dest src).Fits bound slots) (le : bound ≤ next)
    (ok : ((Instr.move dest src).mapRegs (markSpilled slotOf)).spill next = .ok code) :
    ∀ part ∈ code.instrs, part.Fits code.next upper ∧
      ∀ slot, part.slot? = some slot → slots ≤ slot := by
  have plainDest := fits.definition dest rfl
  have plainSrc := fits.uses src List.mem_cons_self
  have fresh : (Reg.virtual next).Plain (next + 1) := Nat.lt_succ_self next
  intro part member
  cases copySpill_of_ok plainDest plainSrc ok with
  | stay foundSrc foundDest =>
      cases List.mem_singleton.mp member
      exact ⟨fits.mono le leSlots, nofun⟩
  | save foundSrc foundDest =>
      cases List.mem_singleton.mp member
      have inside := slotMap.inside dest _ foundDest
      exact ⟨fits_store_slot (plainSrc.mono le) inside.2, fun _ same => by cases same; exact inside.1⟩
  | fetch foundSrc foundDest =>
      cases List.mem_singleton.mp member
      have inside := slotMap.inside src _ foundSrc
      exact ⟨fits_load_slot (plainDest.mono le) inside.2, fun _ same => by cases same; exact inside.1⟩
  | drop foundSrc foundDest => cases member
  | pass foundSrc foundDest =>
      rcases List.mem_cons.mp member with rfl | member
      · have inside := slotMap.inside src _ foundSrc
        exact ⟨fits_load_slot fresh inside.2, fun _ same => by cases same; exact inside.1⟩
      · cases List.mem_singleton.mp member
        have inside := slotMap.inside dest _ foundDest
        exact ⟨fits_store_slot fresh inside.2, fun _ same => by cases same; exact inside.1⟩

/-- Spill code fits in the larger frame. -/
theorem fits_spill (leSlots : slots ≤ upper) (fits : instr.Fits bound slots) (le : bound ≤ next)
    (ok : (instr.mapRegs (markSpilled slotOf)).spill next = .ok code) :
    ∀ instr ∈ code.instrs, instr.Fits code.next upper := by
  cases instr with
  | move dest src =>
      exact fun part member => (fits_spill_move slotMap leSlots fits le ok part member).1
  | _ => exact fits_spillPlain slotMap leSlots fits le ok

end Fitting

section Blocks

variable {slotOf : RegMap Nat} {bound slots upper next last : Nat} {block relieved : Block}
  {fresh : List Reg}

theorem fits_spillInstrs (slotMap : SlotMap slots upper slotOf) (leSlots : slots ≤ upper)
    {instrs : List Instr} (fits : ∀ instr ∈ instrs, instr.Fits bound slots) (le : bound ≤ next)
    {code : SpillCode}
    (ok : spillInstrs next (instrs.map (Instr.mapRegs (markSpilled slotOf))) = .ok code) :
    ∀ instr ∈ code.instrs, instr.Fits code.next upper := by
  obtain ⟨pieces, same, related⟩ := spillInstrs_pieces ok
  intro part member
  rw [same] at member
  obtain ⟨piece, isPiece, isPart⟩ := List.mem_flatten.mp member
  obtain ⟨instr, isInstr, start, out, leStart, isOut, leOut, rfl⟩ :=
    exists_of_forall₂_right (List.forall₂_map_left_iff.mp related) isPiece
  have fitsPart := fits_spill slotMap leSlots (fits instr isInstr) (le.trans leStart) isOut part isPart
  exact fitsPart.mono leOut (Nat.le_refl _)

theorem Terminator.operandUses_mapRegs {term : Terminator} {use : Reg → Reg} :
    (term.mapRegs use).operandUses = term.operandUses.map use := by
  cases term <;> rfl

theorem Terminator.mapRegs_mapRegs {term : Terminator} {use other : Reg → Reg} :
    (term.mapRegs use).mapRegs other = term.mapRegs (other ∘ use) := by
  cases term <;> rfl

theorem Block.fits_spill (slotMap : SlotMap slots upper slotOf) (leSlots : slots ≤ upper)
    (fits : block.Fits bound slots) (le : bound ≤ next)
    (ok : (block.mapRegs (markSpilled slotOf)).spill next = .ok (relieved, fresh, last)) :
    relieved.Fits last upper := by
  obtain ⟨code, isCode, ok⟩ := bind_eq_ok.mp ok
  obtain ⟨⟨loaded, _⟩, isLoaded, ok⟩ := bind_eq_ok.mp ok
  cases ok
  have isLoads : assignTemps code.next
      (spilledSlots (block.term.operandUses.map (markSpilled slotOf))) = .ok (loaded, last) := by
    rw [← Terminator.operandUses_mapRegs]
    exact isLoaded
  have handed := assignTemps_eq_ok isLoads
  have leLast : bound ≤ last := le.trans ((handed_spillInstrs isCode).le.trans handed.le)
  refine ⟨fun part member => ?_, fun reg used => ?_⟩
  · rcases List.mem_append.mp member with isPart | isLoad
    · exact (fits_spillInstrs slotMap leSlots fits.instrs le isCode part isPart).mono handed.le
        (Nat.le_refl _)
    · exact fits_loads slotMap fits.term handed part isLoad
  · change reg ∈ ((block.term.mapRegs _).mapRegs _).operandUses at used
    rw [Terminator.mapRegs_mapRegs, Terminator.operandUses_mapRegs] at used
    obtain ⟨operand, isOperand, rfl⟩ := List.mem_map.mp used
    exact plain_replaced fits.term leLast handed isOperand

theorem fits_spillBlocks (slotMap : SlotMap slots upper slotOf) (leSlots : slots ≤ upper)
    {blocks out : List Block} (fits : ∀ block ∈ blocks, block.Fits bound slots) (le : bound ≤ next)
    (ok : spillBlocks next (blocks.map (Block.mapRegs (markSpilled slotOf))) =
      .ok (out, fresh, last)) : ∀ block ∈ out, block.Fits last upper := by
  intro other member
  obtain ⟨block, isBlock, start, handed, finish, leStart, isOther, leFinish⟩ :=
    exists_of_forall₂_right (List.forall₂_map_left_iff.mp (spillBlocks_pieces ok)) member
  have fitsOther := Block.fits_spill slotMap leSlots (fits block isBlock) (le.trans leStart) isOther
  exact fitsOther.mono leFinish

end Blocks

/-- A state in which nothing spilled is written yet needs no change. -/
theorem Spills.refl_of_unwritten {s : State}
    (unwritten : ∀ (reg : Reg) (slot : Nat), slotOf[reg]? = some slot → s.read reg = none) :
    Spills slotOf bound slots s s where
  held _ _ _ _ holds := holds
  stored reg slot found word holds := by
    rw [unwritten reg slot found] at holds
    cases holds
  slots _ _ := rfl
  memory := rfl
  trace := rfl

/-- Spilling gives out slots behind the frame, marks the registers in the code by them and relieves it. -/
theorem Func.spill_eq_ok {relieved : Func} {fresh : List Reg}
    (ok : (f.spill spilled).result = .ok (relieved, fresh)) :
    ∃ grown slotOf blocks nextVirtual, (f.assignSlots ∅ spilled).result = .ok (grown, slotOf) ∧
      SlotMap f.slots grown.slots slotOf ∧ f.slots ≤ grown.slots ∧
      spillBlocks f.nextVirtual (f.blocks.map (Block.mapRegs (markSpilled slotOf))) =
        .ok (blocks, fresh, nextVirtual) ∧
      relieved = { grown with blocks, nextVirtual } := by
  obtain ⟨⟨grown, slotOf⟩, isGrown, ok⟩ := Pass.result_bind_eq_ok.mp ok
  obtain ⟨⟨blocks, freshRegs, nextVirtual⟩, areBlocks, ok⟩ := Pass.result_bind_eq_ok.mp ok
  cases ok
  obtain ⟨slotMap, grows, sameBlocks, sameNext⟩ :=
    Func.assignSlots_eq_ok (SlotMap.empty f.slots) (Nat.le_refl _) isGrown
  refine ⟨grown, slotOf, blocks, nextVirtual, isGrown, slotMap, grows, ?_, rfl⟩
  rw [← sameBlocks, ← sameNext]
  exact areBlocks

end Machine

end Lowering
