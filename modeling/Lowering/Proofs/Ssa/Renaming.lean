import Lowering.Proofs.Dominance.Tours
import Lowering.Proofs.Ssa.Incoming
import Lowering.Ssa.Promotion.Renaming
import Mathlib.Logic.Function.Basic

/-!
# What a renaming tour finds

The value of a slot at a place is determined by the blocks that dominate the place: the last store or
placed phi for the slot on the way down the dominator tree.  While a tour is inside a block, the stacks
hold these values, one layer for each open block.  So at the end every removed load stands for the value
at its place, and every placed phi selects the values at the ends of the predecessors.
-/

namespace Lowering.Ssa.Renaming

variable {n k : Nat}

/-- What a placed phi selects from a block so far. -/
def selects (state : Renaming n k) (dest pred : Nat) : Option Operand :=
  (state.incoming.get? dest).bind fun incoming => incoming.get? pred

/-- What a tour renames: accesses to slots, in the instructions of each block under its placed phis. -/
structure Plan (n k : Nat) where
  slotOf : Operand → Option (Fin k)
  placed : List (PlacedPhi n k)
  insts : Fin n → List Inst

namespace Plan

/-- The values of the slots behind an instruction. -/
def settle (plan : Plan n k) (values : Fin k → Operand) : Inst → Fin k → Operand
  | .store value addr =>
      match plan.slotOf addr with
      | some slot => Function.update values slot value
      | none => values
  | _ => values

/-- The values of the slots behind the placed phis of a block. -/
def head (plan : Plan n k) (block : Fin n) (values : Fin k → Operand) : Fin k → Operand :=
  (plan.placed.filter fun phi => phi.block == block).foldl
    (fun values phi => Function.update values phi.slot (.value phi.dest)) values

/-- The values of the slots at the end of a block, from the chain of its dominators. -/
def reaching (plan : Plan n k) : List (Fin n) → Fin k → Operand
  | [] => fun _ => .undef
  | block :: above => (plan.insts block).foldl plan.settle (plan.head block (plan.reaching above))

/-- Does renaming remove the instruction? -/
def removes (plan : Plan n k) : Inst → Bool
  | .alloca dest => (plan.slotOf (.value dest)).isSome
  | .load _ addr | .store _ addr => (plan.slotOf addr).isSome
  | _ => false

/-- The result of a removed load, with what it stands for. -/
def alias? (plan : Plan n k) (values : Fin k → Operand) : Inst → Option (Nat × Operand)
  | .load dest addr => (plan.slotOf addr).map fun slot => (dest, values slot)
  | _ => none

/-- The stacks of the slots while the blocks of a chain are open: a layer for each open block, with the
value at its end on top. -/
def Stacked (plan : Plan n k) :
    List (Fin n) → List (List (Fin k)) → (Fin k → List Operand) → Prop
  | [], [], names => ∀ slot, names slot = [.undef]
  | block :: chain, frame :: outer, names =>
      (∀ slot, (names slot).head? = some (plan.reaching (block :: chain) slot)) ∧
        plan.Stacked chain outer fun slot => (names slot).drop (frame.count slot)
  | _, _, _ => False

/-- The stacks inside of a block where the slots have the given values. -/
def Opened (plan : Plan n k) (chain : List (Fin n)) (values : Fin k → Operand)
    (state : Renaming n k) : Prop :=
  ∃ frame outer, state.pushed = frame :: outer ∧
    (∀ slot, (state.names.get slot).head? = some (values slot)) ∧
    plan.Stacked chain outer fun slot => (state.names.get slot).drop (frame.count slot)

variable {plan : Plan n k} {chain : List (Fin n)} {values : Fin k → Operand} {state : Renaming n k}
  {block : Fin n} {inst : Inst} {pushed : List (List (Fin k))} {names : Fin k → List Operand}
  {v : Nat}

/-! ## Values -/

/-- An instruction changes the value of a slot only by storing to it. -/
theorem settle_cases (plan : Plan n k) (values : Fin k → Operand) (inst : Inst) (slot : Fin k) :
    plan.settle values inst slot = values slot ∨ ∃ value addr, inst = .store value addr ∧
      plan.slotOf addr = some slot ∧ plan.settle values inst slot = value := by
  cases inst with
  | store value addr =>
      cases found : plan.slotOf addr with
      | none =>
          simp only [settle, found]
          exact .inl trivial
      | some target =>
          simp only [settle, found]
          by_cases here : slot = target
          · subst here
            exact .inr ⟨value, addr, rfl, found, Function.update_self _ _ _⟩
          · exact .inl (Function.update_of_ne here _ _)
  | alloca _ | load _ _ | binary _ _ _ _ | cmp _ _ _ _ | call _ _ _ => exact .inl rfl

theorem settle_store {value addr : Operand} {slot : Fin k} (found : plan.slotOf addr = some slot) :
    plan.settle values (.store value addr) = Function.update values slot value := by
  simp only [settle, found]

theorem settle_kept (kept : plan.removes inst = false) :
    plan.settle values inst = values := by
  funext slot
  rcases plan.settle_cases values inst slot with same | ⟨value, addr, rfl, found, _⟩
  · exact same
  · rw [removes, found] at kept
    cases kept

/-- The head of a block changes the value of a slot where a phi is placed, and only there. -/
theorem head_cases (plan : Plan n k) (block : Fin n) (values : Fin k → Operand)
    (slot : Fin k) :
    (∀ phi ∈ plan.placed, phi.block = block → phi.slot ≠ slot) ∧
        plan.head block values slot = values slot ∨
      ∃ phi ∈ plan.placed, phi.block = block ∧ phi.slot = slot ∧
        plan.head block values slot = .value phi.dest := by
  have cases_of (phis : List (PlacedPhi n k)) (values : Fin k → Operand) :
      (∀ phi ∈ phis, phi.slot ≠ slot) ∧
          phis.foldl (fun values phi => Function.update values phi.slot (.value phi.dest)) values
            slot = values slot ∨
        ∃ phi ∈ phis, phi.slot = slot ∧
          phis.foldl (fun values phi => Function.update values phi.slot (.value phi.dest)) values
            slot = .value phi.dest := by
    induction phis generalizing values with
    | nil => exact .inl ⟨fun phi member => absurd member List.not_mem_nil, rfl⟩
    | cons first rest ih =>
        rw [List.foldl_cons]
        rcases ih (Function.update values first.slot (.value first.dest)) with
          ⟨none, same⟩ | ⟨phi, member, isSlot, same⟩
        · rw [same]
          by_cases here : slot = first.slot
          · subst here
            exact .inr ⟨first, List.mem_cons_self, rfl, Function.update_self _ _ _⟩
          · refine .inl ⟨List.forall_mem_cons.mpr ⟨Ne.symm here, none⟩, ?_⟩
            exact Function.update_of_ne here _ _
        · exact .inr ⟨phi, List.mem_cons_of_mem _ member, isSlot, same⟩
  rcases cases_of (plan.placed.filter fun phi => phi.block == block) values with
    ⟨none, same⟩ | ⟨phi, member, isSlot, same⟩
  · refine .inl ⟨fun phi member isBlock => none phi ?_, same⟩
    exact List.mem_filter.mpr ⟨member, beq_iff_eq.mpr isBlock⟩
  · obtain ⟨listed, isBlock⟩ := List.mem_filter.mp member
    exact .inr ⟨phi, listed, beq_iff_eq.mp isBlock, isSlot, same⟩

/-! ## Stacks -/

theorem Stacked.restored (stacked : plan.Stacked [] pushed names)
    (slot : Fin k) : names slot = [.undef] := by
  cases pushed with
  | nil => exact stacked slot
  | cons frame outer => exact stacked.elim

theorem Stacked.head? (stacked : plan.Stacked chain pushed names) (slot : Fin k) :
    (names slot).head? = some (plan.reaching chain slot) := by
  cases chain with
  | nil =>
      rw [stacked.restored slot]
      rfl
  | cons block chain =>
      cases pushed with
      | nil => exact stacked.elim
      | cons frame outer => exact stacked.1 slot

theorem Stacked.getLast? (stacked : plan.Stacked chain pushed names) (slot : Fin k) :
    (names slot).getLast? = some .undef := by
  induction chain generalizing pushed names with
  | nil =>
      rw [stacked.restored slot]
      rfl
  | cons block chain ih =>
      cases pushed with
      | nil => exact stacked.elim
      | cons frame outer =>
          have under := ih stacked.2
          rw [List.getLast?_drop] at under
          split at under
          · cases under
          · exact under

theorem Opened.start (stacked : plan.Stacked chain state.pushed state.names.get) :
    plan.Opened chain (plan.reaching chain) { state with pushed := [] :: state.pushed } :=
  ⟨[], state.pushed, rfl, stacked.head?, stacked⟩

theorem Opened.finish (opened : plan.Opened chain (plan.reaching (block :: chain)) state) :
    plan.Stacked (block :: chain) state.pushed state.names.get := by
  obtain ⟨frame, outer, isPushed, tops, stacked⟩ := opened
  rw [isPushed]
  exact ⟨tops, stacked⟩

theorem Opened.top (opened : plan.Opened chain values state) (slot : Fin k) :
    state.top slot = .ok (values slot) := by
  obtain ⟨frame, outer, _, tops, _⟩ := opened
  have isTop := tops slot
  unfold Renaming.top
  cases names : state.names.get slot with
  | nil =>
      rw [names] at isTop
      cases isTop
  | cons operand rest =>
      rw [names] at isTop
      exact congrArg Except.ok (Option.some.inj isTop)

theorem Opened.push (opened : plan.Opened chain values state) (slot : Fin k) (operand : Operand) :
    plan.Opened chain (Function.update values slot operand) (state.push slot operand) := by
  obtain ⟨frame, outer, isPushed, tops, stacked⟩ := opened
  have names (other : Fin k) : (state.push slot operand).names.get other =
      if slot = other then operand :: state.names.get other else state.names.get other := by
    unfold Renaming.push Table.modify
    rw [Table.get_set]
    split
    · next same => rw [same]
    · rfl
  refine ⟨slot :: frame, outer, ?_, ?_, ?_⟩
  · unfold Renaming.push
    rw [isPushed]
  · intro other
    rw [names]
    by_cases same : slot = other
    · rw [if_pos same, ← same, Function.update_self]
      rfl
    · rw [if_neg same, Function.update_of_ne (Ne.symm same), tops]
  · convert stacked using 2 with other
    rw [names, List.count_cons]
    by_cases same : slot = other
    · rw [if_pos same, if_pos (beq_iff_eq.mpr same)]
      rfl
    · rw [if_neg same, if_neg fun equal => same (beq_iff_eq.mp equal)]
      rfl

theorem Opened.pushPhis (opened : plan.Opened chain values state) (phis : List (PlacedPhi n k)) :
    plan.Opened chain
        (phis.foldl (fun values phi => Function.update values phi.slot (.value phi.dest)) values)
        (phis.foldl (fun state phi => state.push phi.slot (.value phi.dest)) state) := by
  induction phis generalizing values state with
  | nil => exact opened
  | cons phi rest ih =>
      exact ih (opened.push phi.slot (.value phi.dest))

theorem foldl_push (phis : List (PlacedPhi n k)) (state : Renaming n k) :
    ∃ names pushed, phis.foldl (fun state phi => state.push phi.slot (.value phi.dest)) state =
      { state with names, pushed } := by
  induction phis generalizing state with
  | nil => exact ⟨state.names, state.pushed, rfl⟩
  | cons phi rest ih =>
      exact ih (state.push phi.slot (.value phi.dest))

theorem get_foldl_tail (frame : List (Fin k)) (names : Table k (List Operand)) (slot : Fin k) :
    (frame.foldl (fun names slot => names.modify slot List.tail) names).get slot =
      (names.get slot).drop (frame.count slot) := by
  induction frame generalizing names with
  | nil => rfl
  | cons first rest ih =>
      rw [List.foldl_cons, ih, List.count_cons]
      unfold Table.modify
      rw [Table.get_set]
      by_cases same : first = slot
      · rw [if_pos same, if_pos (beq_iff_eq.mpr same), same, List.drop_tail]
      · rw [if_neg same, if_neg fun equal => same (beq_iff_eq.mp equal)]
        rfl

theorem Stacked.pop (stacked : plan.Stacked (block :: chain) state.pushed state.names.get) :
    plan.Stacked chain state.pop.pushed state.pop.names.get := by
  unfold Renaming.pop
  cases isPushed : state.pushed with
  | nil =>
      rw [isPushed] at stacked
      exact stacked.elim
  | cons frame outer =>
      rw [isPushed] at stacked
      rw [show (_ : Table k (List Operand)).get = _ from funext (get_foldl_tail frame state.names)]
      exact stacked.2

/-! ## Instructions -/

/-- The aliases behind an instruction. -/
def addAlias (plan : Plan n k) (values : Fin k → Operand) (aliases : NumberMap Operand)
    (inst : Inst) : NumberMap Operand :=
  (plan.alias? values inst).elim aliases fun entry => aliases.insert entry.1 entry.2

theorem inst_eq_ok (opened : plan.Opened chain values state) (block : Fin n) (inst : Inst) :
    ∃ next, Renaming.inst plan.slotOf block state inst = .ok next ∧
      plan.Opened chain (plan.settle values inst) next ∧ next.incoming = state.incoming ∧
      next.aliases = plan.addAlias values state.aliases inst ∧
      next.insts = if plan.removes inst then state.insts
        else state.insts.modify block (· ++ [inst]) := by
  cases inst with
  | alloca dest =>
      cases found : plan.slotOf (.value dest) with
      | none =>
          simp only [Renaming.inst, removes, found]
          exact ⟨state.keep block (.alloca dest), rfl, opened, rfl, rfl, rfl⟩
      | some slot =>
          simp only [Renaming.inst, removes, found]
          exact ⟨state, rfl, opened, rfl, rfl, rfl⟩
  | load dest addr =>
      cases found : plan.slotOf addr with
      | none =>
          simp only [Renaming.inst, removes, addAlias, alias?, found]
          exact ⟨state.keep block (.load dest addr), rfl, opened, rfl, rfl, rfl⟩
      | some slot =>
          simp only [Renaming.inst, removes, addAlias, alias?, found, opened.top slot]
          exact ⟨_, rfl, opened, rfl, rfl, rfl⟩
  | store value addr =>
      cases found : plan.slotOf addr with
      | none =>
          simp only [Renaming.inst, removes, settle, found]
          exact ⟨state.keep block (.store value addr), rfl, opened, rfl, rfl, rfl⟩
      | some slot =>
          simp only [Renaming.inst, removes, settle, found]
          exact ⟨_, rfl, opened.push slot value, rfl, rfl, rfl⟩
  | binary op dest lhs rhs => exact ⟨_, rfl, opened, rfl, rfl, rfl⟩
  | cmp op dest lhs rhs => exact ⟨_, rfl, opened, rfl, rfl, rfl⟩
  | call dest callee args => exact ⟨_, rfl, opened, rfl, rfl, rfl⟩

/-- The aliases that a list of instructions makes, from the values of the slots before it. -/
def Makes (plan : Plan n k) (values : Fin k → Operand) (insts : List Inst) (v : Nat)
    (operand : Operand) : Prop :=
  ∃ (i : Nat) (inst : Inst), insts[i]? = some inst ∧
    plan.alias? ((insts.take i).foldl plan.settle values) inst = some (v, operand)

theorem makes_cons {rest : List Inst} {operand : Operand} :
    plan.Makes values (inst :: rest) v operand ↔
      plan.alias? values inst = some (v, operand) ∨
        plan.Makes (plan.settle values inst) rest v operand := by
  constructor
  · rintro ⟨i, other, found, made⟩
    cases i with
    | zero =>
        cases found
        exact .inl made
    | succ i => exact .inr ⟨i, other, found, made⟩
  · rintro (made | ⟨i, other, found, made⟩)
    · exact ⟨0, inst, rfl, made⟩
    · exact ⟨i + 1, other, found, made⟩

theorem get?_addAlias {aliases : NumberMap Operand} {operand : Operand}
    (found : (plan.addAlias values aliases inst).get? v = some operand) :
    plan.alias? values inst = some (v, operand) ∨ aliases.get? v = some operand := by
  unfold addAlias at found
  cases made : plan.alias? values inst with
  | none =>
      rw [made] at found
      exact .inr found
  | some entry =>
      rw [made, Option.elim_some, NumberMap.get?_insert] at found
      split at found
      · next same =>
          obtain rfl := Option.some.inj found
          exact .inl (congrArg some (Prod.ext same.symm rfl))
      · exact .inr found

theorem isSome_addAlias {aliases : NumberMap Operand}
    (known : (∃ operand, plan.alias? values inst = some (v, operand)) ∨
      (aliases.get? v).isSome) : ((plan.addAlias values aliases inst).get? v).isSome := by
  unfold addAlias
  cases made : plan.alias? values inst with
  | none =>
      rcases known with ⟨operand, other⟩ | known
      · rw [made] at other
        cases other
      · exact known
  | some entry =>
      rw [Option.elim_some, NumberMap.get?_insert]
      split
      · rfl
      · next different =>
          rcases known with ⟨operand, other⟩ | known
          · rw [made] at other
            obtain rfl := Option.some.inj other
            exact absurd rfl different
          · exact known

/-- The kept instructions are appended to the block, and the removed loads become aliases. -/
theorem foldlM_inst (opened : plan.Opened chain values state) (block : Fin n)
    (insts : List Inst) :
    ∃ next, insts.foldlM (Renaming.inst plan.slotOf block) state = .ok next ∧
      plan.Opened chain (insts.foldl plan.settle values) next ∧ next.incoming = state.incoming ∧
      (∀ {v operand}, next.aliases.get? v = some operand →
        plan.Makes values insts v operand ∨ state.aliases.get? v = some operand) ∧
      (∀ {v}, (∃ operand, plan.Makes values insts v operand) ∨ (state.aliases.get? v).isSome →
        (next.aliases.get? v).isSome) ∧
      (next.insts.get block = state.insts.get block ++ insts.filter (!plan.removes ·)) ∧
      ∀ other, other ≠ block → next.insts.get other = state.insts.get other := by
  induction insts generalizing values state with
  | nil =>
      refine ⟨state, rfl, opened, rfl, fun found => .inr found, ?_, ?_, fun _ _ => rfl⟩
      · rintro v (⟨operand, i, inst, found, _⟩ | known)
        · cases found
        · exact known
      · rw [List.filter_nil, List.append_nil]
  | cons inst rest ih =>
      obtain ⟨middle, ran, opened, sameIncoming, aliases, insts⟩ := inst_eq_ok opened block inst
      obtain ⟨next, ranRest, opened, sameRest, sound, complete, here, elsewhere⟩ :=
        ih opened
      refine ⟨next, ?_, opened, sameRest.trans sameIncoming, ?_, ?_, ?_, ?_⟩
      · rw [List.foldlM_cons, ran]
        exact ranRest
      · intro v operand found
        rcases sound found with made | found
        · exact .inl (makes_cons.mpr (.inr made))
        · rw [aliases] at found
          exact (get?_addAlias found).imp_left fun made => makes_cons.mpr (.inl made)
      · intro v known
        refine complete ?_
        rw [aliases]
        rcases known with ⟨operand, made⟩ | known
        · rcases makes_cons.mp made with now | later
          · exact .inr (isSome_addAlias (.inl ⟨operand, now⟩))
          · exact .inl ⟨operand, later⟩
        · exact .inr (isSome_addAlias (.inr known))
      · rw [here, insts, List.filter_cons]
        cases plan.removes inst with
        | true => rfl
        | false => simp [Table.modify]
      · intro other different
        rw [elsewhere other different, insts]
        split
        · rfl
        · unfold Table.modify
          rw [Table.get_set_ne _ _ (Ne.symm different)]

/-! ## Placed phis -/

/-- Every phi of a list selects the value of its slot from the block. -/
theorem foldlM_feed (opened : plan.Opened chain values state) (block : Fin n)
    {phis : List (PlacedPhi n k)}
    (recorded : ∀ phi ∈ phis, (state.incoming.get? phi.dest).isSome) :
    ∃ next, phis.foldlM (feed block) state = .ok next ∧
      next = { state with incoming := next.incoming } ∧
      (∀ dest, (state.incoming.get? dest).isSome → (next.incoming.get? dest).isSome) ∧
      ∀ phi, (∀ other ∈ phis, other.dest = phi.dest → other = phi) → ∀ pred,
        next.selects phi.dest pred =
          if pred = block.val ∧ phi ∈ phis then some (values phi.slot)
          else state.selects phi.dest pred := by
  induction phis generalizing state with
  | nil => exact ⟨state, rfl, rfl, fun _ => id, fun phi _ pred => by simp⟩
  | cons first rest ih =>
      obtain ⟨incoming, isIncoming⟩ :=
        Option.isSome_iff_exists.mp (recorded first List.mem_cons_self)
      let middle := { state with
        incoming := state.incoming.insert first.dest
          (incoming.insert block (values first.slot)) }
      have fed : feed block state first = .ok middle := by
        unfold feed
        rw [opened.top first.slot]
        simp only [bind, Except.bind, isIncoming]
        rfl
      have stays (dest : Nat) (known : (state.incoming.get? dest).isSome) :
          (middle.incoming.get? dest).isSome := by
        rw [NumberMap.get?_insert]
        split
        · rfl
        · exact known
      have selects (phi : PlacedPhi n k) (only : first.dest = phi.dest → first = phi) (pred : Nat) :
          middle.selects phi.dest pred =
            if pred = block.val ∧ phi = first then some (values phi.slot)
            else state.selects phi.dest pred := by
        unfold Renaming.selects
        rw [NumberMap.get?_insert]
        by_cases same : phi.dest = first.dest
        · obtain rfl := only same.symm
          rw [if_pos rfl, Option.bind_some, Incoming.get?_insert, isIncoming, Option.bind_some]
          simp only [and_true]
        · rw [if_neg same, if_neg fun both => same (congrArg PlacedPhi.dest both.2)]
      have openedMiddle : plan.Opened chain values middle := opened
      obtain ⟨next, ran, isNext, stay, selected⟩ := ih openedMiddle
        fun phi member => stays phi.dest (recorded phi (List.mem_cons_of_mem _ member))
      refine ⟨next, ?_, isNext, fun dest known => stay dest (stays dest known), ?_⟩
      · rw [List.foldlM_cons, fed]
        exact ran
      · intro phi only pred
        rw [selected phi (fun other member => only other (List.mem_cons_of_mem _ member)),
          selects phi (only first List.mem_cons_self)]
        by_cases here : pred = block.val <;> by_cases now : phi = first <;>
          by_cases later : phi ∈ rest <;> simp [here, now, later]

/-! ## Tours -/

/-- The values of the slots behind the placed phis of a block. -/
def atHead (plan : Plan n k) (tree : DomTree n) (block : Fin n) : Fin k → Operand :=
  plan.head block (plan.reaching (tree.chains.get block).tail)

/-- The values of the slots at the end of a block. -/
def atEnd (plan : Plan n k) (tree : DomTree n) (block : Fin n) : Fin k → Operand :=
  plan.reaching (tree.chains.get block)

/-- A tour that has entered some blocks and has a chain of them open. -/
structure Touring (plan : Plan n k) (tree : DomTree n) (edges : Edges n)
    (entered : Fin n → Prop) (chain : List (Fin n)) (state : Renaming n k) : Prop where
  stacked : plan.Stacked chain state.pushed state.names.get
  waiting : ∀ block, ¬ entered block → state.insts.get block = plan.insts block
  kept : ∀ block, entered block →
    state.insts.get block = (plan.insts block).filter (!plan.removes ·)
  sound : ∀ {v operand}, state.aliases.get? v = some operand →
    ∃ block, entered block ∧ plan.Makes (plan.atHead tree block) (plan.insts block) v operand
  complete : ∀ {block v operand}, entered block →
    plan.Makes (plan.atHead tree block) (plan.insts block) v operand →
    (state.aliases.get? v).isSome
  recorded : ∀ phi ∈ plan.placed, (state.incoming.get? phi.dest).isSome
  fed : ∀ phi ∈ plan.placed, ∀ {pred operand},
    state.selects phi.dest pred = some operand ↔ ∃ block, entered block ∧ pred = block.val ∧
      phi.block ∈ edges.succs.get block ∧ operand = plan.atEnd tree block phi.slot

variable {tree : DomTree n} {edges : Edges n} {entered : Fin n → Prop}

theorem Touring.leave (touring : plan.Touring tree edges entered (block :: chain) state) :
    plan.Touring tree edges entered chain state.pop := by
  have stacked := touring.stacked.pop
  have same : state.pop = { state with pushed := state.pop.pushed, names := state.pop.names } := by
    unfold pop
    split
    · rfl
    · rfl
  rw [same]
  exact { touring with stacked }

/-- A phi that selects what its slot holds at the end of a block where the block leads to it, and what
it selected before elsewhere, is fed from the block as well. -/
theorem Touring.fed_enter (touring : plan.Touring tree edges entered chain state)
    {phi : PlacedPhi n k} (placed : phi ∈ plan.placed) {pred : Nat} {selection : Option Operand}
    (here : pred = block.val ∧ phi.block ∈ edges.succs.get block →
      selection = some (plan.atEnd tree block phi.slot))
    (elsewhere : ¬ (pred = block.val ∧ phi.block ∈ edges.succs.get block) →
      selection = state.selects phi.dest pred) {operand : Operand} :
    selection = some operand ↔ ∃ other, (other = block ∨ entered other) ∧ pred = other.val ∧
      phi.block ∈ edges.succs.get other ∧ operand = plan.atEnd tree other phi.slot := by
  by_cases leads : pred = block.val ∧ phi.block ∈ edges.succs.get block
  · rw [here leads]
    constructor
    · exact fun same => ⟨block, .inl rfl, leads.1, leads.2, (Option.some.inj same).symm⟩
    · rintro ⟨other, _, same, _, rfl⟩
      rw [Fin.ext (leads.1.symm.trans same)]
  · rw [elsewhere leads, touring.fed phi placed]
    constructor
    · rintro ⟨other, known, rest⟩
      exact ⟨other, .inr known, rest⟩
    · rintro ⟨other, rfl | known, same, rest⟩
      · exact absurd ⟨same, rest.1⟩ leads
      · exact ⟨other, known, same, rest⟩

theorem Touring.enter (touring : plan.Touring tree edges entered chain state)
    (distinct : ∀ phi ∈ plan.placed, ∀ other ∈ plan.placed, other.dest = phi.dest → other = phi)
    (fresh : ¬ entered block) (chained : tree.chains.get block = block :: chain) :
    ∃ next, visit plan.slotOf edges plan.placed state (.enter block) = .ok next ∧
      plan.Touring tree edges (fun other => other = block ∨ entered other) (block :: chain) next := by
  let phisAt (here : Fin n) := plan.placed.filter fun phi => phi.block == here
  have mem_phisAt {phi : PlacedPhi n k} {blocks : List (Fin n)} :
      phi ∈ blocks.flatMap phisAt ↔ phi ∈ plan.placed ∧ phi.block ∈ blocks := by
    simp [phisAt, and_comm]
  have sameHead : plan.head block (plan.reaching chain) = plan.atHead tree block := by
    unfold atHead
    rw [chained]
    rfl
  have sameEnd : (plan.insts block).foldl plan.settle (plan.atHead tree block) =
      plan.atEnd tree block := by
    unfold atEnd
    rw [chained, ← sameHead]
    rfl
  -- The phis of the block are pushed in a new layer, then its instructions are renamed.
  obtain ⟨names, pushed, isNamed⟩ :=
    foldl_push (phisAt block) { state with pushed := [] :: state.pushed }
  let cleared : Renaming n k :=
    { state with names, pushed, insts := state.insts.set block [] }
  have openedHead : plan.Opened chain (plan.atHead tree block) cleared := by
    have opened := (Opened.start touring.stacked).pushPhis (phisAt block)
    rw [isNamed] at opened
    exact sameHead ▸ opened
  obtain ⟨renamed, ran, openedEnd, sameIncoming, sound, complete, here, elsewhere⟩ :=
    foldlM_inst openedHead block (plan.insts block)
  rw [sameEnd] at openedEnd
  have recorded (phi : PlacedPhi n k) (member : phi ∈ plan.placed) :
      (renamed.incoming.get? phi.dest).isSome := sameIncoming ▸ touring.recorded phi member
  have recordedThere (phi : PlacedPhi n k) (listed : phi ∈ (edges.succs.get block).flatMap phisAt) :
      (renamed.incoming.get? phi.dest).isSome := recorded phi (mem_phisAt.mp listed).1
  obtain ⟨next, fed, isNext, stays, selected⟩ := foldlM_feed openedEnd block recordedThere
  refine ⟨next, ?_, ?_⟩
  · unfold visit
    simp only
    rw [isNamed, touring.waiting block fresh]
    exact bind_eq_ok.mpr ⟨renamed, ran, fed⟩
  have sameInsts : next.insts = renamed.insts := by rw [isNext]
  have sameAliases : next.aliases = renamed.aliases := by rw [isNext]
  have elsewhere (other : Fin n) (different : other ≠ block) :
      next.insts.get other = state.insts.get other := by
    rw [sameInsts, elsewhere other different]
    exact Table.get_set_ne _ _ (Ne.symm different)
  constructor
  · have stacked : plan.Stacked (block :: chain) renamed.pushed renamed.names.get := by
      unfold atEnd at openedEnd
      rw [chained] at openedEnd
      exact openedEnd.finish
    rw [isNext]
    exact stacked
  · intro other unentered
    rw [elsewhere other fun same => unentered (.inl same)]
    exact touring.waiting other fun known => unentered (.inr known)
  · intro other known
    by_cases same : other = block
    · rw [same, sameInsts, here]
      show (state.insts.set block []).get block ++ _ = _
      rw [Table.get_set_self, List.nil_append]
    · rw [elsewhere other same]
      exact touring.kept other (known.resolve_left same)
  · intro v operand found
    rw [sameAliases] at found
    rcases sound found with made | found
    · exact ⟨block, .inl rfl, made⟩
    · obtain ⟨other, known, made⟩ := touring.sound found
      exact ⟨other, .inr known, made⟩
  · intro other v operand known made
    rw [sameAliases]
    rcases known with rfl | known
    · exact complete (.inl ⟨operand, made⟩)
    · exact complete (.inr (touring.complete known made))
  · exact fun phi member => stays phi.dest (recorded phi member)
  · intro phi member pred operand
    have only (other : PlacedPhi n k) (listed : other ∈ (edges.succs.get block).flatMap phisAt) :=
      distinct phi member other (mem_phisAt.mp listed).1
    have listed : phi ∈ (edges.succs.get block).flatMap phisAt ↔ phi.block ∈ edges.succs.get block :=
      mem_phisAt.trans (and_iff_right member)
    apply touring.fed_enter member
    · exact fun leads => (selected phi only pred).trans (if_pos (leads.imp_right listed.mpr))
    · intro strays
      rw [selected phi only, if_neg fun leads => strays (leads.imp_right listed.mp)]
      unfold Renaming.selects
      rw [sameIncoming]

theorem get?_foldl_insert {phis : List (PlacedPhi n k)} {incoming : NumberMap (Incoming Operand)}
    {dest : Nat} :
    (phis.foldl (fun incoming phi => incoming.insert phi.dest .empty) incoming).get? dest =
      if dest ∈ phis.map PlacedPhi.dest then some .empty else incoming.get? dest := by
  induction phis generalizing incoming with
  | nil => simp
  | cons phi rest ih =>
      rw [List.foldl_cons, ih, NumberMap.get?_insert]
      by_cases now : dest = phi.dest <;> by_cases later : dest ∈ rest.map PlacedPhi.dest <;>
        simp_all

theorem Touring.start (plan : Plan n k) (tree : DomTree n) (edges : Edges n) :
    plan.Touring tree edges (fun _ => False) [] (.start plan.placed plan.insts) where
  stacked := fun slot => Table.get_replicate _ slot
  waiting := fun block _ => Table.get_tabulate _ block
  kept := nofun
  sound := by
    intro v operand found
    rw [Renaming.start, NumberMap.get?_empty] at found
    cases found
  complete := nofun
  recorded := by
    intro phi member
    rw [Renaming.start, get?_foldl_insert, if_pos (List.mem_map_of_mem member)]
    rfl
  fed := by
    intro phi member pred operand
    unfold Renaming.selects
    rw [Renaming.start, get?_foldl_insert, if_pos (List.mem_map_of_mem member)]
    simp

/-- What is known all along a tour over all blocks, and at its end. -/
theorem foldlM_visit (plan : Plan n k) (edges : Edges n) {edge : Fin n → Fin n → Prop}
    {root : Fin n} (correct : tree.Correct edge root)
    (reached : ∀ block, Relation.ReflTransGen edge root block)
    (distinct : ∀ phi ∈ plan.placed, ∀ other ∈ plan.placed, other.dest = phi.dest → other = phi) :
    ∃ outcome, tree.tour.foldlM (visit plan.slotOf edges plan.placed)
        (.start plan.placed plan.insts) = .ok outcome ∧
      plan.Touring tree edges (fun _ => True) [] outcome ∧
      ∀ passed rest, tree.tour = passed ++ rest →
        ∃ state, passed.foldlM (visit plan.slotOf edges plan.placed)
            (.start plan.placed plan.insts) = .ok state ∧
          ∃ entered chain, plan.Touring tree edges entered chain state := by
  refine correct.foldlM_tour (plan.Touring tree edges) ?_ ?_ reached (.start plan tree edges)
  · intro entered chain state block touring fresh chained
    exact touring.enter distinct fresh chained
  · intro entered chain state block touring
    exact ⟨state.pop, rfl, touring.leave⟩

end Plan

end Lowering.Ssa.Renaming
