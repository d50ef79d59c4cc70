import Lowering.Proofs.Ssa.Checks
import Lowering.Proofs.Ssa.Placement
import Lowering.Proofs.Ssa.Renaming
import Lowering.Ssa.Promotion

/-!
# The parts of a promotion

A strict function whose counter lies above its values is promoted without a fault, unless the counter
overflows.  `Promotion` gathers what is known of the parts then.
-/

namespace Lowering.Ssa

namespace Func

variable {f : Func} {slot : Nat}

/-! ## Slots -/

theorem mem_slots :
    slot ∈ f.slots ↔ ∃ block ∈ f.blocks, Inst.alloca slot ∈ block.insts := by
  have gathered (blocks : List Block) (set : NumberSet) :
      slot ∈ blocks.foldl (fun set block => set.insertMany (block.insts.filterMap Inst.madeSlot?)) set ↔
        slot ∈ set ∨ ∃ block ∈ blocks, Inst.alloca slot ∈ block.insts := by
    induction blocks generalizing set with
    | nil => simp
    | cons block rest ih =>
        have made : slot ∈ block.insts.filterMap Inst.madeSlot? ↔ Inst.alloca slot ∈ block.insts := by
          rw [List.mem_filterMap]
          constructor
          · rintro ⟨inst, member, isMade⟩
            cases inst with
            | alloca dest => exact Option.some.inj isMade ▸ member
            | load _ _ | store _ _ | binary _ _ _ _ | cmp _ _ _ _ | call _ _ _ => cases isMade
          · exact fun member => ⟨_, member, rfl⟩
        rw [List.foldl_cons, ih, Std.TreeSet.mem_insertMany_list,
          List.contains_iff_mem, made, or_assoc]
        simp
  unfold slots
  rw [Std.TreeSet.mem_toList, gathered]
  simp

theorem length_pos_of_promotable (promotable : f.promotableSlots ≠ []) : 0 < f.blocks.length := by
  obtain ⟨slot, member⟩ := List.exists_mem_of_ne_nil _ promotable
  obtain ⟨block, inside, _⟩ := mem_slots.mp (List.mem_filter.mp member).1
  exact List.length_pos_of_mem inside

theorem nodup_promotableSlots (f : Func) : f.promotableSlots.Nodup := by
  refine List.Nodup.filter _ ?_
  unfold slots
  refine Std.TreeSet.distinct_toList.imp fun different same => different ?_
  exact byNumber_eq_iff.mpr same

/-- The address of a promotable slot is only loaded from and stored to. -/
theorem not_escaped (promotable : slot ∈ f.promotableSlots) {block : Block}
    (member : block ∈ f.blocks) : .value slot ∉ block.valueOperands := by
  intro used
  have unescaped := (List.mem_filter.mp promotable).2
  rw [Bool.not_eq_true', List.contains_eq_mem, decide_eq_false_iff_not] at unescaped
  exact unescaped (List.mem_flatMap.mpr ⟨block, member, used⟩)

/-! ## Counters -/

theorem reserveValues_eq_ok {reserved : Func} (ok : f.reserveValues = .ok reserved) :
    reserved = { f with nextValue := reserved.nextValue } ∧
      ∀ v ∈ reserved.defs, v < reserved.nextValue := by
  obtain ⟨next, counted, ok⟩ := bind_eq_ok.mp ok
  cases ok
  exact ⟨rfl, fun v member => ((foldlM_reserve counted).2.1 v member).1⟩

theorem onlyOverflows_reserveValues (f : Func) : OnlyOverflows f.reserveValues :=
  (onlyOverflows_reserve f.defs f.nextValue).bind fun _ _ => .ok _

theorem mem_defs_of_promotable (promotable : slot ∈ f.promotableSlots) :
    slot ∈ f.defs := by
  obtain ⟨block, member, made⟩ := mem_slots.mp (List.mem_filter.mp promotable).1
  refine List.mem_append_right _ (List.mem_flatMap.mpr ⟨block, member, List.mem_append_right _ ?_⟩)
  exact List.mem_filterMap.mpr ⟨_, made, rfl⟩

end Func

/-! ## Promotions -/

/-- The parts of a promotion of a strict function. -/
structure Promotion (f : Func) where
  root : Fin f.blocks.length
  strict : f.Strict root
  /-- The counter lies above all values. -/
  above : ∀ v ∈ f.defs, v < f.nextValue
  edges : Edges f.blocks.length
  built : Edges.build f.flow = .ok edges
  tree : DomTree f.blocks.length
  correct : tree.Correct f.flow.Leads root
  placed : List (PlacedPhi f.blocks.length f.promotableSlots.length)
  nextValue : Nat
  numbered : numberPhis f.nextValue (f.phiSites f.promotableSlots (tree.frontiers edges)) =
    .ok (placed, nextValue)
  outcome : Renaming f.blocks.length f.promotableSlots.length
  toured : Renaming.Plan.Touring
    ⟨slotOf? f.promotableSlots, placed, fun block => (f.blocks.get block).insts⟩ tree edges
    (fun _ => True) [] outcome

namespace Promotion

variable {f : Func}

/-- What the tour of a promotion renames. -/
def plan (p : Promotion f) : Renaming.Plan f.blocks.length f.promotableSlots.length :=
  ⟨slotOf? f.promotableSlots, p.placed, fun block => (f.blocks.get block).insts⟩

/-- The promoted function. -/
def func (p : Promotion f) : Func :=
  { f with blocks := f.rebuilt p.placed p.outcome, nextValue := p.nextValue }

/-- Placed phis with the same result are the same. -/
theorem placed_of_numbered {n k next last : Nat} {sites : List (Fin k × Fin n)}
    {placed : List (PlacedPhi n k)} (numbered : numberPhis next sites = .ok (placed, last)) :
    ∀ phi ∈ placed, ∀ other ∈ placed, other.dest = phi.dest → other = phi := by
  obtain ⟨_, dests, _⟩ := numberPhis_eq_ok numbered
  have nodup : (placed.map PlacedPhi.dest).Nodup := dests ▸ List.nodup_range'
  exact fun phi member other otherMember same => List.inj_on_of_nodup_map nodup otherMember member same

end Promotion

namespace Func

variable {f promoted pruned : Func} {edges : Edges f.blocks.length} {tree : DomTree f.blocks.length}
  {stats : PromotionStats} {removed limit : Nat}

/-- Promoting a strict function succeeds, unless the counter overflows. -/
theorem promoteSlots_cases {root : Fin f.blocks.length} (strict : f.Strict root)
    (above : ∀ v ∈ f.defs, v < f.nextValue)
    (built : Edges.build f.flow = .ok edges)
    (correct : tree.Correct f.flow.Leads root) :
    (f.promoteSlots f.promotableSlots edges tree = .error .addOverflow ∧
        numberPhis f.nextValue (f.phiSites f.promotableSlots (tree.frontiers edges)) =
          .error .addOverflow) ∨
      ∃ (p : Promotion f) (stats : PromotionStats), stats.slots = f.promotableSlots ∧
        f.promoteSlots f.promotableSlots edges tree = .ok (p.func, stats) := by
  cases numbered : numberPhis f.nextValue (f.phiSites f.promotableSlots (tree.frontiers edges)) with
  | error fault =>
      obtain rfl := onlyOverflows_numberPhis _ _ fault numbered
      simp only [promoteSlots, numbered]
      exact .inl ⟨rfl, trivial⟩
  | ok result =>
      obtain ⟨placed, nextValue⟩ := result
      obtain ⟨outcome, ran, toured, _⟩ := Renaming.Plan.foldlM_visit
        ⟨slotOf? f.promotableSlots, placed, fun block => (f.blocks.get block).insts⟩ edges correct
        strict.reached (Promotion.placed_of_numbered numbered)
      refine .inr ⟨⟨root, strict, above, edges, built, tree, correct, placed, nextValue, numbered,
        outcome, toured⟩, ⟨f.promotableSlots, placed.length, outcome.loads, outcome.stores⟩, rfl, ?_⟩
      exact bind_eq_ok.mpr ⟨_, numbered, bind_eq_ok.mpr ⟨outcome, ran, rfl⟩⟩

theorem promoteSlots_parts {slots : List Nat}
    (ok : f.promoteSlots slots edges tree = .ok (promoted, stats)) :
    ∃ placed outcome last,
      numberPhis f.nextValue (f.phiSites slots (tree.frontiers edges)) = .ok (placed, last) ∧
      f.renamed slots edges tree placed = .ok outcome ∧
      promoted = { f with blocks := f.rebuilt placed outcome, nextValue := last } ∧
      stats = ⟨slots, placed.length, outcome.loads, outcome.stores⟩ := by
  unfold promoteSlots at ok
  obtain ⟨⟨placed, last⟩, numbered, ok⟩ := bind_eq_ok.mp ok
  obtain ⟨outcome, renamed, ok⟩ := bind_eq_ok.mp ok
  cases ok
  exact ⟨placed, outcome, last, numbered, renamed, rfl, rfl⟩

theorem promoteSlots_eq_ok {slots : List Nat}
    (ok : f.promoteSlots slots edges tree = .ok (promoted, stats)) :
    stats.slots = slots ∧ ∃ placed outcome last,
      numberPhis f.nextValue (f.phiSites slots (tree.frontiers edges)) = .ok (placed, last) ∧
      f.renamed slots edges tree placed = .ok outcome ∧
      promoted.blocks = f.rebuilt placed outcome := by
  obtain ⟨placed, outcome, last, numbered, renamed, rfl, rfl⟩ := promoteSlots_parts ok
  exact ⟨rfl, placed, outcome, last, numbered, renamed, rfl⟩

/-- A promotion that succeeds has nothing to promote, or promotes the slots of the pruned function. -/
theorem promote_parts (ok : f.promote.result = .ok (promoted, stats)) :
    ∃ pruned removed next, f.prune.result = .ok (pruned, removed) ∧
      pruned.reserveValues = .ok { pruned with nextValue := next } ∧
      (pruned.promotableSlots = [] ∧ promoted = { pruned with nextValue := next } ∧
          stats = ⟨[], 0, 0, 0⟩ ∨
        pruned.promotableSlots ≠ [] ∧ ∃ edges tree, Edges.build pruned.flow = .ok edges ∧
          DomTree.build edges FlowGraph.entry = .ok tree ∧
          { pruned with nextValue := next }.promoteSlots pruned.promotableSlots edges tree =
            .ok (promoted, stats)) := by
  unfold promote at ok
  obtain ⟨⟨pruned, removed⟩, isPruned, ok⟩ := Pass.result_bind_eq_ok.mp ok
  obtain ⟨reserved, isReserved, ok⟩ := Pass.result_bind_eq_ok.mp ok
  obtain ⟨next, counted, done⟩ := bind_eq_ok.mp isReserved
  cases done
  refine ⟨pruned, removed, next, isPruned, isReserved, ?_⟩
  dsimp only at ok
  split at ok
  · next empty =>
      cases ok
      exact .inl ⟨List.isEmpty_iff.mp empty, rfl, rfl⟩
  · next promotable =>
      obtain ⟨edges, built, ok⟩ := Pass.result_bind_eq_ok.mp ok
      obtain ⟨tree, rooted, ok⟩ := Pass.result_bind_eq_ok.mp ok
      obtain ⟨⟨result, counts⟩, done, ok⟩ := Pass.result_bind_eq_ok.mp ok
      obtain ⟨_, _, ok⟩ := Pass.result_bind_eq_ok.mp ok
      cases ok
      rw [result_construct] at rooted
      exact .inr ⟨mt List.isEmpty_iff.mpr promotable, edges, tree, built, rooted, done⟩

theorem promote_eq_ok (ok : f.promote.result = .ok (promoted, stats)) :
    ∃ pruned removed next, f.prune.result = .ok (pruned, removed) ∧
      pruned.reserveValues = .ok { pruned with nextValue := next } ∧
      (pruned.promotableSlots = [] ∧ promoted = { pruned with nextValue := next } ∧ stats.slots = [] ∨
        ∃ edges tree, Edges.build pruned.flow = .ok edges ∧
          DomTree.build edges FlowGraph.entry = .ok tree ∧
          { pruned with nextValue := next }.promoteSlots pruned.promotableSlots edges tree =
            .ok (promoted, stats)) := by
  obtain ⟨pruned, removed, next, isPruned, isReserved, cases⟩ := promote_parts ok
  refine ⟨pruned, removed, next, isPruned, isReserved, cases.imp ?_ And.right⟩
  rintro ⟨empty, same, rfl⟩
  exact ⟨empty, same, rfl⟩

/-- The counter of a function overflows when its values are counted or the placed phis numbered. -/
def Overflows (f : Func) : Prop :=
  f.reserveValues = .error .addOverflow ∨ ∃ reserved frontiers, f.reserveValues = .ok reserved ∧
    numberPhis reserved.nextValue (reserved.phiSites reserved.promotableSlots frontiers) =
      .error .addOverflow

/-- Promotion keeps a function that has nothing to promote, and else rebuilds it. -/
theorem promote_cases (ok : f.prune.result = .ok (pruned, removed))
    (dominance : pruned.checkDominance.result = .ok (.ok ())) :
    (f.promote.result = .error .addOverflow ∧ pruned.Overflows) ∨
      ∃ reserved, reserved = { pruned with nextValue := reserved.nextValue } ∧
        (reserved.promotableSlots = [] ∧ f.promote.result = .ok (reserved, ⟨[], 0, 0, 0⟩) ∨
          ∃ (p : Promotion reserved) (stats : PromotionStats),
            stats.slots = reserved.promotableSlots ∧ f.promote.result = .ok (p.func, stats)) := by
  generalize isResult : f.promote.result = result
  unfold promote at isResult
  rw [Pass.result_bind, ok] at isResult
  change Pass.result (liftM pruned.reserveValues >>= _) = result at isResult
  rw [Pass.result_bind] at isResult
  change pruned.reserveValues.bind _ = result at isResult
  cases counted : pruned.reserveValues with
  | error fault =>
      obtain rfl := onlyOverflows_reserveValues pruned fault counted
      rw [counted] at isResult
      exact .inl ⟨isResult.symm, .inl counted⟩
  | ok reserved =>
      obtain ⟨isReserved, above⟩ := reserveValues_eq_ok counted
      rw [counted] at isResult
      change Pass.result (if reserved.promotableSlots.isEmpty then _ else _) = result at isResult
      by_cases empty : reserved.promotableSlots.isEmpty = true
      · rw [if_pos empty] at isResult
        exact .inr ⟨reserved, isReserved, .inl ⟨List.isEmpty_iff.mp empty, isResult.symm⟩⟩
      rw [if_neg empty] at isResult
      have nonempty := length_pos_of_promotable (mt List.isEmpty_iff.mpr empty)
      have checked : reserved.checkDominance.result = .ok (.ok ()) := by
        rw [isReserved]
        exact dominance
      have strict := (checkDominance_eq_ok_iff nonempty).mp checked
      have built := Edges.build_eq_ok_iff.mpr ⟨strict.closed, rfl⟩
      have rooted : DomTree.build (.ofSuccs reserved.flow.targets) FlowGraph.entry = .ok _ :=
        dif_pos nonempty
      have correct := FlowGraph.correct_build built nonempty rooted
      rw [Pass.result_bind] at isResult
      change (Edges.build reserved.flow).bind _ = result at isResult
      rw [built] at isResult
      change Pass.result (DomTree.construct _ _ >>= _) = result at isResult
      rw [Pass.result_bind, result_construct, rooted] at isResult
      change Pass.result (liftM (reserved.promoteSlots _ _ _) >>= _) = result at isResult
      rw [Pass.result_bind] at isResult
      change (reserved.promoteSlots _ _ _).bind _ = result at isResult
      rcases promoteSlots_cases strict above built correct with ⟨failed, numbered⟩ |
        ⟨p, stats, isSlots, done⟩
      · rw [failed] at isResult
        exact .inl ⟨isResult.symm, .inr ⟨reserved, _, counted, numbered⟩⟩
      · rw [done] at isResult
        exact .inr ⟨reserved, isReserved, .inr ⟨p, stats, isSlots, isResult.symm⟩⟩

theorem foldlM_reserve_le {values : List Nat} {next : Nat} (fits : limit < Width.w32.bound)
    (counter : next ≤ limit) (below : ∀ v ∈ values, v < limit) :
    ∃ last ≤ limit, values.foldlM reserve next = .ok last := by
  induction values generalizing next with
  | nil => exact ⟨next, counter, rfl⟩
  | cons head rest ih =>
      obtain ⟨first, below⟩ := List.forall_mem_cons.mp below
      have counted : Width.w32.add head 1 = .ok (head + 1) :=
        Width.add_eq_ok_iff.mpr ⟨rfl, Nat.lt_of_le_of_lt first fits⟩
      have counter : (if next < head + 1 then head + 1 else next) ≤ limit := by
        split <;> omega
      obtain ⟨last, bounded, ok⟩ := ih counter below
      refine ⟨last, bounded, ?_⟩
      rw [List.foldlM_cons, reserve, counted]
      exact ok

/-- The counter stays in its range if there is room for a phi in every block for every slot. -/
theorem not_overflows (counter : f.nextValue ≤ limit) (below : ∀ v ∈ f.defs, v < limit)
    (fits : limit + f.promotableSlots.length * f.blocks.length < Width.w32.bound) :
    ¬ f.Overflows := by
  obtain ⟨last, bounded, ok⟩ :=
    foldlM_reserve_le (Nat.lt_of_le_of_lt (Nat.le_add_right _ _) fits) counter below
  have counted : f.reserveValues = .ok { f with nextValue := last } :=
    bind_eq_ok.mpr ⟨last, ok, rfl⟩
  rintro (overflow | ⟨reserved, frontiers, isReserved, overflow⟩)
  · rw [counted] at overflow
    cases overflow
  · rw [counted] at isReserved
    cases isReserved
    have few := length_phiSites_le f.promotableSlots frontiers
    obtain ⟨placed, numbered⟩ := exists_numberPhis
      (Nat.lt_of_le_of_lt (Nat.add_le_add bounded few) fits)
    exact nomatch numbered.symm.trans overflow

/-- A function that passes the check is promoted, unless the counter overflows. -/
theorem overflows_or_promotes (ok : f.prune.result = .ok (pruned, removed))
    (dominance : pruned.checkDominance.result = .ok (.ok ())) :
    (f.promote.result = .error .addOverflow ∧ pruned.Overflows) ∨
      ∃ promoted stats, f.promote.result = .ok (promoted, stats) ∧
        stats.slots = pruned.promotableSlots := by
  refine (promote_cases ok dominance).imp_right ?_
  rintro ⟨reserved, isReserved, ⟨empty, kept⟩ | ⟨p, stats, isSlots, done⟩⟩
  · rw [isReserved] at empty
    exact ⟨reserved, _, kept, empty.symm⟩
  · rw [isReserved] at isSlots
    exact ⟨p.func, stats, done, isSlots⟩

/-- A function that passes the check is promoted if its counter has room. -/
theorem exists_promote (ok : f.prune.result = .ok (pruned, removed))
    (dominance : pruned.checkDominance.result = .ok (.ok ())) (counter : pruned.nextValue ≤ limit)
    (below : ∀ v ∈ pruned.defs, v < limit)
    (fits : limit + pruned.promotableSlots.length * pruned.blocks.length < Width.w32.bound) :
    ∃ promoted stats, f.promote.result = .ok (promoted, stats) ∧
      stats.slots = pruned.promotableSlots :=
  (overflows_or_promotes ok dominance).resolve_left fun failed =>
    not_overflows counter below fits failed.2

end Func

end Lowering.Ssa
