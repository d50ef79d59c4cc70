import Lowering.Proofs.Allocation.Coloring

/-!
# Classes of merged registers

Registers with the same representative form a class.  No two of a class interfere, a class has at most
one physical register, and the edges between the registers that are still in the graph are exactly the
ones that the members of their classes had in the beginning.
-/

namespace Lowering.Machine

namespace Round

variable {m : Nat} {origin : InterferenceGraph} {pool : List PhysReg} {moves : Table m MoveSite}
  {round after : Round m} {u v : Reg}

/-! ## What a step changes -/

/-- The same registers are in the same graph, merged and stacked; worklists, numbers and copies may
differ. -/
structure Rests (before after : Round m) : Prop where
  pool : after.pool = before.pool
  graph : after.graph = before.graph
  merged : after.merged = before.merged
  stack : after.stack = before.stack
  listed : ∀ reg, after.Listed reg ↔ before.Listed reg

theorem Shuffles.rests (shuffles : Shuffles round after) (sameGraph : after.graph = round.graph) :
    Rests round after :=
  ⟨shuffles.pool, sameGraph, shuffles.merged, shuffles.stack, shuffles.listed⟩

namespace Rests

theorem trans {middle : Round m} (first : Rests round middle) (second : Rests middle after) :
    Rests round after :=
  ⟨second.pool.trans first.pool, second.graph.trans first.graph, second.merged.trans first.merged,
    second.stack.trans first.stack, fun reg => (second.listed reg).trans (first.listed reg)⟩

theorem setMoveState (round : Round m) (move : Fin m) (state : MoveState) :
    Rests round (round.setMoveState move state) :=
  ⟨rfl, rfl, rfl, rfl, fun _ => exists_congr fun _ => on_setMoveState⟩

theorem addWorklist {reg : Reg} (present : round.isPresent reg = true) :
    Rests round (round.addWorklist reg) :=
  (Shuffles.addWorklist present).rests (graph_addWorklist _ _)

theorem freeze {reg : Reg} (listed : round.Listed reg) : Rests round (round.freeze reg) := by
  refine (Shuffles.freeze listed).rests ?_
  unfold Round.freeze
  rw [graph_freezeMoves, graph_enter]

theorem isPresent (rests : Rests round after) (reg : Reg) :
    after.isPresent reg = round.isPresent reg := by
  rw [Bool.eq_iff_iff, isPresent_iff, isPresent_iff, rests.listed]

theorem representative (rests : Rests round after) : after.representative = round.representative :=
  representative_congr rests.merged

end Rests

/-- A step stacks a register, merges a register into another one, or leaves the graph alone. -/
theorem Consistent.step_effect (consistent : Consistent origin pool moves round)
    (stepped : round.step? = some after) :
    (∃ reg, round.On .simplify reg ∧ Rests (round.stacked reg) after) ∨
      (∃ move u v, (u = round.representative (round.moves.get move).dest ∧
          v = round.representative (round.moves.get move).src ∨
        u = round.representative (round.moves.get move).src ∧
          v = round.representative (round.moves.get move).dest) ∧
        Invariant origin (round.setMoveState move .coalesced) ∧
        (round.setMoveState move .coalesced).Fit u v ∧ round.isMergeable u v = true ∧
        Rests ((round.setMoveState move .coalesced).combine u v) after) ∨
      Rests round after := by
  rcases step?_cases stepped with
    ⟨reg, on, rfl⟩ | ⟨move, _, waits, rfl⟩ | ⟨reg, on, rfl⟩ | ⟨_, reg, chosen, rfl⟩
  · exact .inl ⟨reg, on, (Shuffles.foldl Shuffles.decrementDegree _ _).rests
      (graph_foldl_decrementDegree _ _)⟩
  · have pending : round.isPending move = true := isPending_iff.mpr (.inl waits)
    obtain ⟨u, v, operands, presentU, presentV, _, outcome⟩ := consistent.coalesce_cases waits
    rcases outcome with ⟨_, outcome⟩ | outcome | ⟨fit, safe, outcome⟩ | outcome
    · have marked := Rests.setMoveState round move .coalesced
      exact .inr (.inr (outcome ▸ marked.trans (.addWorklist presentU)))
    · have marked := Rests.setMoveState round move .constrained
      have readied : Rests (round.setMoveState move .constrained)
          ((round.setMoveState move .constrained).addWorklist u) := .addWorklist presentU
      have still := (readied.isPresent v).trans presentV
      exact .inr (.inr (outcome ▸ (marked.trans readied).trans (.addWorklist still)))
    · refine .inr (.inl ⟨move, u, v, operands, consistent.invariant.setMoveState pending .coalesced,
        fit.setMoveState move .coalesced, safe, ?_⟩)
      rw [outcome]
      refine .addWorklist (isPresent_iff.mpr ?_)
      exact (isPresent_iff.mp presentU).imp_right fun listed =>
        listed_combine.mpr ⟨fit.different, listed⟩
    · exact .inr (.inr (outcome ▸ .setMoveState round move .active))
  · exact .inr (.inr (.freeze ⟨.freeze, on⟩))
  · exact .inr (.inr (.freeze ⟨.spill, on_of_spillChoice? chosen⟩))

/-! ## Where edges lead -/

theorem isPresent_of_absorb {reg : Reg} (present : (round.absorb u v).isPresent reg = true) :
    round.isPresent reg = true := by
  rw [isPresent_iff] at present ⊢
  exact present.imp_right fun ⟨list, on⟩ => ⟨list, (on_absorb.mp on).2⟩

namespace Invariant

/-- New edges lead to what `v` was joined with and to `u`. -/
theorem known_combine (invariant : Invariant origin round) (fit : round.Fit u v)
    (known : ∀ a b, round.graph.hasEdge a b = true → b.isPhysical = true ∨ b ∈ origin.nodes)
    {a b : Reg} (edge : (round.combine u v).graph.hasEdge a b = true) :
    b.isPhysical = true ∨ b ∈ origin.nodes := by
  rcases (hasEdge_combine invariant.undirected).mp edge with
    ⟨t, toV, presentT, _, ⟨_, rfl⟩ | ⟨_, rfl⟩⟩ | edge
  · refine (isPresent_iff.mp fit.present).imp_right fun listed => ?_
    exact ((invariant.own b).mp (.inl listed)).2
  · exact known v b toV
  · exact known a b edge

/-- An edge to a merged register leads to `u` from now on. -/
theorem forwarded_combine (invariant : Invariant origin round) (fit : round.Fit u v)
    (forwarded : ∀ a b, round.graph.hasEdge a b = true → round.isPresent a = true →
      round.isPresent (round.representative b) = true →
      round.graph.hasEdge a (round.representative b) = true)
    {a b : Reg} (edge : (round.combine u v).graph.hasEdge a b = true)
    (presentA : (round.combine u v).isPresent a = true)
    (presentB : (round.combine u v).isPresent ((round.combine u v).representative b) = true) :
    (round.combine u v).graph.hasEdge a ((round.combine u v).representative b) = true := by
  have presentV : round.isPresent v = true := isPresent_iff.mpr (.inr fit.listed)
  rw [invariant.representative_combine fit] at presentB ⊢
  rcases (hasEdge_combine invariant.undirected).mp edge with
    ⟨t, toV, presentT, _, ⟨rfl, rfl⟩ | ⟨rfl, rfl⟩⟩ | old
  · rw [representative_of_not_merged (invariant.not_merged_of_present fit.present),
      if_neg fit.different]
    exact edge
  · have notV : b ≠ v := by
      rintro rfl
      rw [invariant.undirected.irrefl] at toV
      cases toV
    rw [representative_of_not_merged
      (invariant.not_merged_of_present (isPresent_of_absorb presentT)), if_neg notV]
    exact edge
  · have wasPresent := isPresent_of_combine presentA
    split at presentB
    · next isV =>
        rw [if_pos isV]
        have toV := forwarded a b old wasPresent (isV ▸ presentV)
        rw [isV] at toV
        refine (hasEdge_combine invariant.undirected).mpr (.inl ⟨a,
          invariant.undirected.symm _ _ toV, isPresent_absorb_of_ne wasPresent ?_, ?_,
          .inl ⟨rfl, rfl⟩⟩)
        · rintro rfl
          rw [invariant.undirected.irrefl] at toV
          cases toV
        · rintro rfl
          rw [fit.apart] at toV
          cases toV
    · next notV =>
        rw [if_neg notV]
        exact (hasEdge_combine invariant.undirected).mpr
          (.inr (forwarded a b old wasPresent (isPresent_of_combine presentB)))

end Invariant

/-- What is known of the edges of a round. -/
structure Linked (origin : InterferenceGraph) (round : Round m) : Prop where
  known : ∀ a b, round.graph.hasEdge a b = true → b.isPhysical = true ∨ b ∈ origin.nodes
  /-- Neighbors are joined with what their neighbors have been merged into. -/
  forwarded : ∀ a b, round.graph.hasEdge a b = true → round.isPresent a = true →
    round.isPresent (round.representative b) = true →
    round.graph.hasEdge a (round.representative b) = true
  /-- Every edge comes from members of the two classes that interfere. -/
  traced : ∀ a b, round.graph.hasEdge a b = true → ∃ x y, origin.hasEdge x y = true ∧
    round.representative x = round.representative a ∧
    round.representative y = round.representative b

namespace Linked

variable (linked : Linked origin round)
include linked

theorem rests (rests : Rests round after) : Linked origin after := by
  constructor
  · rw [rests.graph]
    exact linked.known
  · simp only [rests.isPresent]
    rw [rests.graph, rests.representative]
    exact linked.forwarded
  · rw [rests.graph, rests.representative]
    exact linked.traced

theorem stacked (reg : Reg) : Linked origin (round.stacked reg) where
  known := linked.known
  forwarded a b edge presentA presentB := by
    rw [representative_stacked] at presentB ⊢
    exact linked.forwarded a b edge (isPresent_of_stacked presentA) (isPresent_of_stacked presentB)
  traced := by
    rw [representative_stacked]
    exact linked.traced

/-- The edges that `u` gets are those of members of the class of `v`, now its own. -/
theorem traced_combine (invariant : Invariant origin round) (fit : round.Fit u v) {a b : Reg}
    (edge : (round.combine u v).graph.hasEdge a b = true) :
    ∃ x y, origin.hasEdge x y = true ∧
      (round.combine u v).representative x = (round.combine u v).representative a ∧
      (round.combine u v).representative y = (round.combine u v).representative b := by
  simp only [invariant.representative_combine fit]
  have rootU : round.representative u = u :=
    representative_of_not_merged (invariant.not_merged_of_present fit.present)
  have rootV : round.representative v = v :=
    representative_of_not_merged (invariant.listed_not_merged v fit.listed)
  rcases (hasEdge_combine invariant.undirected).mp edge with
    ⟨t, toV, _, _, ⟨rfl, rfl⟩ | ⟨rfl, rfl⟩⟩ | old
  · obtain ⟨x, y, joined, isV, isT⟩ := linked.traced v a toV
    refine ⟨y, x, invariant.source.symm x y joined, by rw [isT], ?_⟩
    rw [isV, rootV, if_pos rfl, rootU, if_neg fit.different]
  · obtain ⟨x, y, joined, isV, isT⟩ := linked.traced v b toV
    refine ⟨x, y, joined, ?_, by rw [isT]⟩
    rw [isV, rootV, if_pos rfl, rootU, if_neg fit.different]
  · obtain ⟨x, y, joined, sameX, sameY⟩ := linked.traced a b old
    exact ⟨x, y, joined, by rw [sameX], by rw [sameY]⟩

theorem combine (invariant : Invariant origin round)
    (fit : round.Fit u v) : Linked origin (round.combine u v) where
  known _ _ := invariant.known_combine fit linked.known
  forwarded _ _ := invariant.forwarded_combine fit linked.forwarded
  traced _ _ := linked.traced_combine invariant fit

theorem step (consistent : Consistent origin pool moves round)
    (stepped : round.step? = some after) : Linked origin after := by
  rcases consistent.step_effect stepped with
    ⟨reg, _, rests⟩ | ⟨move, u, v, _, invariant, fit, _, rests⟩ | rests
  · exact (linked.stacked reg).rests rests
  · exact ((linked.rests (.setMoveState round move .coalesced)).combine invariant fit).rests rests
  · exact linked.rests rests

omit linked in
theorem startOn {graph : InterferenceGraph} (undirected : graph.Undirected) :
    Linked graph (startOn pool graph moves) := by
  have self (reg : Reg) : (Round.startOn pool graph moves).representative reg = reg :=
    representative_of_not_merged (by
      rw [merged_startOn]
      exact Std.TreeMap.not_mem_emptyc)
  constructor
  · rw [graph_startOn]
    exact fun a b edge => .inr (Graph.mem_nodes_of_hasEdge (undirected.symm a b edge))
  · intro a b edge _ _
    rw [self]
    exact edge
  · rw [graph_startOn]
    exact fun a b edge => ⟨a, b, edge, rfl, rfl⟩

/-- The representative of a neighbor is in the graph or stacked. -/
theorem representative_cases (invariant : Invariant origin round) {a b : Reg}
    (edge : round.graph.hasEdge a b = true) :
    round.isPresent (round.representative b) = true ∨ round.representative b ∈ round.stack := by
  rcases linked.known a b edge with physical | node
  · have present : round.isPresent b = true := isPresent_iff.mpr (.inl physical)
    rw [representative_of_not_merged (invariant.not_merged_of_present present)]
    exact .inl present
  · exact invariant.representative_cases node

/-- Registers that are neither stacked nor merged are joined if and only if members of their classes
interfere. -/
theorem hasEdge_iff (invariant : Invariant origin round) {a b : Reg} (rootA : a ∉ round.merged)
    (waitsA : a ∉ round.stack) (rootB : b ∉ round.merged)
    (waitsB : b ∉ round.stack) : round.graph.hasEdge a b = true ↔ ∃ x y,
      origin.hasEdge x y = true ∧ round.representative x = a ∧ round.representative y = b := by
  constructor
  · intro edge
    obtain ⟨x, y, joined, sameX, sameY⟩ := linked.traced a b edge
    rw [representative_of_not_merged rootA] at sameX
    rw [representative_of_not_merged rootB] at sameY
    exact ⟨x, y, joined, sameX, sameY⟩
  · rintro ⟨x, y, joined, rfl, rfl⟩
    have nodeX := Graph.mem_nodes_of_hasEdge joined
    have nodeY := Graph.mem_nodes_of_hasEdge (invariant.source.symm x y joined)
    exact invariant.joined x y joined ((invariant.representative_cases nodeX).resolve_right waitsA)
      ((invariant.representative_cases nodeY).resolve_right waitsB)

end Linked

/-! ## Classes -/

/-- The register was merged into another one. -/
def MergedInto (round : Round m) (reg into : Reg) : Prop := round.merged[reg]? = some into

theorem acc_of_follow {fuel : Nat} {reg : Reg} (ends : round.follow fuel reg ∉ round.merged) :
    Acc (fun into reg => round.MergedInto reg into) reg := by
  induction fuel generalizing reg with
  | zero =>
      refine .intro reg fun into merged => absurd ?_ ends
      rw [Std.TreeMap.mem_iff_isSome_getElem?]
      exact Option.isSome_of_eq_some merged
  | succ fuel ih =>
      refine .intro reg fun into merged => ih ?_
      have found : round.merged[reg]? = some into := merged
      simpa only [follow, Std.TreeMap.get?_eq_getElem?, found] using ends

theorem mergedInto_follow (fuel : Nat) (reg : Reg) :
    Relation.ReflTransGen round.MergedInto reg (round.follow fuel reg) := by
  induction fuel generalizing reg with
  | zero => exact .refl
  | succ fuel ih =>
      simp only [follow, Std.TreeMap.get?_eq_getElem?]
      split
      · next into found => exact .head found (ih into)
      · exact .refl

theorem Invariant.representative_physical (invariant : Invariant origin round) {reg : Reg}
    (physical : reg.isPhysical = true) : round.representative reg = reg :=
  representative_of_not_merged (invariant.not_merged_of_present (isPresent_iff.mpr (.inl physical)))

/-- The invariant and the edges of a round after any number of steps. -/
theorem linked_steps {graph : InterferenceGraph} (undirected : graph.Undirected) (fuel : Nat) :
    Consistent (admitted graph moves) pool moves ((Round.start pool graph moves).steps fuel) ∧
      Linked (admitted graph moves) ((Round.start pool graph moves).steps fuel) :=
  steps_induct (motive := fun round => Consistent (admitted graph moves) pool moves round ∧
      Linked (admitted graph moves) round)
    (fun ⟨consistent, linked⟩ stepped =>
      ⟨(consistent.step stepped).1, linked.step consistent stepped⟩)
    ⟨.startOn (undirected_admitted undirected) operands_mem_admitted,
      .startOn (undirected_admitted undirected)⟩ fuel

end Round

/-- Registers are merged only if they do not interfere.  After any number of steps of a round,
following merges ends with the representative; no two registers of a class interfere; a physical
register represents its class, and is one of the pool if it is not alone; and registers that are
neither stacked nor merged are joined if and only if members of their classes interfere. -/
theorem Func.merges_apart (f : Func) (liveness : Liveness f.blocks.length) (pool : List PhysReg)
    (moves : List MoveSite) (fuel : Nat) :
    let graph := f.interference liveness
    let round := (Round.start pool graph (Table.tabulate moves.get)).steps fuel
    (WellFounded fun into reg => round.MergedInto reg into) ∧
    (∀ reg, Relation.ReflTransGen round.MergedInto reg (round.representative reg) ∧
      round.representative reg ∉ round.merged) ∧
    (∀ a b, round.representative a = round.representative b → graph.hasEdge a b = false) ∧
    (∀ phys, round.representative (.physical phys) = .physical phys ∧
      ∀ reg ≠ .physical phys, round.representative reg = .physical phys → phys ∈ pool) ∧
    ∀ a b, a ∉ round.merged → a ∉ round.stack → b ∉ round.merged → b ∉ round.stack →
      (round.graph.hasEdge a b = true ↔ ∃ x y, graph.hasEdge x y = true ∧
        round.representative x = a ∧ round.representative y = b) := by
  intro graph round
  obtain ⟨consistent, linked⟩ :
      Round.Consistent (Round.admitted graph (Table.tabulate moves.get)) pool
        (Table.tabulate moves.get) round ∧
      Round.Linked (Round.admitted graph (Table.tabulate moves.get)) round :=
    Round.linked_steps (undirected_interference liveness) fuel
  have invariant := consistent.invariant
  refine ⟨⟨fun reg => Round.acc_of_follow (invariant.rooted reg)⟩, fun reg => ?_, ?_, ?_, ?_⟩
  · exact ⟨Round.mergedInto_follow _ reg, invariant.rooted reg⟩
  · intro a b same
    rw [Bool.eq_false_iff, ← Round.hasEdge_admitted]
    exact fun edge => invariant.separate a b edge same
  · intro phys
    refine ⟨invariant.representative_physical rfl, fun reg other member => ?_⟩
    exact consistent.pool ▸ invariant.mem_pool_of_representative member other
  · intro a b rootA waitsA rootB waitsB
    simp only [linked.hasEdge_iff invariant rootA waitsA rootB waitsB, Round.hasEdge_admitted]

end Lowering.Machine
