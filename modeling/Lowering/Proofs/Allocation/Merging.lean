import Lowering.Proofs.Allocation.Weight

/-!
# Merging registers

A merged register is followed to its representative.  Merging `v` into `u` makes `u` the
representative of everything that `v` represented, joins `u` with the neighbors that `v` still has,
and otherwise only shuffles the round.
-/

namespace Lowering.Machine.Round

variable {m : Nat}

section Representatives

variable {after round : Round m} {reg : Reg}

theorem follow_congr {before : Round m} (same : after.merged = before.merged) (fuel : Nat)
    (reg : Reg) : after.follow fuel reg = before.follow fuel reg := by
  induction fuel generalizing reg with
  | zero => rfl
  | succ fuel ih =>
      simp only [follow, same]
      split
      · exact ih _
      · rfl

theorem representative_congr {before : Round m} (same : after.merged = before.merged) :
    after.representative = before.representative := by
  funext reg
  unfold representative
  rw [same]
  exact follow_congr same _ reg

theorem follow_of_not_merged (root : reg ∉ round.merged)
    (fuel : Nat) : round.follow fuel reg = reg := by
  cases fuel with
  | zero => rfl
  | succ fuel =>
      have absent : round.merged[reg]? = none := Std.TreeMap.getElem?_eq_none root
      simp only [follow, Std.TreeMap.get?_eq_getElem?, absent]

theorem representative_of_not_merged (root : reg ∉ round.merged) :
    round.representative reg = reg :=
  follow_of_not_merged root _

/-- Following merges always ends. -/
def Rooted (round : Round m) : Prop := ∀ reg, round.representative reg ∉ round.merged

/-- What holds of a register, and of whatever it is merged into, holds of its representative. -/
theorem follow_induct {motive : Reg → Prop}
    (up : ∀ reg into : Reg, round.merged[reg]? = some into → motive into) (fuel : Nat)
    (start : motive reg) : motive (round.follow fuel reg) := by
  induction fuel generalizing reg with
  | zero => exact start
  | succ fuel ih =>
      simp only [follow, Std.TreeMap.get?_eq_getElem?]
      split
      · next into found => exact ih (up reg into found)
      · exact start

variable {round : Round m} {u v : Reg}

theorem getElem?_insert_merged (reg : Reg) :
    (round.merged.insert v u)[reg]? = if v = reg then some u else round.merged[reg]? := by
  rw [Std.TreeMap.getElem?_insert]
  by_cases same : v = reg
  · rw [if_pos (Reg.order_eq_iff.mpr same), if_pos same]
  · rw [if_neg fun equal => same (Reg.order_eq_iff.mp equal), if_neg same]

theorem not_mem_insert_merged (root : reg ∉ round.merged) (different : reg ≠ v) :
    reg ∉ round.merged.insert v u := by
  rw [Std.TreeMap.mem_insert, Reg.order_eq_iff]
  rintro (same | member)
  · exact different same.symm
  · exact root member

/-- Following merges once `v` is merged into `u`, from a register whose representative was found
with the given fuel. -/
theorem follow_insert (inserted : after.merged = round.merged.insert v u)
    (freshV : v ∉ round.merged) (rootU : u ∉ round.merged) (different : u ≠ v)
    (fuel : Nat) (reg : Reg) (found : round.follow fuel reg ∉ round.merged) :
    after.follow (fuel + 1) reg =
      if round.follow fuel reg = v then u else round.follow fuel reg := by
  have atRoot (reg : Reg) (root : reg ∉ round.merged) (fuel : Nat) :
      after.follow (fuel + 1) reg = if reg = v then u else reg := by
    have absent : round.merged[reg]? = none := Std.TreeMap.getElem?_eq_none root
    simp only [follow, Std.TreeMap.get?_eq_getElem?, inserted, getElem?_insert_merged, absent]
    by_cases same : v = reg
    · rw [if_pos same, if_pos same.symm]
      exact follow_of_not_merged (inserted ▸ not_mem_insert_merged rootU different) fuel
    · rw [if_neg same, if_neg (Ne.symm same)]
  induction fuel generalizing reg with
  | zero => exact atRoot reg found 0
  | succ fuel ih =>
      cases step : round.merged[reg]? with
      | none =>
          have root : reg ∉ round.merged := fun member => by
            rw [Std.TreeMap.mem_iff_isSome_getElem?, step] at member
            cases member
          rw [follow_of_not_merged root, atRoot reg root]
      | some into =>
          have unequal : v ≠ reg := by
            rintro rfl
            rw [Std.TreeMap.getElem?_eq_none freshV] at step
            cases step
          have before : round.follow (fuel + 1) reg = round.follow fuel into := by
            simp only [follow, Std.TreeMap.get?_eq_getElem?, step]
          have now : after.follow (fuel + 1 + 1) reg = after.follow (fuel + 1) into := by
            rw [follow]
            simp only [Std.TreeMap.get?_eq_getElem?, inserted, getElem?_insert_merged,
              if_neg unequal, step]
          rw [before] at found ⊢
          rw [now, ih into found]

theorem representative_insert (rooted : round.Rooted)
    (inserted : after.merged = round.merged.insert v u)
    (freshV : v ∉ round.merged) (rootU : u ∉ round.merged) (different : u ≠ v) (reg : Reg) :
    after.representative reg =
      if round.representative reg = v then u else round.representative reg := by
  have grown : after.merged.size = round.merged.size + 1 := by
    rw [inserted, Std.TreeMap.size_insert,
      if_neg fun contained => freshV (Std.TreeMap.contains_iff_mem.mp contained)]
  unfold representative
  rw [grown]
  exact follow_insert inserted freshV rootU different _ reg (rooted reg)

theorem Rooted.insert (rooted : round.Rooted) (inserted : after.merged = round.merged.insert v u)
    (freshV : v ∉ round.merged) (rootU : u ∉ round.merged) (different : u ≠ v) :
    after.Rooted := by
  intro reg
  rw [representative_insert rooted inserted freshV rootU different, inserted]
  split
  · exact not_mem_insert_merged rootU different
  · next unequal => exact not_mem_insert_merged (rooted reg) unequal

end Representatives

section Combining

variable {round : Round m} {u a b v : Reg}

theorem graph_addEdge (a b : Reg) :
    (round.addEdge a b).graph =
      if round.graph.isNewEdge a b then round.graph.addEdge a b else round.graph := by
  unfold addEdge
  split <;> rfl

theorem Shuffles.addEdge (round : Round m) (a b : Reg) : Shuffles round (round.addEdge a b) := by
  unfold Round.addEdge
  split
  · have counted : Shuffles { round with graph := round.graph.addEdge a b }
        (({ round with graph := round.graph.addEdge a b }.modifyDegree a (· + 1)).modifyDegree b
          (· + 1)) :=
      (Shuffles.modifyDegree _ a (· + 1)).trans (.modifyDegree _ b (· + 1))
    exact
      { counted with
        listed := fun reg => (counted.listed reg).trans
          (exists_congr fun list => by cases list <;> rfl)
        distinct := fun distinct => counted.distinct fun reg first second onFirst onSecond =>
          distinct reg first second (by cases first <;> exact onFirst)
            (by cases second <;> exact onSecond)
        ready := counted.ready }
  · exact .refl round

theorem weight_addEdge (round : Round m) (a b : Reg) : (round.addEdge a b).weight = round.weight := by
  unfold addEdge
  split
  · rw [weight_modifyDegree, weight_modifyDegree]
    rfl
  · rfl

theorem hasEdge_addEdge (undirected : round.graph.Undirected) {t : Reg} :
    (round.addEdge t u).graph.hasEdge a b = true ↔
      (t ≠ u ∧ ((a = t ∧ b = u) ∨ (a = u ∧ b = t))) ∨ round.graph.hasEdge a b = true := by
  rw [graph_addEdge]
  split
  · exact Graph.hasEdge_addEdge
  · next old =>
      constructor
      · exact .inr
      · rintro (⟨different, ends⟩ | edge)
        · have edge : round.graph.hasEdge t u = true := by
            rw [Graph.isNewEdge_iff] at old
            rw [← Bool.not_eq_false]
            exact fun new => old ⟨different, new⟩
          rcases ends with ⟨rfl, rfl⟩ | ⟨rfl, rfl⟩
          · exact edge
          · exact undirected.symm _ _ edge
        · exact edge

theorem undirected_addEdge (undirected : round.graph.Undirected) (t u : Reg) :
    (round.addEdge t u).graph.Undirected := by
  rw [graph_addEdge]
  split
  · exact undirected.addEdge t u
  · exact undirected

/-- Hands a neighbor `t` of a merged register over to `u`. -/
def handOver (u : Reg) (round : Round m) (t : Reg) : Round m :=
  (round.addEdge t u).decrementDegree t

theorem undirected_foldl_handOver (u : Reg) (ts : List Reg) (undirected : round.graph.Undirected) :
    (ts.foldl (handOver u) round).graph.Undirected := by
  induction ts generalizing round with
  | nil => exact undirected
  | cons t rest ih =>
      apply ih
      rw [handOver, graph_decrementDegree]
      exact undirected_addEdge undirected t u

theorem hasEdge_foldl_handOver (u : Reg) (ts : List Reg) (undirected : round.graph.Undirected)
    :
    (ts.foldl (handOver u) round).graph.hasEdge a b = true ↔
      (∃ t ∈ ts, t ≠ u ∧ ((a = t ∧ b = u) ∨ (a = u ∧ b = t))) ∨
        round.graph.hasEdge a b = true := by
  induction ts generalizing round with
  | nil => simp
  | cons t rest ih =>
      have next : (handOver u round t).graph = (round.addEdge t u).graph :=
        graph_decrementDegree _ t
      have undirectedNext : (handOver u round t).graph.Undirected :=
        next ▸ undirected_addEdge undirected t u
      rw [List.foldl_cons, ih undirectedNext, next, hasEdge_addEdge undirected]
      simp only [List.mem_cons, exists_eq_or_imp]
      rw [← or_assoc, or_comm (b := t ≠ u ∧ _)]

theorem Shuffles.handOver (u : Reg) (round : Round m) (t : Reg) :
    Shuffles round (handOver u round t) :=
  (Shuffles.addEdge round t u).trans (.decrementDegree _ t)

theorem weight_foldl_handOver_le (u : Reg) (ts : List Reg) (distinct : round.Distinct) :
    (ts.foldl (handOver u) round).weight ≤ round.weight := by
  induction ts generalizing round with
  | nil => exact Nat.le_refl _
  | cons t rest ih =>
      have joined := Shuffles.addEdge round t u
      have lighter := weight_decrementDegree_le (joined.distinct distinct) t
      rw [weight_addEdge] at lighter
      exact Nat.le_trans
        (ih ((Shuffles.handOver u round t).distinct distinct)) lighter

/-- The first part of merging `v` into `u`: `u` takes over the place and the copies of `v`. -/
def absorb (round : Round m) (u v : Reg) : Round m :=
  { round.leave v with
    merged := round.merged.insert v u
    moveLists := round.moveLists.insert u
      ((List.finRange m).filter fun move =>
        (round.moveLists.getD u []).contains move || (round.moveLists.getD v []).contains move) }

/-- The second part: the neighbors left to `v` are handed over. -/
def handAllOver (round : Round m) (u v : Reg) : Round m :=
  (((round.absorb u v).enableMoves [v]).adjacent v).foldl (handOver u)
    ((round.absorb u v).enableMoves [v])

theorem combine_eq (round : Round m) (u v : Reg) :
    round.combine u v =
      if (round.handAllOver u v).isSignificant u && (round.handAllOver u v).freezeList.contains u
      then (round.handAllOver u v).enter .spill u
      else round.handAllOver u v := rfl

theorem Shuffles.handAllOver (round : Round m) (u v : Reg) :
    Shuffles (round.absorb u v) (round.handAllOver u v) :=
  (Shuffles.enableMoves _ [v]).trans (.foldl (Shuffles.handOver u) _ _)

theorem Shuffles.combine (round : Round m) (u v : Reg) :
    Shuffles (round.absorb u v) (round.combine u v) := by
  rw [combine_eq]
  split
  · next high =>
      simp only [Bool.and_eq_true, Std.TreeMap.contains_iff_mem] at high
      refine (Shuffles.handAllOver round u v).trans (.enter ⟨.freeze, high.2⟩ ?_)
      intro isSimplify
      cases isSimplify
  · exact .handAllOver round u v

theorem graph_combine (round : Round m) (u v : Reg) :
    (round.combine u v).graph = (round.handAllOver u v).graph := by
  rw [combine_eq]
  split
  · exact graph_enter _ _ _
  · rfl

theorem undirected_combine (undirected : round.graph.Undirected) (u v : Reg) :
    (round.combine u v).graph.Undirected := by
  rw [graph_combine]
  apply undirected_foldl_handOver
  rw [graph_enableMoves]
  exact undirected

theorem on_absorb {reg : Reg} {list : Worklist} :
    (round.absorb u v).On list reg ↔ reg ≠ v ∧ round.On list reg := by
  rw [← on_leave]
  cases list <;> rfl

/-- Merging joins `u` with the neighbors of `v` that are still in the graph. -/
theorem hasEdge_combine (undirected : round.graph.Undirected) :
    (round.combine u v).graph.hasEdge a b = true ↔
      (∃ t, round.graph.hasEdge v t = true ∧ (round.absorb u v).isPresent t = true ∧ t ≠ u ∧
        ((a = t ∧ b = u) ∨ (a = u ∧ b = t))) ∨
        round.graph.hasEdge a b = true := by
  rw [graph_combine, handAllOver, hasEdge_foldl_handOver u _ (by
    rw [graph_enableMoves]
    exact undirected)]
  simp only [mem_adjacent, (Shuffles.enableMoves (round.absorb u v) [v]).isPresent,
    graph_enableMoves, and_assoc]
  exact Iff.rfl

/-- A merged register that was not ready to be stacked leaves the round lighter. -/
theorem weight_combine_lt (distinct : round.Distinct) (u : Reg) {list : Worklist}
    (on : round.On list v) (waits : list ≠ .simplify) :
    (round.combine u v).weight < round.weight := by
  have left := weight_leave distinct on
  have sameWeight : (round.absorb u v).weight = (round.leave v).weight := rfl
  have absorbed : (round.absorb u v).Distinct := by
    intro reg first second onFirst onSecond
    exact distinct reg first second (on_absorb.mp onFirst).2 (on_absorb.mp onSecond).2
  have enabled := weight_enableMoves_le (round.absorb u v) [v]
  have given := weight_foldl_handOver_le u (((round.absorb u v).enableMoves [v]).adjacent v)
    ((Shuffles.enableMoves (round.absorb u v) [v]).distinct absorbed)
  change (round.handAllOver u v).weight ≤ _ at given
  have heavy : 2 * m + 2 ≤ cost m list := by
    cases list with
    | simplify => exact absurd rfl waits
    | freeze => exact Nat.le_refl _
    | spill =>
        simp only [cost]
        omega
  rw [combine_eq]
  split
  · next high =>
      simp only [Bool.and_eq_true, Std.TreeMap.contains_iff_mem] at high
      have moved := weight_enter .spill
        ((Shuffles.handAllOver round u v).distinct absorbed)
        (show (round.handAllOver u v).On .freeze u from high.2)
      simp only [cost] at moved
      omega
  · omega

end Combining

end Lowering.Machine.Round
