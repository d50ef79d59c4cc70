import Lowering.Flow.Edges
import Lowering.Proofs.Repetitions

/-!
# Edge tables and the flow graph they come from

The loop that fills the tables stops at the first successor that is not a block.  Without one, the
successors of a block end up as its targets without repetitions, and the predecessors of a block as
the ascending blocks that have it for a target.
-/

namespace Lowering

namespace Edges

variable {n : Nat} {graph : FlowGraph n} {edges : Edges n} {block : Fin n}
  {succ : Fin n → List (Fin n)} {blocks : List (Fin n)}

/-- The tables of a successor function, each entry on its own. -/
def ofSuccs (succ : Fin n → List (Fin n)) : Edges n :=
  let succs := Table.tabulate fun block => (succ block).eraseDups
  { succs
    preds := Table.tabulate fun target =>
      (List.finRange n).filter fun block => (succs.get block).contains target }

/-- The first successor that is not a block. -/
def fault? (graph : FlowGraph n) : Option Fault :=
  (List.finRange n).findSome? fun block =>
    (graph.stray? block).map fun target => .missingTarget block target

theorem fault?_eq_none_iff :
    fault? graph = none ↔ ∀ block, ∀ target ∈ graph.succs block, target < n := by
  unfold fault?
  simp [FlowGraph.stray?_eq_none_iff]

theorem succs_ofSuccs (succ : Fin n → List (Fin n)) (a : Fin n) :
    (ofSuccs succ).succs.get a = (succ a).eraseDups := by
  unfold ofSuccs
  exact Table.get_tabulate _ a

theorem mem_succs_ofSuccs {a b : Fin n} :
    b ∈ (ofSuccs succ).succs.get a ↔ b ∈ succ a := by
  rw [succs_ofSuccs, List.mem_eraseDups]

/-- The tables are transposes of each other. -/
theorem mem_preds_ofSuccs {a b : Fin n} :
    a ∈ (ofSuccs succ).preds.get b ↔ b ∈ (ofSuccs succ).succs.get a := by
  unfold ofSuccs
  simp

theorem ascending_preds_ofSuccs (succ : Fin n → List (Fin n)) (b : Fin n) :
    ((ofSuccs succ).preds.get b).Pairwise (· < ·) := by
  unfold ofSuccs
  rw [Table.get_tabulate]
  exact (List.pairwise_lt_finRange n).filter _

theorem enter_of_mem {target : Fin n} (listed : target ∈ edges.succs.get block) :
    edges.enter block target = edges :=
  if_pos (List.contains_iff_mem.mpr listed)

theorem enter_of_not_mem {target : Fin n} (unlisted : target ∉ edges.succs.get block) :
    edges.enter block target =
      ⟨edges.succs.modify block (· ++ [target]), edges.preds.modify target (· ++ [block])⟩ :=
  if_neg fun listed => unlisted (List.contains_iff_mem.mp listed)

/-- One row of successors is listed without repetitions, and the block is appended to the
predecessors of each of them. -/
theorem foldl_enter (row : List (Fin n)) (fresh : edges.succs.get block = []) :
    (∀ b, (row.foldl (enter block) edges).succs.get b =
      if block = b then row.eraseDups else edges.succs.get b) ∧
    ∀ s, (row.foldl (enter block) edges).preds.get s =
      if row.contains s then edges.preds.get s ++ [block] else edges.preds.get s := by
  induction row using List.reverseRecOn with
  | nil =>
      refine ⟨fun b => ?_, fun s => rfl⟩
      by_cases same : block = b
      · rw [if_pos same, ← same]
        exact fresh
      · rw [if_neg same]
        rfl
  | append_singleton row target ih =>
      obtain ⟨succs, preds⟩ := ih
      have own : (row.foldl (enter block) edges).succs.get block = row.eraseDups :=
        (succs block).trans (if_pos rfl)
      rw [List.foldl_append, List.foldl_cons, List.foldl_nil, eraseDups_concat]
      -- The successors alone are asked, but the block is a predecessor of just those it has listed.
      by_cases listed : target ∈ row
      · rw [enter_of_mem (own ▸ List.mem_eraseDups.mpr listed), if_pos listed]
        refine ⟨succs, fun s => (preds s).trans (if_congr ?_ rfl rfl)⟩
        rw [List.contains_iff_mem, List.contains_iff_mem, List.mem_append, List.mem_singleton]
        exact ⟨.inl, fun either => either.elim id fun same => same ▸ listed⟩
      · rw [enter_of_not_mem fun member => listed (List.mem_eraseDups.mp (own ▸ member)),
          if_neg listed]
        refine ⟨fun b => ?_, fun s => ?_⟩
        · rw [Table.get_modify, succs b, own]
          split <;> rfl
        · rw [Table.get_modify, preds s, preds target, if_neg (mt List.contains_iff_mem.mp listed)]
          by_cases same : target = s
          · rw [if_pos same, same, if_pos (List.contains_iff_mem.mpr List.mem_concat_self)]
          · have still : (row ++ [target]).contains s = true ↔ row.contains s = true := by
              rw [List.contains_iff_mem, List.contains_iff_mem, List.mem_append, List.mem_singleton]
              exact or_iff_left fun equal => same equal.symm
            rw [if_neg same, if_congr still rfl rfl]

theorem enterAll_map_val (row : List (Fin n)) :
    edges.enterAll block (row.map Fin.val) = .ok (row.foldl (enter block) edges) := by
  induction row generalizing edges with
  | nil => rfl
  | cons target rest ih =>
      rw [List.map_cons, enterAll, dif_pos target.isLt]
      exact ih

theorem enterAll_of_stray {raw : List Nat} {target : Nat}
    (found : (raw.find? fun target => !decide (target < n)) = some target) :
    edges.enterAll block raw = .error (.missingTarget block target) := by
  induction raw generalizing edges with
  | nil => cases found
  | cons first rest ih =>
      rw [enterAll]
      by_cases inside : first < n
      · rw [dif_pos inside]
        exact ih (by simpa [inside] using found)
      · have same : first = target := by simpa [inside] using found
        rw [dif_neg inside, same]

/-- Lists all edges of a block. -/
def fill (graph : FlowGraph n) (edges : Edges n) (block : Fin n) : Edges n :=
  (graph.targets block).foldl (enter block) edges

theorem enterAll_of_stray?_eq_none (closed : graph.stray? block = none) :
    edges.enterAll block (graph.succs block) = .ok (fill graph edges block) := by
  rw [← FlowGraph.map_val_targets closed, enterAll_map_val]
  rfl

theorem foldl_fill (graph : FlowGraph n) (distinct : blocks.Nodup)
    (fresh : ∀ b ∈ blocks, edges.succs.get b = []) :
    (∀ b, (blocks.foldl (fill graph) edges).succs.get b =
      if blocks.contains b then (graph.targets b).eraseDups else edges.succs.get b) ∧
    ∀ s, (blocks.foldl (fill graph) edges).preds.get s =
      edges.preds.get s ++ blocks.filter fun b => (graph.targets b).contains s := by
  induction blocks generalizing edges with
  | nil => exact ⟨fun b => rfl, fun s => (List.append_nil _).symm⟩
  | cons first rest ih =>
      obtain ⟨absent, restDistinct⟩ := List.nodup_cons.mp distinct
      obtain ⟨succs, preds⟩ := foldl_enter (graph.targets first) (fresh first List.mem_cons_self)
      have restFresh : ∀ b ∈ rest, (fill graph edges first).succs.get b = [] := by
        intro b member
        have different : first ≠ b := fun same => absent (same ▸ member)
        exact ((succs b).trans (if_neg different)).trans (fresh b (List.mem_cons_of_mem _ member))
      obtain ⟨laterSuccs, laterPreds⟩ := ih restDistinct restFresh
      refine ⟨fun b => ?_, fun s => ?_⟩
      · rw [List.foldl_cons, laterSuccs, fill, succs]
        by_cases same : first = b
        · rw [← same, if_neg (mt List.contains_iff_mem.mp absent), if_pos rfl,
            if_pos (List.contains_iff_mem.mpr List.mem_cons_self)]
        · rw [if_neg same]
          refine if_congr ?_ rfl rfl
          rw [List.contains_iff_mem, List.contains_iff_mem, List.mem_cons]
          exact (or_iff_right fun equal => same equal.symm).symm
      · rw [List.foldl_cons, laterPreds, fill, preds, List.filter_cons]
        split
        · exact List.append_assoc _ _ _
        · rfl

/-- All blocks listed in turn give the tables of the targets. -/
theorem foldl_fill_finRange :
    (List.finRange n).foldl (fill graph) empty = ofSuccs graph.targets := by
  have fresh : ∀ b ∈ List.finRange n, (empty : Edges n).succs.get b = [] :=
    fun b _ => Table.get_replicate [] b
  obtain ⟨succs, preds⟩ := foldl_fill graph (List.nodup_finRange n) fresh
  have sameSuccs : ((List.finRange n).foldl (fill graph) empty).succs =
      (ofSuccs graph.targets).succs := by
    refine Table.ext fun b => ?_
    rw [succs, if_pos (List.contains_iff_mem.mpr (List.mem_finRange b)), succs_ofSuccs]
  have samePreds : ((List.finRange n).foldl (fill graph) empty).preds =
      (ofSuccs graph.targets).preds := by
    refine Table.ext fun s => ?_
    rw [preds]
    unfold ofSuccs empty
    simp
  exact congrArg₂ Edges.mk sameSuccs samePreds

theorem foldlM_enterAll (closed : ∀ block ∈ blocks, graph.stray? block = none) :
    blocks.foldlM (fun edges block => edges.enterAll block (graph.succs block)) edges =
      .ok (blocks.foldl (fill graph) edges) := by
  induction blocks generalizing edges with
  | nil => rfl
  | cons first rest ih =>
      obtain ⟨firstClosed, restClosed⟩ := List.forall_mem_cons.mp closed
      rw [List.foldlM_cons, enterAll_of_stray?_eq_none firstClosed]
      exact ih restClosed

theorem foldlM_enterAll_of_fault {fault : Fault}
    (found : (blocks.findSome? fun block =>
      (graph.stray? block).map fun target => Fault.missingTarget block target) = some fault) :
    blocks.foldlM (fun edges block => edges.enterAll block (graph.succs block)) edges =
      .error fault := by
  induction blocks generalizing edges with
  | nil => cases found
  | cons first rest ih =>
      rw [List.foldlM_cons]
      cases stray : graph.stray? first with
      | none =>
          rw [enterAll_of_stray?_eq_none stray]
          exact ih (by simpa [stray] using found)
      | some target =>
          have same : Fault.missingTarget first target = fault := by simpa [stray] using found
          rw [enterAll_of_stray stray, same]
          rfl

theorem build_of_fault?_eq_none (closed : fault? graph = none) :
    build graph = .ok (ofSuccs graph.targets) := by
  have inside : ∀ block ∈ List.finRange n, graph.stray? block = none := fun block _ =>
    FlowGraph.stray?_eq_none_iff.mpr (fault?_eq_none_iff.mp closed block)
  rw [build, foldlM_enterAll inside, foldl_fill_finRange]

/-- Tables are built from graphs whose successors are blocks. -/
theorem build_eq_ok_iff :
    build graph = .ok edges ↔
      (∀ block, ∀ target ∈ graph.succs block, target < n) ∧ edges = ofSuccs graph.targets := by
  rw [← fault?_eq_none_iff]
  cases found : fault? graph with
  | none => simp [build_of_fault?_eq_none found, eq_comm]
  | some fault => simp [build, foldlM_enterAll_of_fault found]

theorem build_eq_error_iff {fault : Fault} :
    build graph = .error fault ↔ fault? graph = some fault := by
  cases found : fault? graph with
  | none => simp [build_of_fault?_eq_none found]
  | some first => simp [build, foldlM_enterAll_of_fault found]

theorem map_val_succs (built : build graph = .ok edges) (b : Fin n) :
    (edges.succs.get b).map Fin.val = (graph.succs b).eraseDups := by
  obtain ⟨closed, rfl⟩ := build_eq_ok_iff.mp built
  rw [succs_ofSuccs, ← FlowGraph.map_val_targets (FlowGraph.stray?_eq_none_iff.mpr (closed b)),
    eraseDups_map fun _ _ => Fin.ext]

theorem targets_toGraph (edges : Edges n) (b : Fin n) :
    edges.toGraph.targets b = edges.succs.get b := by
  refine List.map_injective_iff.mpr (fun _ _ => Fin.ext) (FlowGraph.map_val_targets ?_)
  refine FlowGraph.stray?_eq_none_iff.mpr fun target member => ?_
  obtain ⟨s, _, rfl⟩ := List.mem_map.mp member
  exact s.isLt

/-- The tables depend on the successors without their repetitions only. -/
theorem ofSuccs_congr {other : Fin n → List (Fin n)}
    (same : ∀ b, (succ b).eraseDups = (other b).eraseDups) : ofSuccs succ = ofSuccs other := by
  unfold ofSuccs
  rw [funext same]

/-- Tables built from tables are the same again. -/
theorem build_toGraph (built : build graph = .ok edges) : build edges.toGraph = .ok edges := by
  obtain ⟨_, rfl⟩ := build_eq_ok_iff.mp built
  refine build_eq_ok_iff.mpr ⟨fun b target member => ?_, ofSuccs_congr fun b => ?_⟩
  · obtain ⟨s, _, rfl⟩ := List.mem_map.mp member
    exact s.isLt
  · rw [targets_toGraph, succs_ofSuccs, eraseDups_eraseDups]

/-- Building the tables of a flow graph fails exactly if some block has a successor that is not a
block.  Tables that are built list the edges of the graph at both ends, the successors without
repetitions in the order of their first occurrence and the predecessors in ascending order, and
building from them again changes nothing. -/
theorem build_transposed (graph : FlowGraph n) :
    ((∃ fault, build graph = .error fault) ↔ ∃ block, ∃ target ∈ graph.succs block, n ≤ target) ∧
    ∀ edges, build graph = .ok edges →
      (∀ b s : Fin n, (s ∈ edges.succs.get b ↔ s.val ∈ graph.succs b) ∧
        (s.val ∈ graph.succs b ↔ b ∈ edges.preds.get s)) ∧
      (∀ b, (edges.succs.get b).Nodup ∧ (edges.succs.get b).Pairwise fun s t =>
        (graph.succs b).idxOf s.val < (graph.succs b).idxOf t.val) ∧
      (∀ s, (edges.preds.get s).Pairwise (· < ·)) ∧
      build edges.toGraph = .ok edges := by
  refine ⟨?_, fun edges built => ⟨fun b s => ?_, fun b => ?_, fun s => ?_, build_toGraph built⟩⟩
  · simp only [build_eq_error_iff, ← Option.isSome_iff_exists, ← Option.ne_none_iff_isSome]
    rw [ne_eq, fault?_eq_none_iff]
    simp
  · obtain ⟨_, rfl⟩ := build_eq_ok_iff.mp built
    rw [mem_preds_ofSuccs, mem_succs_ofSuccs, FlowGraph.mem_targets]
    exact ⟨Iff.rfl, Iff.rfl⟩
  · have ordered : ((edges.succs.get b).map Fin.val).Pairwise fun s t =>
        (graph.succs b).idxOf s < (graph.succs b).idxOf t := by
      rw [map_val_succs built]
      exact pairwise_idxOf_eraseDups (graph.succs b)
    have firsts := List.pairwise_map.mp ordered
    refine ⟨?_, firsts⟩
    obtain ⟨_, rfl⟩ := build_eq_ok_iff.mp built
    rw [succs_ofSuccs]
    exact nodup_eraseDups (graph.targets b)
  · obtain ⟨_, rfl⟩ := build_eq_ok_iff.mp built
    exact ascending_preds_ofSuccs graph.targets s

/-- The middle block names the last one twice, around the first. -/
def returningTwice : FlowGraph 3 := ⟨[[1, 1], [2, 0, 2], []].get⟩

theorem build_transposed_returningTwice :
    ∃ edges, build returningTwice = .ok edges ∧
      edges.succs.get ⟨1, by decide⟩ = [⟨2, by decide⟩, ⟨0, by decide⟩] ∧
      ⟨1, by decide⟩ ∈ edges.preds.get ⟨2, by decide⟩ ∧ build edges.toGraph = .ok edges := by
  have built : build returningTwice = .ok (ofSuccs returningTwice.targets) :=
    build_eq_ok_iff.mpr ⟨by decide, rfl⟩
  obtain ⟨listed, _, _, again⟩ := (build_transposed returningTwice).2 _ built
  exact ⟨_, built, by decide, (listed ⟨1, by decide⟩ ⟨2, by decide⟩).2.mp (by decide), again⟩

end Edges

end Lowering
