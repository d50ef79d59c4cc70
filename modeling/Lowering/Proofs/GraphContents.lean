import Mathlib.Data.List.Perm.Basic
import Mathlib.Data.List.Nodup
import Lowering.Order
import Lowering.Proofs.Graph

/-!
# What a graph holds

A graph is compared with the additions that made it.  Both directions of its edges are listed once
as arcs, which the rows of neighbors count; since edges have no direction, an addition that reports
a new edge adds two arcs, and any other none.
-/

namespace Lowering.Graph

variable {α : Type} {cmp : α → α → Ordering}

/-- What is added to a graph. -/
inductive Action (α : Type) where
  | node (a : α)
  | edge (a b : α)

def act (graph : Graph α cmp) : Action α → Graph α cmp
  | .node a => graph.addNode a
  | .edge a b => graph.addEdge a b

/-- The graph after a history of additions. -/
def after (cmp : α → α → Ordering) (history : List (Action α)) : Graph α cmp :=
  history.foldl act empty

/-- What the additions of edges report in turn: is the edge new? -/
def reports (graph : Graph α cmp) : List (Action α) → List Bool
  | [] => []
  | .node a :: rest => (graph.addNode a).reports rest
  | .edge a b :: rest => graph.isNewEdge a b :: (graph.addEdge a b).reports rest

/-- The edges in both directions. -/
def arcs (graph : Graph α cmp) : List (α × α) :=
  graph.nodes.flatMap fun a => (graph.neighbors a).map (Prod.mk a)

variable [Std.TransCmp cmp] [Std.LawfulEqCmp cmp] {graph : Graph α cmp} {history : List (Action α)}
  {a b : α}

theorem mem_arcs : (a, b) ∈ graph.arcs ↔ graph.hasEdge a b = true := by
  unfold arcs
  rw [List.mem_flatMap]
  constructor
  · rintro ⟨c, _, member⟩
    obtain ⟨d, listed, same⟩ := List.mem_map.mp member
    obtain ⟨rfl, rfl⟩ := Prod.mk.inj same
    exact mem_neighbors.mp listed
  · intro edge
    exact ⟨a, mem_nodes_of_hasEdge edge, List.mem_map.mpr ⟨b, mem_neighbors.mpr edge, rfl⟩⟩

theorem nodup_neighbors (graph : Graph α cmp) (a : α) : (graph.neighbors a).Nodup := by
  unfold neighbors neighbors?
  cases graph.adjacency.get? a with
  | none => exact List.nodup_nil
  | some row =>
      exact row.distinct_toList.imp fun different equal =>
        different (Std.LawfulEqCmp.compare_eq_iff_eq.mpr equal)

theorem nodup_arcs (graph : Graph α cmp) : graph.arcs.Nodup := by
  refine List.nodup_flatMap.mpr ⟨fun a _ => ?_, graph.nodes_nodup.imp fun different => ?_⟩
  · exact (graph.nodup_neighbors a).map fun _ _ same => (Prod.mk.inj same).2
  · intro arc first second
    obtain ⟨_, _, rfl⟩ := List.mem_map.mp first
    obtain ⟨_, _, same⟩ := List.mem_map.mp second
    exact different (Prod.mk.inj same).1.symm

/-- The sizes of the rows add up to the number of arcs. -/
theorem edgeCount_eq (graph : Graph α cmp) : graph.edgeCount = graph.arcs.length / 2 := by
  have rows : graph.adjacency.toList.map (fun entry => entry.2.size) =
      graph.nodes.map fun a => ((graph.neighbors a).map (Prod.mk a)).length := by
    unfold nodes
    rw [← Std.TreeMap.map_fst_toList_eq_keys, List.map_map]
    refine List.map_congr_left fun entry member => ?_
    have found : graph.adjacency[entry.1]? = some entry.2 :=
      Std.TreeMap.mem_toList_iff_getElem?_eq_some.mp member
    rw [Function.comp_apply, List.length_map, neighbors, neighbors?,
      Std.TreeMap.get?_eq_getElem?, found]
    exact Std.TreeSet.length_toList.symm
  unfold edgeCount arcs
  rw [Std.TreeMap.foldl_eq_foldl_toList, List.length_flatMap, ← rows, List.sum_eq_foldl,
    List.foldl_map]

theorem length_arcs_congr {other : Graph α cmp}
    (same : ∀ a b, other.hasEdge a b = true ↔ graph.hasEdge a b = true) :
    other.arcs.length = graph.arcs.length := by
  refine ((List.perm_ext_iff_of_nodup other.nodup_arcs graph.nodup_arcs).mpr ?_).length_eq
  intro arc
  exact mem_arcs.trans ((same arc.1 arc.2).trans mem_arcs.symm)

/-- A new edge lies between two nodes that no edge joins in the other direction either. -/
theorem length_arcs_addEdge_of_new (undirected : graph.Undirected)
    (new : graph.isNewEdge a b = true) :
    (graph.addEdge a b).arcs.length = graph.arcs.length + 2 := by
  obtain ⟨different, absent⟩ := isNewEdge_iff.mp new
  have unlisted : (a, b) ∉ graph.arcs := fun member => by
    rw [mem_arcs.mp member] at absent
    cases absent
  have reverse : (b, a) ∉ graph.arcs := fun member =>
    unlisted (mem_arcs.mpr (undirected.symm b a (mem_arcs.mp member)))
  have distinct : ((a, b) :: (b, a) :: graph.arcs).Nodup := by
    refine List.nodup_cons.mpr ⟨?_, List.nodup_cons.mpr ⟨reverse, graph.nodup_arcs⟩⟩
    rw [List.mem_cons]
    rintro (same | member)
    · exact different (Prod.mk.inj same).1
    · exact unlisted member
  refine ((List.perm_ext_iff_of_nodup (graph.addEdge a b).nodup_arcs distinct).mpr ?_).length_eq
  rintro ⟨c, d⟩
  rw [mem_arcs, hasEdge_addEdge, List.mem_cons, List.mem_cons, Prod.mk.injEq, Prod.mk.injEq, mem_arcs,
    and_iff_right different, or_assoc]

theorem length_arcs_addEdge_of_old (undirected : graph.Undirected)
    (old : graph.isNewEdge a b = false) : (graph.addEdge a b).arcs.length = graph.arcs.length := by
  refine length_arcs_congr fun c d => ?_
  rw [hasEdge_addEdge]
  refine or_iff_right_of_imp ?_
  rintro ⟨different, ends⟩
  have present : graph.hasEdge a b = true := by
    by_contra absent
    rw [isNewEdge_iff.mpr ⟨different, Bool.eq_false_iff.mpr absent⟩] at old
    cases old
  rcases ends with ⟨rfl, rfl⟩ | ⟨rfl, rfl⟩
  · exact present
  · exact undirected.symm _ _ present

theorem Undirected.act (undirected : graph.Undirected) (action : Action α) :
    (graph.act action).Undirected := by
  cases action with
  | node a => exact undirected.addNode a
  | edge a b => exact undirected.addEdge a b

theorem Undirected.foldl_act (undirected : graph.Undirected) (history : List (Action α)) :
    (history.foldl Graph.act graph).Undirected := by
  induction history generalizing graph with
  | nil => exact undirected
  | cons action rest ih => exact ih (undirected.act action)

/-- Every report of a new edge adds two arcs. -/
theorem length_arcs_foldl_act (undirected : graph.Undirected) (history : List (Action α)) :
    (history.foldl act graph).arcs.length =
      graph.arcs.length + 2 * (graph.reports history).count true := by
  induction history generalizing graph with
  | nil => rfl
  | cons action rest ih =>
      have later := ih (undirected.act action)
      rw [List.foldl_cons, later]
      cases action with
      | node a =>
          have same : (graph.addNode a).arcs.length = graph.arcs.length :=
            length_arcs_congr fun c d => by rw [hasEdge_addNode]
          rw [reports, act, same]
      | edge a b =>
          rw [reports, act, List.count_cons]
          cases new : graph.isNewEdge a b with
          | true =>
              rw [length_arcs_addEdge_of_new undirected new]
              simp
              omega
          | false =>
              rw [length_arcs_addEdge_of_old undirected new]
              simp

theorem hasEdge_act {action : Action α} :
    (graph.act action).hasEdge a b = true ↔
      (a ≠ b ∧ (.edge a b = action ∨ .edge b a = action)) ∨ graph.hasEdge a b = true := by
  cases action with
  | node c => simp [act]
  | edge c d =>
      rw [act, hasEdge_addEdge]
      refine or_congr_left ⟨?_, ?_⟩
      · rintro ⟨different, ⟨rfl, rfl⟩ | ⟨rfl, rfl⟩⟩
        · exact ⟨different, .inl rfl⟩
        · exact ⟨different.symm, .inr rfl⟩
      · rintro ⟨different, same | same⟩
        · obtain ⟨rfl, rfl⟩ := Action.edge.inj same
          exact ⟨different, .inl ⟨rfl, rfl⟩⟩
        · obtain ⟨rfl, rfl⟩ := Action.edge.inj same
          exact ⟨different.symm, .inr ⟨rfl, rfl⟩⟩

theorem mem_nodes_act {action : Action α} :
    a ∈ (graph.act action).nodes ↔
      (.node a = action ∨ ∃ b, b ≠ a ∧ (.edge a b = action ∨ .edge b a = action)) ∨
        a ∈ graph.nodes := by
  cases action with
  | node c => simp [act]
  | edge c d =>
      rw [act, mem_nodes_addEdge]
      refine or_congr_left ⟨?_, ?_⟩
      · rintro ⟨different, rfl | rfl⟩
        · exact .inr ⟨d, different.symm, .inl rfl⟩
        · exact .inr ⟨c, different, .inr rfl⟩
      · rintro (same | ⟨b, different, same | same⟩)
        · cases same
        · obtain ⟨rfl, rfl⟩ := Action.edge.inj same
          exact ⟨different.symm, .inl rfl⟩
        · obtain ⟨rfl, rfl⟩ := Action.edge.inj same
          exact ⟨different, .inr rfl⟩

theorem hasEdge_foldl_act (graph : Graph α cmp) (history : List (Action α)) :
    (history.foldl act graph).hasEdge a b = true ↔
      (a ≠ b ∧ (.edge a b ∈ history ∨ .edge b a ∈ history)) ∨ graph.hasEdge a b = true := by
  induction history generalizing graph with
  | nil => simp
  | cons action rest ih =>
      rw [List.foldl_cons, ih, hasEdge_act, List.mem_cons, List.mem_cons]
      grind

theorem mem_nodes_foldl_act (graph : Graph α cmp) (history : List (Action α)) :
    a ∈ (history.foldl act graph).nodes ↔
      (.node a ∈ history ∨ ∃ b, b ≠ a ∧ (.edge a b ∈ history ∨ .edge b a ∈ history)) ∨
        a ∈ graph.nodes := by
  induction history generalizing graph with
  | nil => simp
  | cons action rest ih =>
      rw [List.foldl_cons, ih, mem_nodes_act]
      simp only [List.mem_cons]
      grind

theorem isSome_neighbors?_iff : (graph.neighbors? a).isSome = true ↔ a ∈ graph.nodes := by
  rw [mem_nodes, Std.TreeMap.mem_iff_isSome_getElem?, neighbors?, Option.isSome_map]
  rfl

theorem hasEdge_after (history : List (Action α)) :
    (after cmp history).hasEdge a b = true ↔
      a ≠ b ∧ (.edge a b ∈ history ∨ .edge b a ∈ history) := by
  rw [after, hasEdge_foldl_act, hasEdge_empty]
  exact or_iff_left Bool.false_ne_true

/-- A graph made by additions is symmetric and without loops, and has the edges that were added in one
direction or the other, between the nodes that were added alone or as ends of an edge.  An addition
reports a new edge if it names two different nodes that no addition before has joined, and as many
edges are counted as were reported. -/
theorem after_represents (history : List (Action α)) :
    (after cmp history).Undirected ∧
    (∀ a b, b ∈ (after cmp history).neighbors a ↔ (after cmp history).hasEdge a b = true) ∧
    (∀ a b, (after cmp history).hasEdge a b = true ↔
      a ≠ b ∧ (.edge a b ∈ history ∨ .edge b a ∈ history)) ∧
    (∀ a, ((after cmp history).neighbors? a).isSome = true ↔
      .node a ∈ history ∨ ∃ b, b ≠ a ∧ (.edge a b ∈ history ∨ .edge b a ∈ history)) ∧
    (∀ before a b later, history = before ++ .edge a b :: later →
      ((after cmp before).isNewEdge a b = true ↔
        a ≠ b ∧ ¬ (.edge a b ∈ before ∨ .edge b a ∈ before))) ∧
    (after cmp history).edgeCount = ((empty : Graph α cmp).reports history).count true := by
  have undirected : (empty : Graph α cmp).Undirected := .empty
  refine ⟨undirected.foldl_act history, fun a b => mem_neighbors, fun a b => hasEdge_after history,
    fun a => ?_, fun before a b later _ => ?_, ?_⟩
  · rw [isSome_neighbors?_iff, after, mem_nodes_foldl_act]
    exact or_iff_left List.not_mem_nil
  · rw [isNewEdge_iff, ← Bool.not_eq_true, hasEdge_after]
    exact and_congr_right fun different => not_congr (and_iff_right different)
  · have counted := length_arcs_foldl_act undirected history
    have none : (empty : Graph α cmp).arcs.length = 0 := rfl
    rw [edgeCount_eq, after, counted, none]
    omega

theorem after_represents_repeating :
    let history : List (Action Nat) := [.edge 1 2, .edge 2 1, .edge 3 3, .node 4]
    (after byNumber history).hasEdge 2 1 = true ∧
      ((after byNumber history).neighbors? 3).isSome = false ∧
      ((after byNumber history).neighbors? 4).isSome = true ∧
      (after byNumber [.edge 1 2]).isNewEdge 2 1 = false ∧
      (after byNumber history).edgeCount = 1 := by
  intro history
  obtain ⟨_, _, edges, nodes, news, count⟩ := @after_represents Nat byNumber _ _ history
  refine ⟨(edges 2 1).mpr (by simp [history]), ?_, (nodes 4).mpr (by simp [history]), ?_, count⟩
  · exact Bool.eq_false_iff.mpr fun some => by simpa [history] using (nodes 3).mp some
  · exact Bool.eq_false_iff.mpr fun new =>
      absurd ((news [.edge 1 2] 2 1 _ rfl).mp new).2 (by simp)

end Lowering.Graph
