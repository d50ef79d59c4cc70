import Lowering.Graph

/-!
# Edges of undirected graphs

Adding a node changes no edge, adding an edge changes just that edge in both directions.  A graph
is seen through `hasEdge`; its rows of neighbors list the same edges.
-/

namespace Lowering.Graph

variable {α : Type} {cmp : α → α → Ordering} {graph : Graph α cmp} {a b : α}

theorem hasEdge_iff :
    graph.hasEdge a b = true ↔ ∃ row, graph.adjacency[a]? = some row ∧ b ∈ row := by
  unfold hasEdge
  rw [Std.TreeMap.get?_eq_getElem?]
  cases found : graph.adjacency[a]? with
  | none => simp
  | some row => simp

@[simp]
theorem hasEdge_empty (a b : α) : (empty : Graph α cmp).hasEdge a b = false := by
  unfold hasEdge empty
  rw [Std.TreeMap.get?_eq_getElem?]
  rfl

/-- Edges have no direction and join different nodes. -/
structure Undirected (graph : Graph α cmp) : Prop where
  symm : ∀ a b, graph.hasEdge a b = true → graph.hasEdge b a = true
  irrefl : ∀ a, graph.hasEdge a a = false

theorem Undirected.empty : Undirected (empty : Graph α cmp) where
  symm a b edge := by simp at edge
  irrefl a := by simp

theorem isNewEdge_iff [Std.LawfulEqCmp cmp] :
    graph.isNewEdge a b = true ↔ a ≠ b ∧ graph.hasEdge a b = false := by
  unfold isNewEdge
  simp [Std.LawfulEqCmp.compare_eq_iff_eq]

variable [Std.TransCmp cmp] [Std.LawfulEqCmp cmp] {c d : α}

theorem mem_neighbors :
    b ∈ graph.neighbors a ↔ graph.hasEdge a b = true := by
  rw [hasEdge_iff]
  unfold neighbors neighbors?
  rw [Std.TreeMap.get?_eq_getElem?]
  cases found : graph.adjacency[a]? with
  | none => simp
  | some row => simp

theorem mem_nodes : a ∈ graph.nodes ↔ a ∈ graph.adjacency := by
  unfold nodes
  exact Std.TreeMap.mem_keys

theorem nodes_nodup (graph : Graph α cmp) : graph.nodes.Nodup :=
  graph.adjacency.distinct_keys.imp fun different equal =>
    different (Std.LawfulEqCmp.compare_eq_iff_eq.mpr equal)

theorem mem_nodes_of_hasEdge (edge : graph.hasEdge a b = true) :
    a ∈ graph.nodes := by
  obtain ⟨row, found, _⟩ := hasEdge_iff.mp edge
  rw [mem_nodes, Std.TreeMap.mem_iff_isSome_getElem?, found]
  rfl

@[simp]
theorem hasEdge_addNode (graph : Graph α cmp) (c a b : α) :
    (graph.addNode c).hasEdge a b = graph.hasEdge a b := by
  rw [Bool.eq_iff_iff, hasEdge_iff, hasEdge_iff]
  unfold addNode
  simp only [Std.TreeMap.getElem?_insertIfNew]
  split
  · next added =>
      have same : c = a := Std.LawfulEqCmp.eq_of_compare added.1
      have absent : graph.adjacency[a]? = none := Std.TreeMap.getElem?_eq_none (same ▸ added.2)
      simp [absent]
  · rfl

@[simp]
theorem mem_nodes_addNode :
    a ∈ (graph.addNode c).nodes ↔ a = c ∨ a ∈ graph.nodes := by
  rw [mem_nodes, mem_nodes]
  unfold addNode
  rw [Std.TreeMap.mem_insertIfNew, Std.LawfulEqCmp.compare_eq_iff_eq, eq_comm]

theorem mem_nodes_foldl_addNode (added : List α) (graph : Graph α cmp) :
    a ∈ (added.foldl (fun graph c => graph.addNode c) graph).nodes ↔
      a ∈ added ∨ a ∈ graph.nodes := by
  induction added generalizing graph with
  | nil => simp
  | cons first rest ih =>
      rw [List.foldl_cons, ih, mem_nodes_addNode, List.mem_cons,
        or_left_comm, or_assoc]

theorem addNode_of_mem (node : a ∈ graph.nodes) :
    graph.addNode a = graph := by
  have has : Std.DTreeMap.contains graph.adjacency.inner a = true := mem_nodes.mp node
  unfold addNode Std.TreeMap.insertIfNew Std.DTreeMap.insertIfNew
  unfold Std.DTreeMap.contains at has
  simp only [Std.DTreeMap.Internal.Impl.insertIfNew, has, if_true]

theorem hasEdge_addArc :
    (graph.addArc c d).hasEdge a b = true ↔ (a = c ∧ b = d) ∨ graph.hasEdge a b = true := by
  rw [hasEdge_iff, hasEdge_iff]
  unfold addArc
  simp only [Std.TreeMap.getElem?_insert]
  by_cases same : c = a
  · subst same
    rw [if_pos Std.ReflCmp.compare_self]
    simp only [Option.some.injEq, exists_eq_left', Std.TreeSet.mem_insert,
      Std.LawfulEqCmp.compare_eq_iff_eq, true_and, Std.TreeMap.getD_eq_getD_getElem?]
    cases found : graph.adjacency[c]? with
    | none => simp [eq_comm]
    | some row => simp [eq_comm]
  · rw [if_neg fun equal => same (Std.LawfulEqCmp.eq_of_compare equal)]
    constructor
    · exact .inr
    · rintro (⟨equal, _⟩ | edge)
      · exact absurd equal.symm same
      · exact edge

theorem mem_nodes_addArc :
    a ∈ (graph.addArc c d).nodes ↔ a = c ∨ a ∈ graph.nodes := by
  rw [mem_nodes, mem_nodes]
  unfold addArc
  rw [Std.TreeMap.mem_insert, Std.LawfulEqCmp.compare_eq_iff_eq, eq_comm]

theorem hasEdge_addEdge :
    (graph.addEdge c d).hasEdge a b = true ↔
      (c ≠ d ∧ ((a = c ∧ b = d) ∨ (a = d ∧ b = c))) ∨ graph.hasEdge a b = true := by
  unfold addEdge
  split
  · next same =>
      have equal : c = d := Std.LawfulEqCmp.eq_of_compare same
      simp [equal]
  · next different =>
      have unequal : c ≠ d := fun equal => different (equal ▸ Std.ReflCmp.compare_self)
      rw [hasEdge_addArc, hasEdge_addArc]
      simp only [unequal, ne_eq, not_false_eq_true, true_and]
      rw [← or_assoc, or_comm (a := a = d ∧ b = c)]

theorem mem_nodes_addEdge :
    a ∈ (graph.addEdge c d).nodes ↔ (c ≠ d ∧ (a = c ∨ a = d)) ∨ a ∈ graph.nodes := by
  unfold addEdge
  split
  · next same =>
      have equal : c = d := Std.LawfulEqCmp.eq_of_compare same
      simp [equal]
  · next different =>
      have unequal : c ≠ d := fun equal => different (equal ▸ Std.ReflCmp.compare_self)
      rw [mem_nodes_addArc, mem_nodes_addArc]
      simp only [unequal, ne_eq, not_false_eq_true, true_and]
      rw [← or_assoc, or_comm (a := a = d)]

theorem Undirected.addNode (undirected : graph.Undirected) (c : α) :
    (graph.addNode c).Undirected where
  symm a b edge := by
    rw [hasEdge_addNode] at edge ⊢
    exact undirected.symm a b edge
  irrefl a := by
    rw [hasEdge_addNode]
    exact undirected.irrefl a

theorem Undirected.addEdge (undirected : graph.Undirected) (c d : α) :
    (graph.addEdge c d).Undirected where
  symm a b edge := by
    rw [hasEdge_addEdge] at edge ⊢
    rcases edge with ⟨different, new⟩ | old
    · exact .inl ⟨different, new.symm.imp And.symm And.symm⟩
    · exact .inr (undirected.symm a b old)
  irrefl a := by
    rw [Bool.eq_false_iff]
    intro edge
    rcases hasEdge_addEdge.mp edge with ⟨different, ⟨first, second⟩ | ⟨first, second⟩⟩ | old
    · exact different (first ▸ second)
    · exact different (second ▸ first)
    · rw [undirected.irrefl a] at old
      cases old

end Lowering.Graph
