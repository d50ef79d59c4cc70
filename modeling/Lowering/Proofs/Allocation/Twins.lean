import Lowering.Allocation.Round
import Lowering.Proofs.Allocation.Liveness
import Lowering.Proofs.Graph
import Lowering.Proofs.RelatedLists
import Mathlib

/-!
# Twins

Two functions that differ in the numbers of their virtual registers only are related register by
register.  The numbers are paired in their order, so registers are compared alike, and sets, maps and
graphs of registers that are paired list their entries in the same order.
-/

namespace Lowering.Machine

/-- Numbers with their counterparts, in the same order. -/
structure Pairing where
  pairs : Nat → Nat → Prop
  lt_iff_lt : ∀ {a b a' b' : Nat}, pairs a a' → pairs b b' → (a < b ↔ a' < b')

namespace Pairing

variable {p : Pairing} {a b a' b' : Reg} {list other : List Reg}

/-- A register and its counterpart; only virtual registers differ from theirs. -/
inductive Twins (p : Pairing) : Reg → Reg → Prop where
  | virtual {number other : Nat} : p.pairs number other → Twins p (.virtual number) (.virtual other)
  | physical (reg : PhysReg) : Twins p (.physical reg) (.physical reg)
  | spilled (slot : Nat) : Twins p (.spilled slot) (.spilled slot)

theorem byNumber_congr {m n m' n' : Nat} (less : m < n ↔ m' < n') (more : n < m ↔ n' < m') :
    byNumber m n = byNumber m' n' := by
  unfold byNumber compareOfLessAndEq
  split_ifs <;> first | rfl | omega

theorem Twins.order_eq (first : p.Twins a a') (second : p.Twins b b') :
    a.order b = a'.order b' := by
  cases first with
  | virtual paired =>
      cases second with
      | virtual other =>
          exact congrArg (Ordering.then .eq)
            (byNumber_congr (p.lt_iff_lt paired other) (p.lt_iff_lt other paired))
      | physical reg => rfl
      | spilled slot => rfl
  | physical reg => cases second <;> rfl
  | spilled slot => cases second <;> rfl

theorem Twins.eq_iff (first : p.Twins a a') (second : p.Twins b b') : a = b ↔ a' = b' := by
  rw [← Reg.order_eq_iff, first.order_eq second, Reg.order_eq_iff]

theorem Twins.right_unique (first : p.Twins a a') (second : p.Twins a b') : a' = b' :=
  (first.eq_iff second).mp rfl

theorem Twins.left_unique (first : p.Twins a a') (second : p.Twins b a') : a = b :=
  (first.eq_iff second).mpr rfl

theorem Twins.isPhysical_eq (twins : p.Twins a a') : a.isPhysical = a'.isPhysical := by
  cases twins <;> rfl

theorem Twins.isTracked_eq (twins : p.Twins a a') : a.isTracked = a'.isTracked := by
  cases twins <;> rfl

theorem Twins.slot?_eq (twins : p.Twins a a') : a.slot? = a'.slot? := by
  cases twins <;> rfl

theorem twins_ite {c c' : Prop} [Decidable c] [Decidable c'] (same : c ↔ c')
    (first : p.Twins a a') (second : p.Twins b b') :
    p.Twins (if c then a else b) (if c' then a' else b') := by
  by_cases holds : c
  · rw [if_pos holds, if_pos (same.mp holds)]
    exact first
  · rw [if_neg holds, if_neg fun other => holds (same.mpr other)]
    exact second

theorem twins_of_isPhysical (physical : a.isPhysical = true) : p.Twins a a := by
  cases a with
  | physical reg => exact .physical reg
  | virtual number => cases physical
  | spilled slot => cases physical

/-- The counterparts the other way round. -/
def symm (p : Pairing) : Pairing where
  pairs a b := p.pairs b a
  lt_iff_lt first second := (p.lt_iff_lt first second).symm

theorem Twins.symm (twins : p.Twins a a') : p.symm.Twins a' a := by
  cases twins with
  | virtual paired => exact .virtual paired
  | physical reg => exact .physical reg
  | spilled slot => exact .spilled slot

section Lists

variable {α β : Type} {related : α → β → Prop} {first : Option α}

/-- Ordered lists whose entries have counterparts in each other correspond entry by entry. -/
theorem forall₂_of_ordered (before : α → α → Prop) (behind : β → β → Prop)
    (asymm : ∀ a b, before a b → ¬ before b a) (irrefl : ∀ b, ¬ behind b b)
    (agree : ∀ {a b a' b'}, related a a' → related b b' → (before a b ↔ behind a' b'))
    {list : List α} {other : List β} (ordered : list.Pairwise before)
    (otherOrdered : other.Pairwise behind) (forward : ∀ a ∈ list, ∃ b ∈ other, related a b)
    (backward : ∀ b ∈ other, ∃ a ∈ list, related a b) : List.Forall₂ related list other := by
  induction list generalizing other with
  | nil =>
      cases other with
      | nil => exact .nil
      | cons b rest =>
          obtain ⟨_, member, _⟩ := backward b List.mem_cons_self
          cases member
  | cons a list ih =>
      cases other with
      | nil =>
          obtain ⟨_, member, _⟩ := forward a List.mem_cons_self
          cases member
      | cons b other =>
          obtain ⟨least, ordered⟩ := List.pairwise_cons.mp ordered
          obtain ⟨otherLeast, otherOrdered⟩ := List.pairwise_cons.mp otherOrdered
          have heads : related a b := by
            obtain ⟨b', isB', relatedB'⟩ := forward a List.mem_cons_self
            rcases List.mem_cons.mp isB' with rfl | later
            · exact relatedB'
            · obtain ⟨a', isA', relatedA'⟩ := backward b List.mem_cons_self
              have earlier : before a' a := (agree relatedA' relatedB').mpr (otherLeast b' later)
              rcases List.mem_cons.mp isA' with rfl | alsoLater
              · exact relatedA'
              · exact absurd earlier (asymm a a' (least a' alsoLater))
          refine .cons heads (ih ordered otherOrdered ?_ ?_)
          · intro x isX
            obtain ⟨y, isY, relatedY⟩ := forward x (List.mem_cons_of_mem _ isX)
            rcases List.mem_cons.mp isY with rfl | later
            · exact absurd ((agree heads relatedY).mp (least x isX)) (irrefl y)
            · exact ⟨y, later, relatedY⟩
          · intro y isY
            obtain ⟨x, isX, relatedX⟩ := backward y (List.mem_cons_of_mem _ isY)
            rcases List.mem_cons.mp isX with rfl | later
            · exact absurd ((agree heads relatedX).mpr (otherLeast y isY)) (fun before =>
                asymm x x before before)
            · exact ⟨x, later, relatedX⟩

theorem isSome_of_rel {second : Option β} (both : Option.Rel related first second) :
    first.isSome = second.isSome := by
  cases both <;> rfl

theorem eq_of_rel {second : Option α} (both : Option.Rel Eq first second) :
    first = second := by
  cases both with
  | none => rfl
  | some same => rw [same]

theorem getD_of_rel {second : Option β} {a : α} {b : β} (both : Option.Rel related first second)
    (fallbacks : related a b) :
    related (first.getD a) (second.getD b) := by
  cases both with
  | none => exact fallbacks
  | some entries => exact entries

theorem head?_of_forall₂ {list : List α} {other : List β} (both : List.Forall₂ related list other) :
    Option.Rel related list.head? other.head? := by
  cases both with
  | nil => exact .none
  | cons first _ => exact .some first

end Lists

theorem forall₂_twins (ordered : list.Pairwise fun a b => a.order b = .lt)
    (otherOrdered : other.Pairwise fun a b => a.order b = .lt)
    (forward : ∀ a ∈ list, ∃ b ∈ other, p.Twins a b)
    (backward : ∀ b ∈ other, ∃ a ∈ list, p.Twins a b) : List.Forall₂ p.Twins list other :=
  forall₂_of_ordered _ _
    (fun _ _ less more => by rw [Std.OrientedCmp.gt_of_lt less] at more; cases more)
    (fun b less => by rw [Reg.order_eq_iff.mpr rfl] at less; cases less)
    (fun first second => by rw [first.order_eq second]) ordered otherOrdered forward backward

theorem mem_iff_of_forall₂ (paired : List.Forall₂ p.Twins list other)
    (twins : p.Twins a a') : a ∈ list ↔ a' ∈ other := by
  induction paired with
  | nil => simp
  | cons first _ ih =>
      rw [List.mem_cons, List.mem_cons, ih, twins.eq_iff first]

theorem foldl_twins {α β : Type} {related : α → β → Prop} {step : α → Reg → α} {otherStep : β → Reg → β}
    (steps : ∀ {s : α} {t : β} {a a' : Reg}, related s t → p.Twins a a' →
      related (step s a) (otherStep t a'))
    (paired : List.Forall₂ p.Twins list other) {s : α} {t : β} (starts : related s t) :
    related (list.foldl step s) (other.foldl otherStep t) := by
  induction paired generalizing s t with
  | nil => exact starts
  | cons first _ ih => exact ih (steps starts first)

theorem filter_twins {choose otherChoose : Reg → Bool}
    (same : ∀ {a a' : Reg}, p.Twins a a' → choose a = otherChoose a')
    (paired : List.Forall₂ p.Twins list other) :
    List.Forall₂ p.Twins (list.filter choose) (other.filter otherChoose) :=
  List.rel_filter (fun _ _ twins => Bool.eq_iff_iff.mp (same twins)) paired

/-- Sets of twins. -/
structure Sets (p : Pairing) (live other : RegSet) : Prop where
  mem_iff : ∀ {a a' : Reg}, p.Twins a a' → (a ∈ live ↔ a' ∈ other)
  left : ∀ a ∈ live, ∃ a', p.Twins a a'
  right : ∀ a' ∈ other, ∃ a, p.Twins a a'

namespace Sets

variable {live other : RegSet}

theorem toList (sets : p.Sets live other) : List.Forall₂ p.Twins live.toList other.toList := by
  refine forall₂_twins Std.TreeSet.ordered_toList Std.TreeSet.ordered_toList ?_ ?_
  · intro a member
    have isLive := RegSet.mem_toList.mp member
    obtain ⟨a', twins⟩ := sets.left a isLive
    exact ⟨a', RegSet.mem_toList.mpr ((sets.mem_iff twins).mp isLive), twins⟩
  · intro a' member
    have isLive := RegSet.mem_toList.mp member
    obtain ⟨a, twins⟩ := sets.right a' isLive
    exact ⟨a, RegSet.mem_toList.mpr ((sets.mem_iff twins).mpr isLive), twins⟩

theorem of_forall_mem (forward : ∀ a ∈ live, ∃ a' ∈ other, p.Twins a a')
    (backward : ∀ a' ∈ other, ∃ a ∈ live, p.Twins a a') : p.Sets live other where
  mem_iff {a a'} twins := by
    refine ⟨fun member => ?_, fun member => ?_⟩
    · obtain ⟨b, isB, twinsB⟩ := forward a member
      exact twins.right_unique twinsB ▸ isB
    · obtain ⟨b, isB, twinsB⟩ := backward a' member
      exact twins.left_unique twinsB ▸ isB
  left a member := by
    obtain ⟨a', _, twins⟩ := forward a member
    exact ⟨a', twins⟩
  right a' member := by
    obtain ⟨a, _, twins⟩ := backward a' member
    exact ⟨a, twins⟩

theorem empty : p.Sets ∅ ∅ :=
  of_forall_mem (fun _ member => by simp at member) fun _ member => by simp at member

theorem ofList {regs others : List Reg} (paired : List.Forall₂ p.Twins regs others) :
    p.Sets (Std.TreeSet.ofList regs Reg.order) (Std.TreeSet.ofList others Reg.order) := by
  refine of_forall_mem (fun a member => ?_) fun a' member => ?_
  · rw [Std.TreeSet.mem_ofList, List.contains_iff_mem] at member
    obtain ⟨a', isTwin, twins⟩ := exists_of_forall₂_left paired member
    exact ⟨a', by rwa [Std.TreeSet.mem_ofList, List.contains_iff_mem], twins⟩
  · rw [Std.TreeSet.mem_ofList, List.contains_iff_mem] at member
    obtain ⟨a, isTwin, twins⟩ := exists_of_forall₂_right paired member
    exact ⟨a, by rwa [Std.TreeSet.mem_ofList, List.contains_iff_mem], twins⟩

end Sets

/-- Maps from twins to related entries. -/
structure Maps (p : Pairing) {α β : Type} (related : α → β → Prop) (map : RegMap α)
    (other : RegMap β) : Prop where
  get? : ∀ {a a' : Reg}, p.Twins a a' → Option.Rel related map[a]? other[a']?
  left : ∀ a ∈ map, ∃ a', p.Twins a a'
  right : ∀ a' ∈ other, ∃ a, p.Twins a a'

namespace Maps

variable {α β : Type} {related : α → β → Prop} {map : RegMap α} {other : RegMap β}

theorem empty : p.Maps related ∅ ∅ where
  get? _ := by
    rw [Std.TreeMap.getElem?_emptyc, Std.TreeMap.getElem?_emptyc]
    exact .none
  left _ member := by simp at member
  right _ member := by simp at member

variable (maps : p.Maps related map other)
include maps

theorem isSome_eq (twins : p.Twins a a') :
    map[a]?.isSome = other[a']?.isSome := isSome_of_rel (maps.get? twins)

theorem contains_eq (twins : p.Twins a a') :
    map.contains a = other.contains a' := by
  rw [Std.TreeMap.contains_eq_isSome_getElem?, Std.TreeMap.contains_eq_isSome_getElem?,
    maps.isSome_eq twins]

theorem getD {fallback : α} {otherFallback : β} (fallbacks : related fallback otherFallback)
    (twins : p.Twins a a') :
    related (map.getD a fallback) (other.getD a' otherFallback) := by
  rw [Std.TreeMap.getD_eq_getD_getElem?, Std.TreeMap.getD_eq_getD_getElem?]
  exact getD_of_rel (maps.get? twins) fallbacks

theorem insert {entry : α} {otherEntry : β} (twins : p.Twins a a')
    (entries : related entry otherEntry) :
    p.Maps related (map.insert a entry) (other.insert a' otherEntry) where
  get? {b b'} twinsB := by
    rw [Std.TreeMap.getElem?_insert, Std.TreeMap.getElem?_insert, twins.order_eq twinsB]
    split
    · exact .some entries
    · exact maps.get? twinsB
  left b member := by
    rcases Std.TreeMap.mem_insert.mp member with same | member
    · rw [← Reg.order_eq_iff.mp same]
      exact ⟨a', twins⟩
    · exact maps.left b member
  right b' member := by
    rcases Std.TreeMap.mem_insert.mp member with same | member
    · rw [← Reg.order_eq_iff.mp same]
      exact ⟨a, twins⟩
    · exact maps.right b' member

theorem erase (twins : p.Twins a a') :
    p.Maps related (map.erase a) (other.erase a') where
  get? {b b'} twinsB := by
    rw [Std.TreeMap.getElem?_erase, Std.TreeMap.getElem?_erase, twins.order_eq twinsB]
    split
    · exact .none
    · exact maps.get? twinsB
  left b member := maps.left b (Std.TreeMap.mem_erase.mp member).2
  right b' member := maps.right b' (Std.TreeMap.mem_erase.mp member).2

theorem modify {change : α → α} {otherChange : β → β} (twins : p.Twins a a')
    (changes : ∀ {entry otherEntry}, related entry otherEntry →
      related (change entry) (otherChange otherEntry)) :
    p.Maps related (map.modify a change) (other.modify a' otherChange) where
  get? {b b'} twinsB := by
    rw [Std.TreeMap.getElem?_modify, Std.TreeMap.getElem?_modify, twins.order_eq twinsB]
    split
    · have entries := maps.get? twins
      generalize map[a]? = entry at entries
      generalize other[a']? = otherEntry at entries
      cases entries with
      | none => exact .none
      | some entries => exact .some (changes entries)
    · exact maps.get? twinsB
  left b member := maps.left b (Std.TreeMap.mem_modify.mp member)
  right b' member := maps.right b' (Std.TreeMap.mem_modify.mp member)

omit maps in
theorem get?_eq {other : RegMap α} (maps : p.Maps Eq map other) (twins : p.Twins a a') :
    map.get? a = other.get? a' := by
  rw [Std.TreeMap.get?_eq_getElem?, Std.TreeMap.get?_eq_getElem?]
  exact eq_of_rel (maps.get? twins)

theorem toList :
    List.Forall₂ (fun entry otherEntry => p.Twins entry.1 otherEntry.1 ∧
      related entry.2 otherEntry.2) map.toList other.toList := by
  refine forall₂_of_ordered (fun first second => first.1.order second.1 = .lt)
    (fun first second => first.1.order second.1 = .lt) ?_ ?_ ?_
    Std.TreeMap.ordered_keys_toList Std.TreeMap.ordered_keys_toList ?_ ?_
  · intro first second less more
    rw [Std.OrientedCmp.gt_of_lt less] at more
    cases more
  · intro entry less
    rw [Reg.order_eq_iff.mpr rfl] at less
    cases less
  · intro _ _ _ _ first second
    rw [first.1.order_eq second.1]
  · rintro ⟨a, entry⟩ member
    have found := Std.TreeMap.mem_toList_iff_getElem?_eq_some.mp member
    obtain ⟨a', twins⟩ := maps.left a (Std.TreeMap.mem_iff_isSome_getElem?.mpr (by rw [found]; rfl))
    have entries := maps.get? twins
    rw [found] at entries
    generalize isOther : other[a']? = otherEntry at entries
    cases entries with
    | some entries =>
        exact ⟨(a', _), Std.TreeMap.mem_toList_iff_getElem?_eq_some.mpr isOther, twins, entries⟩
  · rintro ⟨a', otherEntry⟩ member
    have found := Std.TreeMap.mem_toList_iff_getElem?_eq_some.mp member
    obtain ⟨a, twins⟩ :=
      maps.right a' (Std.TreeMap.mem_iff_isSome_getElem?.mpr (by rw [found]; rfl))
    have entries := maps.get? twins
    rw [found] at entries
    generalize isEntry : map[a]? = entry at entries
    cases entries with
    | some entries =>
        exact ⟨(a, _), Std.TreeMap.mem_toList_iff_getElem?_eq_some.mpr isEntry, twins, entries⟩

theorem keys : List.Forall₂ p.Twins map.keys other.keys := by
  rw [← Std.TreeMap.map_fst_toList_eq_keys, ← Std.TreeMap.map_fst_toList_eq_keys,
    List.forall₂_map_left_iff, List.forall₂_map_right_iff]
  exact maps.toList.imp fun _ _ both => both.1

theorem size_eq : map.size = other.size := by
  rw [← Std.TreeMap.length_toList, ← Std.TreeMap.length_toList, maps.toList.length_eq]

theorem minKey? :
    Option.Rel p.Twins map.minKey? other.minKey? := by
  rw [Std.TreeMap.minKey?_eq_head?_keys, Std.TreeMap.minKey?_eq_head?_keys]
  exact head?_of_forall₂ maps.keys

end Maps

theorem ordered_neighbors (graph : InterferenceGraph) (reg : Reg) :
    (graph.neighbors reg).Pairwise fun a b => a.order b = .lt := by
  unfold Graph.neighbors Graph.neighbors?
  cases graph.adjacency.get? reg with
  | none => exact .nil
  | some row => exact Std.TreeSet.ordered_toList

/-- Graphs of twins. -/
structure Graphs (p : Pairing) (graph other : InterferenceGraph) : Prop where
  mem_iff : ∀ {a a' : Reg}, p.Twins a a' → (a ∈ graph.nodes ↔ a' ∈ other.nodes)
  left : ∀ a ∈ graph.nodes, ∃ a', p.Twins a a'
  right : ∀ a' ∈ other.nodes, ∃ a, p.Twins a a'
  hasEdge_eq : ∀ {a b a' b' : Reg}, p.Twins a a' → p.Twins b b' →
    graph.hasEdge a b = other.hasEdge a' b'
  edgeLeft : ∀ a b, graph.hasEdge a b = true → ∃ b', p.Twins b b'
  edgeRight : ∀ a' b', other.hasEdge a' b' = true → ∃ b, p.Twins b b'

namespace Graphs

variable {graph other : InterferenceGraph}

variable (graphs : p.Graphs graph other)
include graphs

theorem nodes : List.Forall₂ p.Twins graph.nodes other.nodes := by
  refine forall₂_twins Std.TreeMap.ordered_keys Std.TreeMap.ordered_keys ?_ ?_
  · intro a member
    obtain ⟨a', twins⟩ := graphs.left a member
    exact ⟨a', (graphs.mem_iff twins).mp member, twins⟩
  · intro a' member
    obtain ⟨a, twins⟩ := graphs.right a' member
    exact ⟨a, (graphs.mem_iff twins).mpr member, twins⟩

theorem neighbors (twins : p.Twins a a') :
    List.Forall₂ p.Twins (graph.neighbors a) (other.neighbors a') := by
  refine forall₂_twins (ordered_neighbors graph a) (ordered_neighbors other a') ?_ ?_
  · intro b member
    have edge := Graph.mem_neighbors.mp member
    obtain ⟨b', twinsB⟩ := graphs.edgeLeft a b edge
    exact ⟨b', Graph.mem_neighbors.mpr (graphs.hasEdge_eq twins twinsB ▸ edge), twinsB⟩
  · intro b' member
    have edge := Graph.mem_neighbors.mp member
    obtain ⟨b, twinsB⟩ := graphs.edgeRight a' b' edge
    exact ⟨b, Graph.mem_neighbors.mpr (graphs.hasEdge_eq twins twinsB ▸ edge), twinsB⟩

omit graphs in
theorem empty : p.Graphs .empty .empty where
  mem_iff _ := by simp [Graph.mem_nodes, Graph.empty]
  left _ member := by simp [Graph.mem_nodes, Graph.empty] at member
  right _ member := by simp [Graph.mem_nodes, Graph.empty] at member
  hasEdge_eq _ _ := by rw [Graph.hasEdge_empty, Graph.hasEdge_empty]
  edgeLeft _ _ edge := by simp at edge
  edgeRight _ _ edge := by simp at edge

theorem addNode (twins : p.Twins a a') :
    p.Graphs (graph.addNode a) (other.addNode a') where
  mem_iff twinsB := by
    rw [Graph.mem_nodes_addNode, Graph.mem_nodes_addNode, graphs.mem_iff twinsB, twinsB.eq_iff twins]
  left b member := by
    rcases Graph.mem_nodes_addNode.mp member with rfl | member
    · exact ⟨a', twins⟩
    · exact graphs.left b member
  right b' member := by
    rcases Graph.mem_nodes_addNode.mp member with rfl | member
    · exact ⟨a, twins⟩
    · exact graphs.right b' member
  hasEdge_eq first second := by
    rw [Graph.hasEdge_addNode, Graph.hasEdge_addNode, graphs.hasEdge_eq first second]
  edgeLeft c d edge := graphs.edgeLeft c d (Graph.hasEdge_addNode graph a c d ▸ edge)
  edgeRight c d edge := graphs.edgeRight c d (Graph.hasEdge_addNode other a' c d ▸ edge)

theorem addEdge (first : p.Twins a a') (second : p.Twins b b') :
    p.Graphs (graph.addEdge a b) (other.addEdge a' b') where
  mem_iff twins := by
    rw [Graph.mem_nodes_addEdge, Graph.mem_nodes_addEdge, graphs.mem_iff twins, twins.eq_iff first,
      twins.eq_iff second, ne_eq, ne_eq, first.eq_iff second]
  left c member := by
    rcases Graph.mem_nodes_addEdge.mp member with ⟨_, rfl | rfl⟩ | member
    · exact ⟨a', first⟩
    · exact ⟨b', second⟩
    · exact graphs.left c member
  right c' member := by
    rcases Graph.mem_nodes_addEdge.mp member with ⟨_, rfl | rfl⟩ | member
    · exact ⟨a, first⟩
    · exact ⟨b, second⟩
    · exact graphs.right c' member
  hasEdge_eq twinsC twinsD := by
    rw [Bool.eq_iff_iff, Graph.hasEdge_addEdge, Graph.hasEdge_addEdge,
      graphs.hasEdge_eq twinsC twinsD, twinsC.eq_iff first, twinsC.eq_iff second,
      twinsD.eq_iff first, twinsD.eq_iff second, ne_eq, ne_eq, first.eq_iff second]
  edgeLeft c d edge := by
    rcases Graph.hasEdge_addEdge.mp edge with ⟨_, ⟨_, rfl⟩ | ⟨_, rfl⟩⟩ | edge
    · exact ⟨b', second⟩
    · exact ⟨a', first⟩
    · exact graphs.edgeLeft c d edge
  edgeRight c' d' edge := by
    rcases Graph.hasEdge_addEdge.mp edge with ⟨_, ⟨_, rfl⟩ | ⟨_, rfl⟩⟩ | edge
    · exact ⟨b, second⟩
    · exact ⟨a, first⟩
    · exact graphs.edgeRight c' d' edge

theorem isNewEdge_eq (first : p.Twins a a')
    (second : p.Twins b b') : graph.isNewEdge a b = other.isNewEdge a' b' := by
  unfold Graph.isNewEdge
  rw [first.order_eq second, graphs.hasEdge_eq first second]

end Graphs

end Pairing

end Lowering.Machine
