import Lowering.Allocation.Coloring
import Lowering.Proofs.Allocation.Interference
import Lowering.Proofs.Allocation.Run
import Lowering.Proofs.MinQueue
import Mathlib.Data.List.Nodup

/-!
# Colors of a finished round

Stacked registers are colored one after another.  Each gets a color of the pool that differs from
the colors its neighbors' representatives have by then, or is spilled.  Merged registers share the
color of their representative.
-/

namespace Lowering.Machine

namespace Coloring

variable {coloring : Coloring} {reg other : Reg} {color : PhysReg}

theorem color?_of_physical (physical : reg.isPhysical = true) :
    ∃ phys, reg = .physical phys ∧ coloring.color? reg = some phys := by
  cases reg with
  | physical phys => exact ⟨phys, rfl, rfl⟩
  | virtual number => cases physical
  | spilled slot => cases physical

theorem color?_of_not_physical (notPhysical : reg.isPhysical = false) :
    coloring.color? reg = coloring.colors[reg]? := by
  cases reg with
  | physical phys => cases notPhysical
  | virtual number => exact Std.TreeMap.get?_eq_getElem?
  | spilled slot => exact Std.TreeMap.get?_eq_getElem?

theorem getElem?_insert (colors : RegMap PhysReg) :
    (colors.insert reg color)[other]? = if reg = other then some color else colors[other]? := by
  rw [Std.TreeMap.getElem?_insert]
  by_cases same : reg = other
  · rw [if_pos (Reg.order_eq_iff.mpr same), if_pos same]
  · rw [if_neg fun equal => same (Reg.order_eq_iff.mp equal), if_neg same]

theorem color?_congr {first second : Coloring}
    (same : first.colors[reg]? = second.colors[reg]?) : first.color? reg = second.color? reg := by
  cases kind : reg.isPhysical with
  | true =>
      obtain ⟨phys, rfl, _⟩ := @color?_of_physical first _ kind
      rfl
  | false => rw [color?_of_not_physical kind, color?_of_not_physical kind, same]

end Coloring

namespace Round

variable {m : Nat} {round : Round m} {coloring : Coloring} {reg : Reg}

/-- What holds once the registers `done` have been taken off the stack. -/
structure Colored (round : Round m) (done : List Reg) (coloring : Coloring) : Prop where
  within : ∀ (reg : Reg) (color : PhysReg), coloring.colors[reg]? = some color →
    reg ∈ done ∧ color ∈ round.pool
  total : ∀ reg ∈ done, (∃ color, coloring.colors[reg]? = some color) ∨ reg ∈ coloring.spilled
  spilled : coloring.spilled.Sublist done
  uncolored : ∀ reg ∈ coloring.spilled, coloring.colors[reg]? = none
  /-- A color differs from those that were there before it. -/
  differs : ∀ before reg behind, done = before ++ reg :: behind →
    ∀ color, coloring.colors[reg]? = some color →
    ∀ neighbor, round.graph.hasEdge reg neighbor = true →
    (round.representative neighbor).isPhysical = true ∨ round.representative neighbor ∈ before →
    coloring.color? (round.representative neighbor) ≠ some color

theorem Colored.empty (round : Round m) : Colored round [] ⟨∅, []⟩ where
  within reg color found := by
    cases found
  total reg member := by cases member
  spilled := List.Sublist.refl []
  uncolored reg member := by cases member
  differs before reg behind split := absurd split.symm (by simp)

/-- The first free color is not the color of a neighbor's representative. -/
theorem free_color_differs (nodup : round.pool.Nodup) {neighbor : Reg} {color : PhysReg}
    (edge : round.graph.hasEdge reg neighbor = true)
    (free : round.pool[((round.usedColors coloring reg).foldl MinQueue.push
      .empty).smallestAbsent.1]? = some color) :
    coloring.color? (round.representative neighbor) ≠ some color := by
  intro taken
  have ascending := MinQueue.ascending_empty.foldl_push (round.usedColors coloring reg)
  apply MinQueue.smallestAbsent_not_mem ascending
  rw [MinQueue.mem_foldl_push]
  left
  generalize ((round.usedColors coloring reg).foldl MinQueue.push .empty).smallestAbsent.1 =
    position at free ⊢
  obtain ⟨inside, isColor⟩ := List.getElem?_eq_some_iff.mp free
  unfold usedColors
  rw [List.mem_filterMap]
  refine ⟨neighbor, Graph.mem_neighbors.mpr edge, ?_⟩
  rw [taken, Option.bind_some, ← isColor, List.idxOf?_eq_some_iff]
  refine ⟨inside, rfl, ?_⟩
  intro earlier below same
  have equal := nodup.getElem_inj_iff.mp same
  omega

theorem assign_eq (round : Round m) (coloring : Coloring) (reg : Reg) :
    (∃ color, round.pool[((round.usedColors coloring reg).foldl MinQueue.push
        .empty).smallestAbsent.1]? = some color ∧
      round.assign coloring reg = { coloring with colors := coloring.colors.insert reg color }) ∨
      round.assign coloring reg = { coloring with spilled := coloring.spilled ++ [reg] } := by
  unfold assign
  dsimp only
  split
  · next color free => exact .inl ⟨color, free, rfl⟩
  · exact .inr rfl

/-- A split of a list with one more member is at its end, or is a split of the list. -/
theorem split_concat {done before behind : List Reg} {here : Reg}
    (split : done ++ [reg] = before ++ here :: behind) :
    (before = done ∧ here = reg) ∨ ∃ rest, done = before ++ here :: rest := by
  rcases List.eq_nil_or_concat behind with rfl | ⟨rest, last, rfl⟩
  · obtain ⟨isBefore, isHere⟩ := List.append_inj' split rfl
    exact .inl ⟨isBefore.symm, (List.cons.inj isHere).1.symm⟩
  · rw [List.concat_eq_append, ← List.cons_append, ← List.append_assoc] at split
    exact .inr ⟨rest, (List.append_inj' split rfl).1⟩

section Assign

variable {done : List Reg} (colored : Colored round done coloring) (fresh : reg ∉ done)
include colored fresh

theorem Colored.paint (nodup : round.pool.Nodup) (notPhysical : reg.isPhysical = false)
    {color : PhysReg} (free : round.pool[((round.usedColors coloring reg).foldl MinQueue.push
      .empty).smallestAbsent.1]? = some color) :
    Colored round (done ++ [reg]) { coloring with colors := coloring.colors.insert reg color } := by
  have own : (coloring.colors.insert reg color)[reg]? = some color := by
    rw [Coloring.getElem?_insert, if_pos rfl]
  have other {here : Reg} (different : here ≠ reg) :
      (coloring.colors.insert reg color)[here]? = coloring.colors[here]? := by
    rw [Coloring.getElem?_insert, if_neg (Ne.symm different)]
  have old {here : Reg} (member : here ∈ done) : here ≠ reg := fun same => fresh (same ▸ member)
  refine ⟨fun here found isFound => ?_, fun here member => ?_,
    colored.spilled.trans (List.sublist_append_left _ _), fun here member => ?_,
    fun before here behind split found isFound neighbor edge earlier => ?_⟩
  · by_cases same : here = reg
    · rw [same, own] at isFound
      cases isFound
      exact ⟨List.mem_append_right _ (same ▸ List.mem_singleton_self _), List.mem_of_getElem? free⟩
    · rw [other same] at isFound
      exact (colored.within here found isFound).imp_left (List.mem_append_left _)
  · rcases List.mem_append.mp member with inDone | new
    · rw [other (old inDone)]
      exact colored.total here inDone
    · exact .inl ⟨color, List.mem_singleton.mp new ▸ own⟩
  · rw [other (old (colored.spilled.subset member))]
    exact colored.uncolored here member
  · -- the colors that were there before are those of other registers
    have differentNeighbor (inDone : ∀ reg ∈ before, reg ∈ done) :
        round.representative neighbor ≠ reg := by
      rintro same
      rcases earlier with physical | member
      · rw [same, notPhysical] at physical
        cases physical
      · exact old (inDone _ member) same
    rcases split_concat split with ⟨rfl, rfl⟩ | ⟨rest, isDone⟩
    · rw [own] at isFound
      cases isFound
      rw [Coloring.color?_congr (other (differentNeighbor fun _ => id))]
      exact free_color_differs nodup edge free
    · rw [other (old (isDone ▸ List.mem_append_right _ List.mem_cons_self))] at isFound
      rw [Coloring.color?_congr (other (differentNeighbor fun reg member =>
        isDone ▸ List.mem_append_left _ member))]
      exact colored.differs before here rest isDone found isFound neighbor edge earlier

theorem Colored.giveUp :
    Colored round (done ++ [reg]) { coloring with spilled := coloring.spilled ++ [reg] } := by
  have blank : coloring.colors[reg]? = none := by
    cases found : coloring.colors[reg]? with
    | none => rfl
    | some color => exact absurd (colored.within reg color found).1 fresh
  refine ⟨fun here found isFound => ?_, fun here member => ?_,
    colored.spilled.append (List.Sublist.refl _), fun here member => ?_,
    fun before here behind split found isFound neighbor edge earlier => ?_⟩
  · exact (colored.within here found isFound).imp_left (List.mem_append_left _)
  · rcases List.mem_append.mp member with old | new
    · exact (colored.total here old).imp_right (List.mem_append_left _)
    · exact .inr (List.mem_append_right _ new)
  · rcases List.mem_append.mp member with old | new
    · exact colored.uncolored here old
    · exact List.mem_singleton.mp new ▸ blank
  · rcases split_concat split with ⟨_, rfl⟩ | ⟨rest, isDone⟩
    · rw [blank] at isFound
      cases isFound
    · exact colored.differs before here rest isDone found isFound neighbor edge earlier

theorem Colored.assign (nodup : round.pool.Nodup) (notPhysical : reg.isPhysical = false) :
    Colored round (done ++ [reg]) (round.assign coloring reg) := by
  rcases round.assign_eq coloring reg with ⟨color, free, outcome⟩ | outcome
  · exact outcome ▸ colored.paint fresh nodup notPhysical free
  · exact outcome ▸ colored.giveUp fresh

end Assign

theorem Colored.foldl_assign (nodup : round.pool.Nodup) (rest : List Reg) {done : List Reg}
    (colored : Colored round done coloring)
    (distinct : (done ++ rest).Nodup) (notPhysical : ∀ reg ∈ rest, reg.isPhysical = false) :
    Colored round (done ++ rest) (rest.foldl round.assign coloring) := by
  induction rest generalizing done coloring with
  | nil =>
      rw [List.append_nil]
      exact colored
  | cons reg rest ih =>
      have fresh : reg ∉ done := fun member =>
        List.disjoint_of_nodup_append distinct member List.mem_cons_self
      have next := colored.assign fresh nodup (notPhysical reg List.mem_cons_self)
      rw [← List.singleton_append, ← List.append_assoc] at distinct ⊢
      exact ih next distinct fun other member =>
        notPhysical other (List.mem_cons_of_mem _ member)

/-- The colors of the stacked registers. -/
def stackColors (round : Round m) : Coloring := round.stack.foldl round.assign ⟨∅, []⟩

theorem assignColors_eq (round : Round m) :
    round.assignColors = round.merged.keys.foldl round.share round.stackColors := rfl

theorem spilled_foldl_share (keys : List Reg) (coloring : Coloring) :
    (keys.foldl round.share coloring).spilled = coloring.spilled := by
  induction keys generalizing coloring with
  | nil => rfl
  | cons key rest ih =>
      rw [List.foldl_cons, ih]
      unfold share
      split <;> rfl

theorem spilled_assignColors : round.assignColors.spilled = round.stackColors.spilled :=
  spilled_foldl_share _ _

variable {origin : InterferenceGraph}

theorem Invariant.colored (invariant : Invariant origin round) (nodup : round.pool.Nodup) :
    Colored round round.stack round.stackColors :=
  Colored.foldl_assign nodup round.stack (Colored.empty round) invariant.stack_nodup
    fun _ stacked => invariant.stacked_not_physical stacked

/-- Sharing does not change the color of a register that is not merged. -/
theorem color?_share_of_ne {key : Reg} (different : key ≠ reg) :
    (round.share coloring key).color? reg = coloring.color? reg := by
  apply Coloring.color?_congr
  unfold share
  split
  · dsimp only
    rw [Coloring.getElem?_insert, if_neg different]
  · rfl

theorem color?_assignColors_of_not_merged (notMerged : reg ∉ round.merged) :
    round.assignColors.color? reg = round.stackColors.color? reg := by
  have unshared (keys : List Reg) (coloring : Coloring) (absent : reg ∉ keys) :
      (keys.foldl round.share coloring).color? reg = coloring.color? reg := by
    induction keys generalizing coloring with
    | nil => rfl
    | cons key rest ih =>
        rw [List.foldl_cons, ih _ (List.not_mem_of_not_mem_cons absent),
          color?_share_of_ne (Ne.symm (List.ne_of_not_mem_cons absent))]
  exact unshared _ _ (mt Std.TreeMap.mem_keys.mp notMerged)

theorem color?_share_self {key : Reg} (notPhysical : key.isPhysical = false)
    (blank : coloring.color? key = none) :
    (round.share coloring key).color? key = coloring.color? (round.representative key) := by
  unfold share
  split
  · next color found =>
      rw [found, Coloring.color?_of_not_physical notPhysical, Coloring.getElem?_insert, if_pos rfl]
  · next notFound => rw [notFound, blank]

/-- Merged registers take the colors of their representatives, which are not merged. -/
theorem Invariant.color?_foldl_share (invariant : Invariant origin round) (keys : List Reg)
    (distinct : keys.Nodup) (merged : ∀ key ∈ keys, key ∈ round.merged)
    (blank : ∀ key ∈ keys, coloring.color? key = none) (reg : Reg) :
    (keys.foldl round.share coloring).color? reg =
      if reg ∈ keys then coloring.color? (round.representative reg) else coloring.color? reg := by
  induction keys generalizing coloring with
  | nil => rfl
  | cons key rest ih =>
      obtain ⟨fresh, distinctRest⟩ := List.nodup_cons.mp distinct
      have keyMerged : key ∈ round.merged := merged key List.mem_cons_self
      have notPhysical : key.isPhysical = false :=
        ((invariant.own key).mp (.inr (.inr keyMerged))).1
      have unaffected : (round.share coloring key).color? (round.representative reg) =
          coloring.color? (round.representative reg) :=
        color?_share_of_ne fun same => invariant.rooted reg (same ▸ keyMerged)
      rw [List.foldl_cons, ih distinctRest
        (fun other member => merged other (List.mem_cons_of_mem _ member))
        (fun other member => by
          have different : key ≠ other := fun same => fresh (same ▸ member)
          rw [color?_share_of_ne different]
          exact blank other (List.mem_cons_of_mem _ member))]
      by_cases same : reg = key
      · subst same
        rw [if_neg fresh, if_pos List.mem_cons_self]
        exact color?_share_self notPhysical (blank reg List.mem_cons_self)
      · rw [unaffected, color?_share_of_ne (Ne.symm same)]
        simp only [List.mem_cons, same, false_or]

/-- In the end every register has the color of its representative. -/
theorem Invariant.color?_assignColors (invariant : Invariant origin round)
    (nodup : round.pool.Nodup) (reg : Reg) :
    round.assignColors.color? reg = round.stackColors.color? (round.representative reg) := by
  have colored := invariant.colored nodup
  have distinct : round.merged.keys.Nodup :=
    round.merged.distinct_keys.imp fun different equal => different (Reg.order_eq_iff.mpr equal)
  have blank (key : Reg) (member : key ∈ round.merged.keys) :
      round.stackColors.color? key = none := by
    have keyMerged := Std.TreeMap.mem_keys.mp member
    rw [Coloring.color?_of_not_physical ((invariant.own key).mp (.inr (.inr keyMerged))).1]
    cases found : round.stackColors.colors[key]? with
    | none => rfl
    | some color =>
        exact absurd keyMerged (invariant.stacked_not_merged key (colored.within key color found).1)
  rw [assignColors_eq, invariant.color?_foldl_share _ distinct (fun _ => Std.TreeMap.mem_keys.mp) blank]
  split
  · rfl
  · next notMerged =>
      rw [representative_of_not_merged fun merged => notMerged (Std.TreeMap.mem_keys.mpr merged)]

section Finished

variable (invariant : Invariant origin round) (ended : ∀ reg, ¬ round.Listed reg)
  (nodup : round.pool.Nodup)

variable {reg : Reg}

include invariant ended in
/-- When no register is left in the graph, representatives are physical or stacked. -/
theorem representative_finished (node : reg ∈ origin.nodes) :
    (round.representative reg).isPhysical = true ∨ round.representative reg ∈ round.stack :=
  (invariant.representative_cases node).imp_left fun present =>
    (isPresent_iff.mp present).resolve_right (ended _)

include invariant nodup in
/-- A stacked register differs in color from the physical registers it interferes with and from
those that were colored before it. -/
theorem color?_ne_of_colored_before {a b : Reg} (edge : origin.hasEdge a b = true)
    {before behind : List Reg} (split : round.stack = before ++ round.representative a :: behind)
    (earlier : (round.representative b).isPhysical = true ∨ round.representative b ∈ before)
    {color : PhysReg} (found : round.assignColors.color? a = some color) :
    round.assignColors.color? b ≠ some color := by
  have colored := invariant.colored nodup
  have stacked : round.representative a ∈ round.stack :=
    split ▸ List.mem_append_right _ List.mem_cons_self
  have notBehind : round.representative b ∉ behind := by
    intro member
    rcases earlier with physical | memberBefore
    · have inStack : round.representative b ∈ round.stack :=
        split ▸ List.mem_append_right _ (List.mem_cons_of_mem _ member)
      rw [invariant.stacked_not_physical inStack] at physical
      cases physical
    · exact List.disjoint_of_nodup_append (split ▸ invariant.stack_nodup) memberBefore
        (List.mem_cons_of_mem _ member)
  obtain ⟨neighbor, joined, same⟩ := invariant.seen a b edge before behind split notBehind
  rw [invariant.color?_assignColors nodup,
    Coloring.color?_of_not_physical (invariant.stacked_not_physical stacked)] at found
  rw [invariant.color?_assignColors nodup, ← same]
  exact colored.differs before _ behind split color found neighbor joined (same ▸ earlier)

include invariant ended nodup in
/-- Interfering registers have different colors. -/
theorem color?_ne_of_hasEdge {a b : Reg} (edge : origin.hasEdge a b = true) {color : PhysReg}
    (found : round.assignColors.color? a = some color) :
    round.assignColors.color? b ≠ some color := by
  have reverse := invariant.source.symm a b edge
  have flip (foundB : round.assignColors.color? b = some color)
      (differs : ∀ {color}, round.assignColors.color? b = some color →
        round.assignColors.color? a ≠ some color) : False := differs foundB found
  rcases representative_finished invariant ended (Graph.mem_nodes_of_hasEdge edge) with
    physicalA | stackedA
  · rcases representative_finished invariant ended (Graph.mem_nodes_of_hasEdge reverse) with
      physicalB | stackedB
    · -- two physical registers are their own colors
      obtain ⟨physA, isA, colorA⟩ := Coloring.color?_of_physical physicalA
      obtain ⟨physB, isB, colorB⟩ := Coloring.color?_of_physical physicalB
      rw [invariant.color?_assignColors nodup, colorA] at found
      rw [invariant.color?_assignColors nodup, colorB]
      rintro equal
      refine invariant.separate a b edge ?_
      rw [isA, isB, Option.some.inj found, Option.some.inj equal]
    · obtain ⟨before, behind, split⟩ := List.append_of_mem stackedB
      exact fun foundB => flip foundB
        (color?_ne_of_colored_before invariant nodup reverse split (.inl physicalA))
  · obtain ⟨before, behind, split⟩ := List.append_of_mem stackedA
    rcases representative_finished invariant ended (Graph.mem_nodes_of_hasEdge reverse) with
      physicalB | stackedB
    · exact color?_ne_of_colored_before invariant nodup edge split (.inl physicalB) found
    · rw [split, List.mem_append, List.mem_cons] at stackedB
      rcases stackedB with colored | same | later
      · exact color?_ne_of_colored_before invariant nodup edge split (.inr colored) found
      · exact absurd same.symm (invariant.separate a b edge)
      · -- the other register is colored after this one
        obtain ⟨between, behindB, splitB⟩ := List.append_of_mem later
        rw [splitB, ← List.cons_append, ← List.append_assoc] at split
        exact fun foundB => flip foundB
          (color?_ne_of_colored_before invariant nodup reverse split
            (.inr (List.mem_append_right _ List.mem_cons_self)))

include invariant ended nodup in
/-- Every register that is not physical is colored with a register of the pool, or its
representative is spilled. -/
theorem colored_or_spilled {reg : Reg} (node : reg ∈ origin.nodes)
    (notPhysical : reg.isPhysical = false) :
    (∃ color ∈ round.pool, round.assignColors.color? reg = some color) ∨
      round.representative reg ∈ round.assignColors.spilled := by
  have colored := invariant.colored nodup
  rw [invariant.color?_assignColors nodup, spilled_assignColors]
  rcases representative_finished invariant ended node with physical | stacked
  · obtain ⟨phys, isPhys, isColor⟩ := Coloring.color?_of_physical physical
    have other : reg ≠ .physical phys := by
      rintro rfl
      cases notPhysical
    exact .inl ⟨phys, invariant.mem_pool_of_representative isPhys other, isColor⟩
  · rw [Coloring.color?_of_not_physical (invariant.stacked_not_physical stacked)]
    exact (colored.total _ stacked).imp_left fun ⟨color, found⟩ =>
      ⟨color, (colored.within _ _ found).2, found⟩

include invariant ended nodup in
theorem colored_of_not_spilled (noSpill : round.assignColors.spilled = [])
    (node : reg ∈ origin.nodes) : ∃ color, round.assignColors.color? reg = some color := by
  cases kind : reg.isPhysical with
  | true =>
      obtain ⟨phys, _, isColor⟩ := Coloring.color?_of_physical kind
      exact ⟨phys, isColor⟩
  | false =>
      rcases colored_or_spilled invariant ended nodup node kind with ⟨color, _, isColor⟩ | spilled
      · exact ⟨color, isColor⟩
      · rw [noSpill] at spilled
        cases spilled

end Finished

end Round

/-- A run on the interference graph of a function, with some of its copies, ends consistent and
with empty worklists. -/
theorem Func.consistent_run {f : Func} {liveness : Liveness f.blocks.length}
    (found : f.liveness = .ok liveness) (pool : List PhysReg) {moves : List MoveSite}
    (known : ∀ site ∈ moves, site ∈ liveness.moves) :
    Round.Consistent (f.interference liveness) pool (Table.tabulate moves.get)
        (Round.start pool (f.interference liveness) (Table.tabulate moves.get)).run ∧
      ∀ reg,
        ¬ (Round.start pool (f.interference liveness) (Table.tabulate moves.get)).run.Listed reg := by
  refine Round.Consistent.run (undirected_interference liveness) fun move => ?_
  rw [Table.get_tabulate]
  exact f.operands_mem_nodes found (known _ (List.get_mem _ _))

/-- A run and its coloring.  Interfering registers differ in color; a register that is not physical
has a color of the pool unless its representative is spilled; the operands of a merged copy have
the same representative, and the same color if nothing is spilled. -/
theorem Func.coloring_proper (f : Func) (liveness : Liveness f.blocks.length)
    (found : f.liveness = .ok liveness) (pool : List PhysReg) (distinct : pool.Nodup)
    (moves : List MoveSite) (known : ∀ site ∈ moves, site ∈ liveness.moves) :
    let graph := f.interference liveness
    let round := (Round.start pool graph (Table.tabulate moves.get)).run
    let coloring := round.assignColors
    (∀ a b, graph.hasEdge a b = true → ∀ colorA colorB,
      coloring.color? a = some colorA → coloring.color? b = some colorB → colorA ≠ colorB) ∧
    (∀ reg ∈ f.regSet, reg.isPhysical = false →
      (∃ color ∈ pool, coloring.color? reg = some color) ∨
        round.representative reg ∈ coloring.spilled) ∧
    ∀ move, round.moveStates.get move = .coalesced →
      round.representative (moves.get move).dest = round.representative (moves.get move).src ∧
      (coloring.spilled = [] → ∃ color, coloring.color? (moves.get move).dest = some color ∧
        coloring.color? (moves.get move).src = some color) := by
  intro graph round coloring
  obtain ⟨consistent, ended⟩ := f.consistent_run found pool known
  have invariant := consistent.invariant
  have nodup : round.pool.Nodup := consistent.pool ▸ distinct
  refine ⟨?_, ?_, ?_⟩
  · rintro a b edge colorA colorB foundA foundB rfl
    exact Round.color?_ne_of_hasEdge invariant ended nodup edge foundA foundB
  · intro reg mentioned notPhysical
    have node := mem_nodes_interference liveness mentioned (Reg.isTracked_of_not_physical notPhysical)
    exact consistent.pool ▸ Round.colored_or_spilled invariant ended nodup node notPhysical
  · intro move coalesced
    have alike := consistent.alike move coalesced
    rw [consistent.moves, Table.get_tabulate] at alike
    refine ⟨alike, fun noSpill => ?_⟩
    obtain ⟨color, isColor⟩ := Round.colored_of_not_spilled invariant ended nodup noSpill
      (f.operands_mem_nodes found (known _ (List.get_mem _ _))).1
    refine ⟨color, isColor, ?_⟩
    rw [← isColor, invariant.color?_assignColors nodup, invariant.color?_assignColors nodup, alike]

/-- Adds two numbers by way of copies that can be merged. -/
def Func.copying : Func :=
  { name := "copying"
    blocks := [⟨"entry",
      [.li (.virtual 0) 5, .li (.virtual 1) 7, .move (.virtual 2) (.virtual 0),
        .alu .add (.virtual 3) (.virtual 2) (.virtual 1), .move (.virtual 4) (.virtual 3),
        .store (.virtual 4) (.slot 0)], .ret⟩]
    slots := 1
    nextVirtual := 5 }

theorem Func.coloring_proper_copying :
    ∃ liveness, Func.copying.liveness = .ok liveness ∧ [PhysReg.arg 0, .arg 1].Nodup ∧
      liveness.moves.length = 2 ∧
      let graph := Func.copying.interference liveness
      let round := (Round.start [.arg 0, .arg 1] graph (Table.tabulate liveness.moves.get)).run
      let coloring := round.assignColors
      (∀ a b, graph.hasEdge a b = true → ∀ colorA colorB,
        coloring.color? a = some colorA → coloring.color? b = some colorB → colorA ≠ colorB) ∧
      (∀ reg ∈ Func.copying.regSet, reg.isPhysical = false →
        (∃ color ∈ [PhysReg.arg 0, .arg 1], coloring.color? reg = some color) ∨
          round.representative reg ∈ coloring.spilled) ∧
      ∀ move, round.moveStates.get move = .coalesced →
        round.representative (liveness.moves.get move).dest =
          round.representative (liveness.moves.get move).src ∧
        (coloring.spilled = [] →
          ∃ color, coloring.color? (liveness.moves.get move).dest = some color ∧
            coloring.color? (liveness.moves.get move).src = some color) := by
  have found : Func.copying.liveness =
      .ok (Func.copying.livenessAlong (.ofSuccs Func.copying.flow.targets)) := by rfl
  exact ⟨_, found, by decide, by decide, Func.coloring_proper Func.copying _ found _ (by decide) _
    fun _ member => member⟩

end Lowering.Machine
