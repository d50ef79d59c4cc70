import Lowering.Allocation.Interference
import Lowering.Proofs.Allocation.Liveness
import Lowering.Proofs.Graph

/-!
# Interference graphs

The interference graph of a function is undirected and has the tracked registers of the function
as its nodes.  A definition is joined with everything that is live behind it, except that a copy is
not joined with its source.
-/

namespace Lowering.Machine

namespace InterferenceGraph

variable {graph : InterferenceGraph}

theorem hasEdge_foldl_addEdge {d a b : Reg} (regs : List Reg) (graph : InterferenceGraph) :
    (regs.foldl (fun graph l => graph.addEdge d l) graph).hasEdge a b = true ↔
      (a ≠ b ∧ ((a = d ∧ b ∈ regs) ∨ (b = d ∧ a ∈ regs))) ∨ graph.hasEdge a b = true := by
  induction regs generalizing graph with
  | nil => simp
  | cons first rest ih =>
      rw [List.foldl_cons, ih, Graph.hasEdge_addEdge, List.mem_cons, List.mem_cons]
      constructor
      · rintro (⟨different, joined⟩ | ⟨different, joined⟩ | old)
        · exact .inl ⟨different, joined.imp (.imp_right .inr) (.imp_right .inr)⟩
        · rcases joined with ⟨rfl, rfl⟩ | ⟨rfl, rfl⟩
          · exact .inl ⟨different, .inl ⟨rfl, .inl rfl⟩⟩
          · exact .inl ⟨Ne.symm different, .inr ⟨rfl, .inl rfl⟩⟩
        · exact .inr old
      · rintro (⟨different, ⟨rfl, rfl | later⟩ | ⟨rfl, rfl | later⟩⟩ | old)
        · exact .inr (.inl ⟨different, .inl ⟨rfl, rfl⟩⟩)
        · exact .inl ⟨different, .inl ⟨rfl, later⟩⟩
        · exact .inr (.inl ⟨Ne.symm different, .inr ⟨rfl, rfl⟩⟩)
        · exact .inl ⟨different, .inr ⟨rfl, later⟩⟩
        · exact .inr (.inr old)

/-- `joinAll` joins the given registers with the live ones and keeps the edges there are. -/
theorem hasEdge_joinAll {defs : List Reg} {live : RegSet} {a b : Reg} :
    (graph.joinAll defs live).hasEdge a b = true ↔
      (a ≠ b ∧ ((a ∈ defs ∧ b ∈ live) ∨ (b ∈ defs ∧ a ∈ live))) ∨ graph.hasEdge a b = true := by
  unfold joinAll
  simp only [Std.TreeSet.foldl_eq_foldl_toList]
  induction defs generalizing graph with
  | nil => simp
  | cons first rest ih =>
      rw [List.foldl_cons, ih, hasEdge_foldl_addEdge, RegSet.mem_toList,
        RegSet.mem_toList, List.mem_cons, List.mem_cons, ← or_assoc, ← and_or_left]
      constructor
      · rintro (⟨different, joined | joined⟩ | old)
        · exact .inl ⟨different, joined.imp (.imp_left .inr) (.imp_left .inr)⟩
        · exact .inl ⟨different, joined.imp (.imp_left .inl) (.imp_left .inl)⟩
        · exact .inr old
      · rintro (⟨different, ⟨rfl | later, live⟩ | ⟨rfl | later, live⟩⟩ | old)
        · exact .inl ⟨different, .inr (.inl ⟨rfl, live⟩)⟩
        · exact .inl ⟨different, .inl (.inl ⟨later, live⟩)⟩
        · exact .inl ⟨different, .inr (.inr ⟨rfl, live⟩)⟩
        · exact .inl ⟨different, .inl (.inr ⟨later, live⟩)⟩
        · exact .inr old

/-- Every edge added by `joinAll` is one step of adding edges. -/
theorem joinAll_induct {P : InterferenceGraph → Prop}
    (step : ∀ graph a b, P graph → P (Graph.addEdge graph a b)) (defs : List Reg) (live : RegSet)
    (holds : P graph) : P (graph.joinAll defs live) := by
  unfold joinAll
  refine List.foldlRecOn defs _ holds fun graph holds d _ => ?_
  rw [Std.TreeSet.foldl_eq_foldl_toList]
  exact List.foldlRecOn live.toList _ holds fun graph holds l _ => step graph d l holds

end InterferenceGraph

section Induct

variable {P : InterferenceGraph → Prop}

theorem foldr_interfere_induct (step : ∀ graph a b, P graph → P (Graph.addEdge graph a b))
    (instrs : List Instr) {below : InterferenceGraph × RegSet} (holds : P below.1) :
    P (instrs.foldr Instr.interfere below).1 := by
  induction instrs with
  | nil => exact holds
  | cons instr rest ih =>
      exact InterferenceGraph.joinAll_induct step _ _ ih

/-- What holds of the nodes alone and survives new edges holds of the interference graph. -/
theorem Func.interference_induct (step : ∀ graph a b, P graph → P (Graph.addEdge graph a b))
    {f : Func} (liveness : Liveness f.blocks.length) (holds : P f.trackedNodes) :
    P (f.interference liveness) :=
  List.foldlRecOn _ _ holds fun _ holds _ _ => foldr_interfere_induct step _ holds

end Induct

namespace Func

variable {f : Func}

theorem undirected_trackedNodes : f.trackedNodes.Undirected :=
  List.foldlRecOn _ _ Graph.Undirected.empty fun _ undirected reg _ => undirected.addNode reg

theorem undirected_interference (liveness : Liveness f.blocks.length) :
    (f.interference liveness).Undirected :=
  interference_induct (fun _ a b undirected => undirected.addEdge a b) liveness
    undirected_trackedNodes

/-- The tracked registers of a function are nodes of its interference graph. -/
theorem mem_nodes_interference (liveness : Liveness f.blocks.length) {reg : Reg}
    (mentioned : reg ∈ f.regSet) (tracked : reg.isTracked = true) :
    reg ∈ (f.interference liveness).nodes := by
  refine interference_induct (P := fun graph => reg ∈ graph.nodes)
    (fun _ a b member => Graph.mem_nodes_addEdge.mpr (.inr member)) liveness ?_
  unfold trackedNodes
  rw [Graph.mem_nodes_foldl_addNode, List.mem_filter, RegSet.mem_toList]
  exact .inl ⟨mentioned, tracked⟩

/-- Every other node of an interference graph has a neighbor. -/
theorem mem_nodes_interference_cases {liveness : Liveness f.blocks.length} {reg : Reg}
    (node : reg ∈ (f.interference liveness).nodes) :
    (reg ∈ f.regSet ∧ reg.isTracked = true) ∨
      ∃ other, (f.interference liveness).hasEdge reg other = true := by
  refine interference_induct (P := fun graph => ∀ reg ∈ graph.nodes,
    (reg ∈ f.regSet ∧ reg.isTracked = true) ∨ ∃ other, graph.hasEdge reg other = true)
    (fun graph a b known reg node => ?_) liveness (fun reg node => ?_) reg node
  · rcases Graph.mem_nodes_addEdge.mp node with ⟨different, rfl | rfl⟩ | old
    · exact .inr ⟨b, Graph.hasEdge_addEdge.mpr (.inl ⟨different, .inl ⟨rfl, rfl⟩⟩)⟩
    · exact .inr ⟨a, Graph.hasEdge_addEdge.mpr (.inl ⟨different, .inr ⟨rfl, rfl⟩⟩)⟩
    · exact (known reg old).imp_right fun ⟨other, edge⟩ =>
        ⟨other, Graph.hasEdge_addEdge.mpr (.inr edge)⟩
  · unfold trackedNodes at node
    rw [Graph.mem_nodes_foldl_addNode, List.mem_filter, RegSet.mem_toList] at node
    rcases node with known | none
    · exact .inl known
    · cases none

end Func

/-- The copies of a block are copies between tracked registers that it mentions. -/
theorem Block.regs_of_mem_moves {index : Nat} {block : Block} {site : MoveSite}
    (member : site ∈ block.moves index) :
    (site.dest ∈ block.regs ∧ site.dest.isTracked = true) ∧
      site.src ∈ block.regs ∧ site.src.isTracked = true := by
  unfold Block.moves at member
  obtain ⟨row, isRow, inRow⟩ := List.mem_flatten.mp member
  obtain ⟨position, inside, rfl⟩ := List.mem_mapIdx.mp isRow
  have mentioned : block.instrs[position] ∈ block.instrs := List.getElem_mem inside
  split at inRow
  · next dest src isCopy =>
      split at inRow
      · next tracked =>
          cases List.mem_singleton.mp inRow
          rw [Bool.and_eq_true] at tracked
          rw [isCopy] at mentioned
          have known (reg : Reg) (operand : reg ∈ (Instr.move dest src).uses ++
              (Instr.move dest src).defs) : reg ∈ block.regs :=
            List.mem_append_left _ (List.mem_flatMap.mpr ⟨_, mentioned, operand⟩)
          exact ⟨⟨known dest (by simp [Instr.uses, Instr.defs]), tracked.1⟩,
            known src (by simp [Instr.uses, Instr.defs]), tracked.2⟩
      · cases inRow
  · cases inRow

/-- The operands of a function's copies are nodes of its interference graph. -/
theorem Func.operands_mem_nodes {f : Func} {liveness : Liveness f.blocks.length}
    (found : f.liveness = .ok liveness) {site : MoveSite} (member : site ∈ liveness.moves) :
    site.dest ∈ (f.interference liveness).nodes ∧ site.src ∈ (f.interference liveness).nodes := by
  obtain ⟨_, _, rfl⟩ := Func.liveness_eq_ok found
  obtain ⟨row, isRow, inRow⟩ := List.mem_flatten.mp member
  obtain ⟨position, inside, rfl⟩ := List.mem_mapIdx.mp isRow
  obtain ⟨⟨dest, destTracked⟩, src, srcTracked⟩ := Block.regs_of_mem_moves inRow
  have here : f.blocks[position] ∈ f.blocks := List.getElem_mem inside
  exact ⟨mem_nodes_interference _ (mem_regSet.mpr ⟨_, here, dest⟩) destTracked,
    mem_nodes_interference _ (mem_regSet.mpr ⟨_, here, src⟩) srcTracked⟩

section Soundness

variable {graph : InterferenceGraph} {live : RegSet} {reg : Reg}

theorem Instr.mem_interfere {instr : Instr} (tracked : ∀ reg ∈ live, reg.isTracked = true) :
    reg ∈ (instr.interfere (graph, live)).2 ↔ reg ∈ instr.liveBefore live := by
  unfold interfere
  dsimp only
  rw [mem_liveBefore, RegSet.mem_addTracked, RegSet.mem_removeAll, RegSet.mem_addTracked]
  simp only [List.mem_filter]
  constructor
  · rintro (⟨⟨used, isTracked⟩, _⟩ | ⟨⟨defined, _⟩ | kept, notDefined⟩)
    · exact .inl ⟨used, isTracked⟩
    · exact absurd defined notDefined
    · have isLive : reg ∈ live := by
        split at kept
        · exact (RegSet.mem_removeAll.mp kept).1
        · exact kept
      exact .inr ⟨isLive, fun defined => notDefined ⟨defined, tracked reg isLive⟩⟩
  · rintro (⟨used, isTracked⟩ | ⟨isLive, notDefined⟩)
    · exact .inl ⟨⟨used, isTracked⟩, isTracked⟩
    · by_cases used : reg ∈ instr.uses
      · exact .inl ⟨⟨used, tracked reg isLive⟩, tracked reg isLive⟩
      · refine .inr ⟨.inr ?_, fun defined => notDefined defined.1⟩
        split
        · rw [RegSet.mem_removeAll, List.mem_filter]
          exact ⟨isLive, fun member => used member.1⟩
        · exact isLive

theorem isTracked_of_mem_foldr {instrs : List Instr}
    (tracked : ∀ reg ∈ live, reg.isTracked = true)
    (needed : reg ∈ instrs.foldr Instr.liveBefore live) : reg.isTracked = true :=
  (Func.mentioned_of_mem_foldr needed).elim And.right (tracked reg)

theorem mem_foldr_interfere {instrs : List Instr} (tracked : ∀ reg ∈ live, reg.isTracked = true) :
    reg ∈ (instrs.foldr Instr.interfere (graph, live)).2 ↔
      reg ∈ instrs.foldr Instr.liveBefore live := by
  induction instrs generalizing reg with
  | nil => exact Iff.rfl
  | cons instr rest ih =>
      have restTracked : ∀ reg ∈ (rest.foldr Instr.interfere (graph, live)).2,
          reg.isTracked = true := by
        intro reg member
        exact isTracked_of_mem_foldr tracked (ih.mp member)
      rw [List.foldr_cons, List.foldr_cons, Instr.mem_interfere restTracked,
        Instr.mem_liveBefore, Instr.mem_liveBefore, ih]

/-- An instruction joins what it defines with what is live behind it, the source of a copy
excepted. -/
theorem Instr.hasEdge_interfere {instr : Instr} {d l : Reg} (defined : d ∈ instr.defs)
    (isTracked : d.isTracked = true) (different : d ≠ l) (isLive : l ∈ live)
    (notCopied : ¬ (instr.isMove = true ∧ l ∈ instr.uses)) :
    (instr.interfere (graph, live)).1.hasEdge d l = true := by
  unfold interfere
  dsimp only
  rw [InterferenceGraph.hasEdge_joinAll]
  refine .inl ⟨different, .inl ⟨List.mem_filter.mpr ⟨defined, isTracked⟩, ?_⟩⟩
  rw [RegSet.mem_addTracked]
  right
  split
  · next isMove =>
      rw [RegSet.mem_removeAll, List.mem_filter]
      exact ⟨isLive, fun used => notCopied ⟨isMove, used.1⟩⟩
  · exact isLive

/-- A definition is joined in the interference graph with what is live behind it, the source of a
copy excepted. -/
theorem Func.hasEdge_interference {f : Func} {liveness : Liveness f.blocks.length}
    {block : Fin f.blocks.length} {before rest : List Instr} {instr : Instr}
    (split : (f.blocks.get block).instrs = before ++ instr :: rest)
    (tracked : ∀ reg ∈ liveness.liveOut.get block, reg.isTracked = true) {d l : Reg}
    (defined : d ∈ instr.defs) (isTracked : d.isTracked = true) (different : d ≠ l)
    (isLive : l ∈ rest.foldr Instr.liveBefore
      (RegSet.addTracked (liveness.liveOut.get block) (f.blocks.get block).term.uses))
    (notCopied : ¬ (instr.isMove = true ∧ l ∈ instr.uses)) :
    (f.interference liveness).hasEdge d l = true := by
  have endTracked : ∀ reg ∈ RegSet.addTracked (liveness.liveOut.get block)
      (f.blocks.get block).term.uses, reg.isTracked = true := by
    intro reg member
    exact (RegSet.mem_addTracked.mp member).elim And.right (tracked reg)
  have keep (graph : InterferenceGraph) (a b : Reg) (edge : graph.hasEdge d l = true) :
      (Graph.addEdge graph a b).hasEdge d l = true := Graph.hasEdge_addEdge.mpr (.inr edge)
  have member : block ∈ List.finRange f.blocks.length := List.mem_finRange block
  obtain ⟨earlier, later, isSplit⟩ := List.append_of_mem member
  unfold interference
  rw [isSplit, List.foldl_append, List.foldl_cons]
  -- later blocks and earlier instructions only add edges
  refine List.foldlRecOn (motive := fun graph : InterferenceGraph => graph.hasEdge d l = true)
    later _ ?_ fun _ edge _ _ => foldr_interfere_induct keep _ edge
  unfold Block.interfere
  rw [split, List.foldr_append, List.foldr_cons]
  apply foldr_interfere_induct keep
  apply Instr.hasEdge_interfere defined isTracked different _ notCopied
  exact (mem_foldr_interfere endTracked).mpr isLive

end Soundness

section Exactness

variable {graph : InterferenceGraph} {live : RegSet} {a b : Reg}

/-- An instruction defines a register beside another one, the source of a copy excepted. -/
def Instr.Joins (instr : Instr) (live : RegSet) (a b : Reg) : Prop :=
  a ≠ b ∧ (a ∈ instr.defs ∧ a.isTracked = true) ∧
    (b ∈ instr.defs ∧ b.isTracked = true ∨ b ∈ live ∧ ¬ (instr.isMove = true ∧ b ∈ instr.uses))

/-- Some instruction of straight code defines a register beside another one. -/
def Joined : List Instr → RegSet → Reg → Reg → Prop
  | [], _, _, _ => False
  | instr :: rest, live, a, b =>
      instr.Joins (rest.foldr Instr.liveBefore live) a b ∨ Joined rest live a b

theorem joined_append {code more : List Instr} :
    Joined (code ++ more) live a b ↔
      Joined code (more.foldr Instr.liveBefore live) a b ∨ Joined more live a b := by
  induction code with
  | nil => simp [Joined]
  | cons instr rest ih =>
      rw [List.cons_append, Joined, Joined, ih, List.foldr_append, or_assoc]

theorem Instr.hasEdge_interfere_iff {instr : Instr}
    (tracked : ∀ reg ∈ live, reg.isTracked = true) :
    (instr.interfere (graph, live)).1.hasEdge a b = true ↔
      (instr.Joins live a b ∨ instr.Joins live b a) ∨ graph.hasEdge a b = true := by
  have mem_after (reg : Reg) : reg ∈ RegSet.addTracked (if instr.isMove then
      RegSet.removeAll live (instr.uses.filter Reg.isTracked) else live)
        (instr.defs.filter Reg.isTracked) ↔
      reg ∈ instr.defs ∧ reg.isTracked = true ∨
        reg ∈ live ∧ ¬ (instr.isMove = true ∧ reg ∈ instr.uses) := by
    rw [RegSet.mem_addTracked, List.mem_filter, and_assoc, and_self]
    cases instr.isMove with
    | false => simp
    | true =>
        rw [if_pos rfl, RegSet.mem_removeAll, List.mem_filter]
        refine or_congr_right (and_congr_right fun isLive => ?_)
        simp [tracked reg isLive]
  unfold interfere Joins
  dsimp only
  rw [InterferenceGraph.hasEdge_joinAll, mem_after, mem_after, List.mem_filter, List.mem_filter,
    ne_comm, ← and_or_left]

theorem hasEdge_foldr_interfere_iff {instrs : List Instr}
    (tracked : ∀ reg ∈ live, reg.isTracked = true) :
    (instrs.foldr Instr.interfere (graph, live)).1.hasEdge a b = true ↔
      (Joined instrs live a b ∨ Joined instrs live b a) ∨ graph.hasEdge a b = true := by
  induction instrs with
  | nil => simp [Joined]
  | cons instr rest ih =>
      have behind : ∀ reg ∈ (rest.foldr Instr.interfere (graph, live)).2, reg.isTracked = true :=
        fun reg member => isTracked_of_mem_foldr tracked ((mem_foldr_interfere tracked).mp member)
      have same (x y : Reg) : instr.Joins (rest.foldr Instr.interfere (graph, live)).2 x y ↔
          instr.Joins (rest.foldr Instr.liveBefore live) x y := by
        simp only [Instr.Joins, mem_foldr_interfere tracked]
      rw [List.foldr_cons, Instr.hasEdge_interfere_iff behind, ih, same, same,
        ← or_assoc, or_or_or_comm]
      rfl

/-- What is live behind the instructions of a block: what its terminator reads and what is live out of
the block. -/
def Block.liveEnd (block : Block) (liveOut : RegSet) : RegSet :=
  RegSet.addTracked liveOut block.term.uses

/-- Registers interfere exactly if some instruction defines one of them beside the other one. -/
theorem Func.hasEdge_interference_iff {f : Func} {liveness : Liveness f.blocks.length}
    (tracked : ∀ block, ∀ reg ∈ liveness.liveOut.get block, reg.isTracked = true) :
    (f.interference liveness).hasEdge a b = true ↔ ∃ block,
      Joined (f.blocks.get block).instrs
          ((f.blocks.get block).liveEnd (liveness.liveOut.get block)) a b ∨
        Joined (f.blocks.get block).instrs
          ((f.blocks.get block).liveEnd (liveness.liveOut.get block)) b a := by
  have endTracked (block : Fin f.blocks.length) : ∀ reg ∈
      (f.blocks.get block).liveEnd (liveness.liveOut.get block), reg.isTracked = true :=
    fun reg member => (RegSet.mem_addTracked.mp member).elim And.right (tracked block reg)
  have bare (regs : List Reg) (graph : InterferenceGraph) :
      (regs.foldl (fun graph reg => graph.addNode reg) graph).hasEdge a b = graph.hasEdge a b :=
    List.foldlRecOn (motive := fun after : InterferenceGraph => after.hasEdge a b = graph.hasEdge a b)
      regs _ rfl fun after same reg _ => by rw [Graph.hasEdge_addNode, same]
  have fold (blocks : List (Fin f.blocks.length)) (graph : InterferenceGraph) :
      (blocks.foldl (fun graph block =>
        (f.blocks.get block).interfere (liveness.liveOut.get block) graph) graph).hasEdge a b = true ↔
      (∃ block ∈ blocks, Joined (f.blocks.get block).instrs
          ((f.blocks.get block).liveEnd (liveness.liveOut.get block)) a b ∨
        Joined (f.blocks.get block).instrs
          ((f.blocks.get block).liveEnd (liveness.liveOut.get block)) b a) ∨
        graph.hasEdge a b = true := by
    induction blocks generalizing graph with
    | nil => simp
    | cons block rest ih =>
        rw [List.foldl_cons, ih]
        unfold Block.interfere
        rw [show RegSet.addTracked (liveness.liveOut.get block) (f.blocks.get block).term.uses =
          (f.blocks.get block).liveEnd (liveness.liveOut.get block) from rfl,
          hasEdge_foldr_interfere_iff (endTracked block), ← or_assoc,
          or_comm (a := ∃ _, _)]
        simp only [List.mem_cons, exists_eq_or_imp]
  unfold interference
  rw [fold]
  unfold trackedNodes
  rw [bare]
  simp [Graph.hasEdge_empty]

end Exactness

end Lowering.Machine
