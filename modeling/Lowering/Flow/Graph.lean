import Lowering.Fault

/-!
# Flow graphs

Each of `n` blocks carries the raw successor list of its terminator: repeated targets and targets
that are no blocks are allowed here.
-/

namespace Lowering

/-- Successors of blocks `0 … n - 1`, in terminator order. -/
structure FlowGraph (n : Nat) where
  succs : Fin n → List Nat

namespace FlowGraph

variable {n : Nat}

def ofRows (rows : List (List Nat)) : FlowGraph rows.length := ⟨rows.get⟩

/-- The block control starts in, unless another one is named. -/
def entry : Nat := 0

/-- The successors that are blocks, in order and with repetitions. -/
def targets (graph : FlowGraph n) (block : Fin n) : List (Fin n) :=
  (graph.succs block).filterMap fun target =>
    if inside : target < n then some ⟨target, inside⟩ else none

/-- The first successor of a block that is not a block. -/
def stray? (graph : FlowGraph n) (block : Fin n) : Option Nat :=
  (graph.succs block).find? fun target => !decide (target < n)

theorem mem_targets {graph : FlowGraph n} {block target : Fin n} :
    target ∈ graph.targets block ↔ target.val ∈ graph.succs block := by
  simp only [targets, List.mem_filterMap]
  constructor
  · rintro ⟨raw, member, equal⟩
    split at equal
    · cases equal
      exact member
    · cases equal
  · intro member
    exact ⟨target.val, member, by simp⟩

theorem stray?_eq_none_iff {graph : FlowGraph n} {block : Fin n} :
    graph.stray? block = none ↔ ∀ target ∈ graph.succs block, target < n := by
  unfold stray?
  simp

/-- Without a successor that is not a block, the targets are the raw successors. -/
theorem map_val_targets {graph : FlowGraph n} {block : Fin n} (closed : graph.stray? block = none) :
    (graph.targets block).map Fin.val = graph.succs block := by
  have inside := stray?_eq_none_iff.mp closed
  unfold targets
  revert inside
  induction graph.succs block with
  | nil => exact fun _ => rfl
  | cons first rest ih =>
      intro inside
      obtain ⟨firstInside, restInside⟩ := List.forall_mem_cons.mp inside
      simp [firstInside, ih restInside]

end FlowGraph

end Lowering
