import Lowering.Table

/-!
# Graph searches

Breadth-first and depth-first search over `Fin n` from a successor function.  A vertex is marked
when it leaves the agenda, so the searches differ only in the end of the agenda that successors
join.  Every step marks a vertex or shortens the agenda.
-/

namespace Lowering.Search

variable {n : Nat}

/-- Which vertices have been visited. -/
abbrev Marks (n : Nat) := Table n Bool

/-- No vertex is visited. -/
def Marks.none (n : Nat) : Marks n := Table.replicate n false

/-- The number of vertices not visited yet. -/
def Marks.left (marks : Marks n) : Nat := marks.entries.count false

theorem Marks.left_set_lt (marks : Marks n) (v : Fin n) (fresh : ¬ marks.get v = true) :
    Marks.left (marks.set v true) < marks.left := by
  have unseen : marks.entries[v.val] = false := (Bool.not_eq_true _).mp fresh
  have found : 0 < marks.entries.count false :=
    Vector.count_pos_iff.mpr (unseen ▸ Vector.getElem_mem v.isLt)
  have kept : (true == false) = false := rfl
  unfold Marks.left Table.set
  rw [Vector.count_set, unseen]
  simp only [beq_self_eq_true, kept, if_true, Bool.false_eq_true, if_false]
  omega

/-- Vertices in the order a queue visits them. -/
def breadthFirst (succ : Fin n → List (Fin n)) (marks : Marks n) :
    List (Fin n) → List (Fin n)
  | [] => []
  | v :: rest =>
      if marks.get v then breadthFirst succ marks rest
      else v :: breadthFirst succ (marks.set v true) (rest ++ succ v)
termination_by agenda => (marks.left, agenda.length)
decreasing_by
  · exact Prod.Lex.right _ (by simp)
  · exact Prod.Lex.left _ _ (marks.left_set_lt v ‹_›)

/-- Vertices in the order a stack visits them, each with the vertex it was reached from. -/
def depthFirst (succ : Fin n → List (Fin n)) (marks : Marks n) :
    List (Fin n × Fin n) → List (Fin n × Fin n)
  | [] => []
  | (parent, v) :: rest =>
      if marks.get v then depthFirst succ marks rest
      else (parent, v) ::
        depthFirst succ (marks.set v true) ((succ v).map (fun s => (v, s)) ++ rest)
termination_by agenda => (marks.left, agenda.length)
decreasing_by
  · exact Prod.Lex.right _ (by simp)
  · exact Prod.Lex.left _ _ (marks.left_set_lt v ‹_›)

end Lowering.Search
