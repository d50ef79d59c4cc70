import Lowering.Flow.Search
import Mathlib.Logic.Relation

/-!
# What graph searches visit

A search visits the vertices that can be reached from its agenda, each of them once.
-/

namespace Lowering.Search

variable {n : Nat}

/-- There is a path of successors from one vertex to another. -/
def Reaches (succ : Fin n → List (Fin n)) : Fin n → Fin n → Prop :=
  Relation.ReflTransGen fun a b => b ∈ succ a

theorem Marks.get_set_eq_true {marks : Marks n} {v w : Fin n} :
    (marks.set v true).get w = true ↔ w = v ∨ marks.get w = true := by
  rw [Table.get_set]
  by_cases same : v = w
  · simp [same]
  · simp [same, Ne.symm same]

theorem reaches_of_mem_breadthFirst (succ : Fin n → List (Fin n)) (marks : Marks n)
    (agenda : List (Fin n)) {v : Fin n} (visited : v ∈ breadthFirst succ marks agenda) :
    ∃ root ∈ agenda, Reaches succ root v := by
  induction marks, agenda using breadthFirst.induct succ with
  | case1 marks =>
      rw [breadthFirst] at visited
      cases visited
  | case2 marks next rest marked ih =>
      rw [breadthFirst, if_pos marked] at visited
      obtain ⟨root, member, reaches⟩ := ih visited
      exact ⟨root, List.mem_cons_of_mem _ member, reaches⟩
  | case3 marks next rest fresh ih =>
      rw [breadthFirst, if_neg fresh] at visited
      rcases List.mem_cons.mp visited with rfl | later
      · exact ⟨v, List.mem_cons_self, .refl⟩
      · obtain ⟨root, member, reaches⟩ := ih later
        rcases List.mem_append.mp member with waiting | joined
        · exact ⟨root, List.mem_cons_of_mem _ waiting, reaches⟩
        · exact ⟨next, List.mem_cons_self, .head joined reaches⟩

theorem not_marked_of_mem_breadthFirst (succ : Fin n → List (Fin n)) (marks : Marks n)
    (agenda : List (Fin n)) {v : Fin n} (visited : v ∈ breadthFirst succ marks agenda) :
    ¬ marks.get v = true := by
  induction marks, agenda using breadthFirst.induct succ with
  | case1 marks =>
      rw [breadthFirst] at visited
      cases visited
  | case2 marks next rest marked ih =>
      rw [breadthFirst, if_pos marked] at visited
      exact ih visited
  | case3 marks next rest fresh ih =>
      rw [breadthFirst, if_neg fresh] at visited
      rcases List.mem_cons.mp visited with rfl | later
      · exact fresh
      · exact fun marked => ih later (Marks.get_set_eq_true.mpr (.inr marked))

/-- No vertex is visited twice, because it is marked from its first visit on. -/
theorem nodup_breadthFirst (succ : Fin n → List (Fin n)) (marks : Marks n) (agenda : List (Fin n)) :
    (breadthFirst succ marks agenda).Nodup := by
  induction marks, agenda using breadthFirst.induct succ with
  | case1 marks =>
      rw [breadthFirst]
      exact List.nodup_nil
  | case2 marks next rest marked ih =>
      rw [breadthFirst, if_pos marked]
      exact ih
  | case3 marks next rest fresh ih =>
      rw [breadthFirst, if_neg fresh]
      refine List.nodup_cons.mpr ⟨fun again => ?_, ih⟩
      exact not_marked_of_mem_breadthFirst _ _ _ again (Marks.get_set_eq_true.mpr (.inl rfl))

/-- Everything on the agenda is visited unless it is marked, and so are the successors of what is
visited. -/
theorem breadthFirst_closed (succ : Fin n → List (Fin n)) (marks : Marks n)
    (agenda : List (Fin n)) :
    (∀ v ∈ agenda, v ∈ breadthFirst succ marks agenda ∨ marks.get v = true) ∧
      ∀ v ∈ breadthFirst succ marks agenda, ∀ w ∈ succ v,
        w ∈ breadthFirst succ marks agenda ∨ marks.get w = true := by
  induction marks, agenda using breadthFirst.induct succ with
  | case1 marks =>
      rw [breadthFirst]
      exact ⟨fun v member => absurd member List.not_mem_nil,
        fun v member => absurd member List.not_mem_nil⟩
  | case2 marks next rest marked ih =>
      rw [breadthFirst, if_pos marked]
      refine ⟨fun v member => ?_, ih.2⟩
      rcases List.mem_cons.mp member with rfl | waiting
      · exact .inr marked
      · exact ih.1 v waiting
  | case3 marks next rest fresh ih =>
      rw [breadthFirst, if_neg fresh]
      -- the vertex just marked is the head of the result
      have shift {w : Fin n}
          (known : w ∈ breadthFirst succ (marks.set next true) (rest ++ succ next) ∨
            (marks.set next true).get w = true) :
          w ∈ next :: breadthFirst succ (marks.set next true) (rest ++ succ next) ∨
            marks.get w = true := by
        rcases known with later | marked
        · exact .inl (List.mem_cons_of_mem _ later)
        · rcases Marks.get_set_eq_true.mp marked with rfl | before
          · exact .inl List.mem_cons_self
          · exact .inr before
      refine ⟨fun v member => ?_, fun v member w joined => ?_⟩
      · rcases List.mem_cons.mp member with rfl | waiting
        · exact .inl List.mem_cons_self
        · exact shift (ih.1 v (List.mem_append_left _ waiting))
      · rcases List.mem_cons.mp member with rfl | later
        · exact shift (ih.1 w (List.mem_append_right _ joined))
        · exact shift (ih.2 v later w joined)

/-- A breadth-first search visits exactly the vertices reached from its roots. -/
theorem mem_breadthFirst_iff {succ : Fin n → List (Fin n)} {roots : List (Fin n)} {v : Fin n} :
    v ∈ breadthFirst succ (.none n) roots ↔ ∃ root ∈ roots, Reaches succ root v := by
  refine ⟨reaches_of_mem_breadthFirst succ _ roots, ?_⟩
  rintro ⟨root, member, reaches⟩
  have unmarked (w : Fin n) : ¬ (Marks.none n).get w = true := by
    unfold Marks.none
    simp
  have closed := breadthFirst_closed succ (.none n) roots
  induction reaches with
  | refl => exact (closed.1 root member).resolve_right (unmarked root)
  | tail _ joined ih =>
      exact (closed.2 _ ih _ joined).resolve_right (unmarked _)

end Lowering.Search
