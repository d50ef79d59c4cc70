import Lowering.Flow.Search

/-!
# Joins

The iterated dominance frontier of a set of blocks: the frontiers of the blocks, the frontiers of
the blocks found in them, and so on.  Each block found is listed once, in the order it is found.
-/

namespace Lowering.Ssa

open Search

variable {n : Nat}

/-- A search for joins: the blocks found so far and those whose frontiers are still to be taken. -/
structure JoinSearch (n : Nat) where
  found : Marks n
  joins : List (Fin n)
  agenda : List (Fin n)

namespace JoinSearch

def weight (search : JoinSearch n) : Nat := search.found.left + search.agenda.length

/-- Takes a block of a frontier into account; the frontiers of `sites` are on the agenda anyway. -/
def meet (sites : List (Fin n)) (search : JoinSearch n) (join : Fin n) : JoinSearch n :=
  if search.found.get join then search
  else
    { found := search.found.set join true
      joins := search.joins ++ [join]
      agenda := if sites.contains join then search.agenda else join :: search.agenda }

theorem weight_meet_le (sites : List (Fin n)) (search : JoinSearch n) (join : Fin n) :
    (search.meet sites join).weight ≤ search.weight := by
  unfold meet
  split
  · exact Nat.le_refl _
  · next fresh =>
      have fewer := Marks.left_set_lt search.found join fresh
      have longer :
          (if sites.contains join then search.agenda else join :: search.agenda).length ≤
            search.agenda.length + 1 := by
        split
        · exact Nat.le_succ _
        · exact Nat.le_refl _
      simp only [weight]
      omega

theorem weight_foldl_le (sites : List (Fin n)) (frontier : List (Fin n)) (search : JoinSearch n) :
    (frontier.foldl (meet sites) search).weight ≤ search.weight := by
  induction frontier generalizing search with
  | nil => exact Nat.le_refl _
  | cons join rest ih =>
      exact Nat.le_trans (ih _) (weight_meet_le sites search join)

/-- Takes frontiers until the agenda is empty. -/
def run (frontiers : Table n (List (Fin n))) (sites : List (Fin n)) :
    JoinSearch n → JoinSearch n
  | ⟨found, joins, []⟩ => ⟨found, joins, []⟩
  | ⟨found, joins, block :: rest⟩ =>
      run frontiers sites ((frontiers.get block).foldl (meet sites) ⟨found, joins, rest⟩)
termination_by search => search.weight
decreasing_by
  have smaller : weight ⟨found, joins, rest⟩ < weight ⟨found, joins, block :: rest⟩ :=
    Nat.lt_succ_self _
  exact Nat.lt_of_le_of_lt (weight_foldl_le sites _ _) smaller

end JoinSearch

/-- The joins of the given blocks, in the order they are found from the last block on. -/
def joins (frontiers : Table n (List (Fin n))) (sites : List (Fin n)) : List (Fin n) :=
  (JoinSearch.run frontiers sites ⟨.none n, [], sites.reverse⟩).joins

end Lowering.Ssa
