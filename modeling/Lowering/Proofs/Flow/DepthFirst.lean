import Lowering.Proofs.Flow.Search
import Mathlib.Data.List.Nodup

/-!
# The order of a depth-first search

The agenda of a depth-first search lists the successors of the vertices visited last first.  So
while an edge waits on the agenda, only vertices found from behind its source are visited, and every
edge to a vertex visited later spans vertices found from below its source.
-/

namespace Lowering.Search

variable {n : Nat} {succ : Fin n → List (Fin n)} {root : Fin n} {marks : Marks n}
  {done agenda : List (Fin n × Fin n)}

/-- The place of a vertex among those visited. -/
def place (done : List (Fin n × Fin n)) (v : Fin n) : Nat := (done.map Prod.snd).idxOf v

theorem place_lt {v : Fin n} (visited : v ∈ done.map Prod.snd) : place done v < done.length := by
  unfold place
  simpa using List.idxOf_lt_length_of_mem visited

theorem place_append {v : Fin n} (visited : v ∈ done.map Prod.snd)
    (later : List (Fin n × Fin n)) : place (done ++ later) v = place done v := by
  unfold place
  rw [List.map_append, List.idxOf_append_of_mem visited]

theorem place_append_self {v : Fin n} (fresh : v ∉ done.map Prod.snd) (u : Fin n) :
    place (done ++ [(u, v)]) v = done.length := by
  unfold place
  rw [List.map_append, List.idxOf_append_of_notMem fresh]
  simp

/-- A search from `root` that has visited `done` and has `agenda` before it. -/
structure Searching (succ : Fin n → List (Fin n)) (root : Fin n)
    (done : List (Fin n × Fin n)) (marks : Marks n) (agenda : List (Fin n × Fin n)) : Prop where
  head : done.head? = some (root, root)
  nodup : (done.map Prod.snd).Nodup
  marked : ∀ v, marks.get v = true ↔ v ∈ done.map Prod.snd
  found : ∀ step ∈ done, step = (root, root) ∨
    step.1 ∈ done.map Prod.snd ∧ place done step.1 < place done step.2 ∧ step.2 ∈ succ step.1
  waiting : ∀ entry ∈ agenda, entry.1 ∈ done.map Prod.snd ∧ entry.2 ∈ succ entry.1
  pending : ∀ v ∈ done.map Prod.snd, ∀ w ∈ succ v, w ∈ done.map Prod.snd ∨ (v, w) ∈ agenda
  /-- Entries from vertices visited later come first. -/
  sorted : agenda.Pairwise fun first second => place done second.1 ≤ place done first.1
  /-- Since the source of an entry was visited, only vertices below it were. -/
  recent : ∀ entry ∈ agenda, ∀ step ∈ done,
    place done entry.1 < place done step.2 → place done entry.1 ≤ place done step.1
  spans : ∀ a ∈ done.map Prod.snd, ∀ b ∈ done.map Prod.snd, b ∈ succ a → ∀ step ∈ done,
    place done a < place done step.2 → place done step.2 ≤ place done b →
      place done a ≤ place done step.1

namespace Searching

/-- The root is visited and its successors wait. -/
theorem start (succ : Fin n → List (Fin n)) (root : Fin n) :
    Searching succ root [(root, root)] ((Marks.none n).set root true)
      ((succ root).map fun s => (root, s)) where
  head := rfl
  nodup := by simp
  marked := by
    intro v
    rw [Marks.get_set_eq_true]
    unfold Marks.none
    simp
  found := by simp
  waiting := by simp
  pending := by
    intro v visited w joined
    obtain rfl : v = root := by simpa using visited
    exact .inr (List.mem_map_of_mem joined)
  sorted := by
    rw [List.pairwise_map]
    exact List.pairwise_of_forall fun _ _ => Nat.le_refl _
  recent := by simp [place]
  spans := by simp [place]

variable {u v : Fin n} {rest : List (Fin n × Fin n)}

theorem drop (searching : Searching succ root done marks ((u, v) :: rest))
    (known : marks.get v = true) : Searching succ root done marks rest :=
  { searching with
    waiting := fun entry member => searching.waiting entry (List.mem_cons_of_mem _ member)
    pending := by
      intro a visited b joined
      rcases searching.pending a visited b joined with seen | listed
      · exact .inl seen
      · rcases List.mem_cons.mp listed with same | later
        · obtain ⟨rfl, rfl⟩ := Prod.mk.inj same
          exact .inl ((searching.marked b).mp known)
        · exact .inr later
    sorted := searching.sorted.of_cons
    recent := fun entry member => searching.recent entry (List.mem_cons_of_mem _ member) }

theorem parent_mem (searching : Searching succ root done marks agenda)
    {step : Fin n × Fin n} (member : step ∈ done) : step.1 ∈ done.map Prod.snd := by
  rcases searching.found step member with rfl | ⟨visited, _⟩
  · exact List.mem_map_of_mem member
  · exact visited

/-- The first entry of the agenda comes from the vertex visited last. -/
theorem place_le_of_mem (searching : Searching succ root done marks ((u, v) :: rest))
    {entry : Fin n × Fin n} (member : entry ∈ (u, v) :: rest) :
    place done entry.1 ≤ place done u := by
  rcases List.mem_cons.mp member with rfl | later
  · exact Nat.le_refl _
  · exact List.rel_of_pairwise_cons searching.sorted later

/-- Since the source of an entry was visited, only vertices below it were, the next one included. -/
theorem recent_visit (searching : Searching succ root done marks ((u, v) :: rest))
    {entry step : Fin n × Fin n} (listed : entry ∈ (u, v) :: rest) (taken : step ∈ done ++ [(u, v)])
    (later : place (done ++ [(u, v)]) entry.1 < place (done ++ [(u, v)]) step.2) :
    place (done ++ [(u, v)]) entry.1 ≤ place (done ++ [(u, v)]) step.1 := by
  rw [place_append (searching.waiting entry listed).1] at later ⊢
  rcases List.mem_append.mp taken with earlier | new
  · rw [place_append (List.mem_map_of_mem earlier)] at later
    rw [place_append (searching.parent_mem earlier)]
    exact searching.recent entry listed step earlier later
  · obtain rfl := List.mem_singleton.mp new
    rw [place_append (searching.waiting (u, v) List.mem_cons_self).1]
    exact searching.place_le_of_mem listed

theorem visit (searching : Searching succ root done marks ((u, v) :: rest))
    (unmarked : ¬ marks.get v = true) :
    Searching succ root (done ++ [(u, v)]) (marks.set v true)
      ((succ v).map (fun s => (v, s)) ++ rest) := by
  have fresh : v ∉ done.map Prod.snd := fun visited => unmarked ((searching.marked v).mpr visited)
  have source := searching.waiting (u, v) List.mem_cons_self
  have visited_iff (x : Fin n) :
      x ∈ (done ++ [(u, v)]).map Prod.snd ↔ x ∈ done.map Prod.snd ∨ x = v := by
    simp only [List.map_append, List.mem_append, List.map_cons, List.map_nil,
      List.mem_singleton]
  have kept {x : Fin n} (visited : x ∈ done.map Prod.snd) :
      place (done ++ [(u, v)]) x = place done x := place_append visited _
  have last : place (done ++ [(u, v)]) v = done.length := place_append_self fresh u
  have bounded {step : Fin n × Fin n} (member : step ∈ done ++ [(u, v)]) :
      place (done ++ [(u, v)]) step.2 ≤ place (done ++ [(u, v)]) v := by
    have := place_lt (List.mem_map_of_mem (f := Prod.snd) member)
    simp only [List.length_append, List.length_singleton] at this
    omega
  refine ⟨?head, ?nodup, ?marked, ?found, ?waiting, ?pending, ?sorted, ?recent, ?spans⟩
  case head => rw [List.head?_append, searching.head, Option.some_or]
  case nodup =>
    rw [List.map_append, List.map_cons, List.map_nil, List.nodup_append]
    refine ⟨searching.nodup, by simp, ?_⟩
    intro x visited y new same
    obtain rfl : y = v := List.mem_singleton.mp new
    exact fresh (same ▸ visited)
  case marked =>
    intro x
    rw [Marks.get_set_eq_true, visited_iff, searching.marked, or_comm]
  case found =>
    intro step member
    rcases List.mem_append.mp member with before | new
    · rcases searching.found step before with start | ⟨known, lower, joined⟩
      · exact .inl start
      · refine .inr ⟨(visited_iff _).mpr (.inl known), ?_, joined⟩
        rwa [kept known, kept (List.mem_map_of_mem before)]
    · obtain rfl := List.mem_singleton.mp new
      refine .inr ⟨(visited_iff _).mpr (.inl source.1), ?_, source.2⟩
      rw [kept source.1, last]
      exact place_lt source.1
  case waiting =>
    intro entry member
    rcases List.mem_append.mp member with new | before
    · obtain ⟨w, joined, rfl⟩ := List.mem_map.mp new
      exact ⟨(visited_iff v).mpr (.inr rfl), joined⟩
    · obtain ⟨known, joined⟩ := searching.waiting entry (List.mem_cons_of_mem _ before)
      exact ⟨(visited_iff _).mpr (.inl known), joined⟩
  case pending =>
    intro a visited b joined
    rcases (visited_iff a).mp visited with before | rfl
    · rcases searching.pending a before b joined with seen | listed
      · exact .inl ((visited_iff b).mpr (.inl seen))
      · rcases List.mem_cons.mp listed with same | later
        · exact .inl ((visited_iff b).mpr (.inr (Prod.mk.inj same).2))
        · exact .inr (List.mem_append_right _ later)
    · exact .inr (List.mem_append_left _ (List.mem_map_of_mem joined))
  case sorted =>
    rw [List.pairwise_append]
    refine ⟨?_, ?_, ?_⟩
    · rw [List.pairwise_map]
      exact List.pairwise_of_forall fun _ _ => Nat.le_refl _
    · refine searching.sorted.of_cons.imp_of_mem ?_
      intro first second firstMember secondMember ordered
      rwa [kept (searching.waiting first (List.mem_cons_of_mem _ firstMember)).1,
        kept (searching.waiting second (List.mem_cons_of_mem _ secondMember)).1]
    · intro first new second before
      obtain ⟨w, _, rfl⟩ := List.mem_map.mp new
      have known := (searching.waiting second (List.mem_cons_of_mem _ before)).1
      rw [last, kept known]
      exact Nat.le_of_lt (place_lt known)
  case recent =>
    intro entry member step taken later
    rcases List.mem_append.mp member with new | before
    · obtain ⟨w, _, rfl⟩ := List.mem_map.mp new
      exact absurd later (Nat.not_lt.mpr (bounded taken))
    · exact searching.recent_visit (List.mem_cons_of_mem _ before) taken later
  case spans =>
    intro a visitedA b visitedB joined step taken later within
    rcases (visited_iff a).mp visitedA with beforeA | rfl
    · rcases (visited_iff b).mp visitedB with beforeB | rfl
      · rw [kept beforeA] at later ⊢
        rw [kept beforeB] at within
        rcases List.mem_append.mp taken with earlier | new
        · rw [kept (List.mem_map_of_mem earlier)] at later within
          rw [kept (searching.parent_mem earlier)]
          exact searching.spans a beforeA b beforeB joined step earlier later within
        · obtain rfl := List.mem_singleton.mp new
          rw [last] at within
          exact absurd (place_lt beforeB) (Nat.not_lt.mpr within)
      · -- the edge to the new vertex waits on the agenda until now
        have listed := (searching.pending a beforeA b joined).resolve_left fresh
        exact searching.recent_visit listed taken later
    · exact absurd later (Nat.not_lt.mpr (bounded taken))

/-- A search runs until its agenda is empty. -/
theorem run (searching : Searching succ root done marks agenda) :
    ∃ final, Searching succ root (done ++ depthFirst succ marks agenda) final [] := by
  induction marks, agenda using depthFirst.induct succ generalizing done with
  | case1 marks =>
      rw [depthFirst, List.append_nil]
      exact ⟨marks, searching⟩
  | case2 marks u v rest known ih =>
      rw [depthFirst, if_pos known]
      exact ih (searching.drop known)
  | case3 marks u v rest unmarked ih =>
      rw [depthFirst, if_neg unmarked, List.append_cons]
      exact ih (searching.visit unmarked)

end Searching

theorem searching_depthFirst (succ : Fin n → List (Fin n)) (root : Fin n) :
    ∃ final, Searching succ root (depthFirst succ (.none n) [(root, root)]) final [] := by
  have unmarked : ¬ (Marks.none n).get root = true := by
    unfold Marks.none
    simp
  rw [depthFirst, if_neg unmarked, List.append_nil]
  exact (Searching.start succ root).run

/-- A depth-first search visits exactly the vertices reached from its root. -/
theorem Searching.mem_iff_reaches (searching : Searching succ root done marks [])
    {v : Fin n} : v ∈ done.map Prod.snd ↔ Reaches succ root v := by
  constructor
  · intro visited
    obtain ⟨step, taken, rfl⟩ := List.mem_map.mp visited
    -- a vertex is found from one visited before it
    induction place_of : place done step.2 using Nat.strongRecOn generalizing step with
    | ind position ih =>
        rcases searching.found step taken with rfl | ⟨known, lower, joined⟩
        · exact .refl
        · obtain ⟨earlier, member, same⟩ := List.mem_map.mp known
          rw [← same, place_of] at lower
          have reached := ih _ lower earlier member
            (List.mem_map_of_mem member) rfl
          rw [same] at reached
          exact reached.tail joined
  · intro reaches
    induction reaches with
    | refl => exact List.mem_map_of_mem (List.mem_of_mem_head? searching.head)
    | tail _ joined ih =>
        rcases searching.pending _ ih _ joined with visited | listed
        · exact visited
        · cases listed

end Lowering.Search
