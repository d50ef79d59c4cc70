import Lowering.Dominance.Tour
import Lowering.Proofs.Dominance.Frontier

/-!
# Runs along a tour

The blocks that are open during a tour are a block and its dominators, up to the root.  So what every
visit keeps, given that chain, a whole tour keeps; and at its end every block was entered.  In a tree no
block comes up twice, so a tour is what a stack of visits unwinds to, with nothing passed over.
-/

namespace Lowering

open Dominance

variable {n : Nat} {edge : Fin n → Fin n → Prop} {root : Fin n} {tree : DomTree n}

/-- What is left of a tour while the blocks of a chain are open, the innermost first. -/
inductive Visit.Agenda (tree : DomTree n) : List (Fin n) → List (Visit n) → Prop where
  | done : Agenda tree [] []
  | leave {block : Fin n} {chain : List (Fin n)} {rest : List (Visit n)} :
      Agenda tree chain rest → Agenda tree (block :: chain) (.leave block :: rest)
  | enter {block : Fin n} {chain : List (Fin n)} {rest : List (Visit n)} :
      tree.chains.get block = block :: chain → Agenda tree chain rest →
      Agenda tree chain (.enter block :: rest)

theorem Visit.Agenda.append {chain blocks : List (Fin n)} {rest : List (Visit n)}
    (chained : ∀ block ∈ blocks, tree.chains.get block = block :: chain)
    (agenda : Agenda tree chain rest) : Agenda tree chain (blocks.map .enter ++ rest) := by
  induction blocks with
  | nil => exact agenda
  | cons block blocks ih =>
      refine .enter (chained block List.mem_cons_self) (ih ?_)
      exact fun other member => chained other (List.mem_cons_of_mem _ member)

/-- The visits that a stack unwinds to: behind an entered block its children are entered, and then it is
left. -/
inductive Visit.Unwinds (children : Fin n → List (Fin n)) : List (Visit n) → List (Visit n) → Prop where
  | done : Unwinds children [] []
  | leave {block : Fin n} {stack visits : List (Visit n)} : Unwinds children stack visits →
      Unwinds children (.leave block :: stack) (.leave block :: visits)
  | enter {block : Fin n} {stack visits : List (Visit n)} :
      Unwinds children ((children block).map .enter ++ .leave block :: stack) visits →
      Unwinds children (.enter block :: stack) (.enter block :: visits)

/-- A run passes only good states if its first state is good and so are all from the second on. -/
theorem passes_cons {α S : Type} {visit : S → α → Except Fault S} {good : S → Prop} {s next : S}
    {first : α} {later : List α} (holds : good s) (visited : visit s first = .ok next)
    (passes : ∀ passed rest, later = passed ++ rest →
      ∃ middle, passed.foldlM visit next = .ok middle ∧ good middle)
    (passed rest : List α) (split : first :: later = passed ++ rest) :
    ∃ middle, passed.foldlM visit s = .ok middle ∧ good middle := by
  cases passed with
  | nil => exact ⟨s, rfl, holds⟩
  | cons head passed =>
      obtain ⟨rfl, same⟩ := List.cons.inj split
      rw [List.foldlM_cons, visited]
      exact passes passed rest same

/-- The blocks that a block dominates immediately are listed in order. -/
theorem DomTree.ascending_children {edges : Edges n} {entry : Nat}
    (rooted : DomTree.build edges entry = .ok tree) (block : Fin n) :
    (tree.children.get block).Pairwise (· < ·) := by
  unfold DomTree.build at rooted
  split at rooted
  · cases rooted
    unfold DomTree.rooted DomTree.assemble
    rw [Table.get_tabulate]
    exact (List.pairwise_lt_finRange n).filter _
  · next outside =>
      split at rooted
      · next empty => exact absurd (empty ▸ block).isLt (Nat.not_lt_zero _)
      · cases rooted

theorem DomTree.nodup_children {edges : Edges n} {entry : Nat}
    (rooted : DomTree.build edges entry = .ok tree) (block : Fin n) :
    (tree.children.get block).Nodup :=
  (DomTree.ascending_children rooted block).imp Fin.ne_of_lt

namespace DomTree.Correct

/-- The chain of a child goes on with the chain of its parent. -/
theorem get_chains_child (correct : tree.Correct edge root) {block child : Fin n}
    (member : child ∈ tree.children.get block) :
    tree.chains.get child = child :: tree.chains.get block := by
  have recorded := (correct.children block child).mp member
  obtain ⟨rank, hierarchy⟩ := correct.hierarchy
  rw [correct.get_chains (hierarchy.reached_of_recorded recorded), recorded]
  rfl

section Run

variable {S : Type} {visit : S → Visit n → Except Fault S}
  (kept : (Fin n → Prop) → List (Fin n) → S → Prop)
  (enter : ∀ {entered chain s block}, kept entered chain s → ¬ entered block →
    tree.chains.get block = block :: chain → ∃ next, visit s (.enter block) = .ok next ∧
      kept (fun other => other = block ∨ entered other) (block :: chain) next)
  (leave : ∀ {entered chain s block}, kept entered (block :: chain) s →
    ∃ next, visit s (.leave block) = .ok next ∧ kept entered chain next)
include enter leave

/-- What every visit keeps holds all along an agenda.  At its end a block was entered if it was before or
was on the agenda, or if its parent was entered. -/
theorem foldlM_expand (correct : tree.Correct edge root) {marks : Search.Marks n}
    {agenda : List (Visit n)} {chain : List (Fin n)} {s : S}
    (shape : Visit.Agenda tree chain agenda)
    (pending : ∀ a c, marks.get a = true → c ∈ tree.children.get a →
      marks.get c = true ∨ Visit.enter c ∈ agenda)
    (holds : kept (fun block => marks.get block = true) chain s) :
    ∃ last entered,
      (Visit.expand (fun block => tree.children.get block) marks agenda).foldlM visit s = .ok last ∧
        kept entered [] last ∧ (∀ block, marks.get block = true → entered block) ∧
        (∀ block, Visit.enter block ∈ agenda → entered block) ∧
        (∀ a c, entered a → c ∈ tree.children.get a → entered c) ∧
        ∀ passed rest, Visit.expand (fun block => tree.children.get block) marks agenda =
          passed ++ rest → ∃ middle, passed.foldlM visit s = .ok middle ∧
            ∃ entered chain, kept entered chain middle := by
  fun_induction Visit.expand (fun block => tree.children.get block) marks agenda
    generalizing chain s with
  | case1 marks =>
      cases shape with
      | done =>
          refine ⟨s, _, rfl, holds, fun _ => id, ?_, ?_, ?_⟩
          · exact fun block member => absurd member List.not_mem_nil
          · exact fun a c seen child => (pending a c seen child).resolve_right List.not_mem_nil
          · intro passed rest split
            rw [(List.nil_eq_append_iff.mp split).1]
            exact ⟨s, rfl, _, _, holds⟩
  | case2 marks block rest ih =>
      cases shape with
      | leave shape =>
          obtain ⟨next, visited, left⟩ := leave holds
          have pending (a c : Fin n) (seen : marks.get a = true) (child : c ∈ tree.children.get a) :
              marks.get c = true ∨ Visit.enter c ∈ rest := by
            refine (pending a c seen child).imp_right fun member => ?_
            exact (List.mem_cons.mp member).resolve_left nofun
          obtain ⟨last, entered, ran, ended, before, listed, closed, passes⟩ :=
            ih shape pending left
          refine ⟨last, entered, ?_, ended, before, ?_, closed,
            passes_cons ⟨_, _, holds⟩ visited passes⟩
          · rw [List.foldlM_cons, visited]
            exact ran
          · intro other member
            rcases List.mem_cons.mp member with same | later
            · cases same
            · exact listed other later
  | case3 marks block rest marked ih =>
      cases shape with
      | enter chained shape =>
          have pending (a c : Fin n) (seen : marks.get a = true) (child : c ∈ tree.children.get a) :
              marks.get c = true ∨ Visit.enter c ∈ rest := by
            rcases pending a c seen child with known | member
            · exact .inl known
            · rcases List.mem_cons.mp member with same | later
              · cases same
                exact .inl marked
              · exact .inr later
          obtain ⟨last, entered, ran, ended, before, listed, closed⟩ :=
            ih shape pending holds
          refine ⟨last, entered, ran, ended, before, ?_, closed⟩
          intro other member
          rcases List.mem_cons.mp member with same | later
          · cases same
            exact before _ marked
          · exact listed other later
  | case4 marks block rest unmarked ih =>
      cases shape with
      | enter chained shape =>
          obtain ⟨next, visited, opened⟩ := enter holds unmarked chained
          have marked_iff (other : Fin n) :
              (marks.set block true).get other = true ↔
                other = block ∨ marks.get other = true := by
            rw [Search.Marks.get_set_eq_true, or_comm]
          have shape := Visit.Agenda.append
            (fun child member => chained ▸ correct.get_chains_child member)
            (Visit.Agenda.leave shape)
          have pending (a c : Fin n) (seen : (marks.set block true).get a = true)
              (child : c ∈ tree.children.get a) : (marks.set block true).get c = true ∨
                Visit.enter c ∈ (tree.children.get block).map .enter ++ .leave block :: rest := by
            rcases (marked_iff a).mp seen with rfl | known
            · exact .inr (List.mem_append_left _ (List.mem_map_of_mem child))
            · rcases pending a c known child with known | member
              · exact .inl ((marked_iff c).mpr (.inr known))
              · rcases List.mem_cons.mp member with same | later
                · cases same
                  exact .inl ((marked_iff _).mpr (.inl rfl))
                · exact .inr (List.mem_append_right _ (List.mem_cons_of_mem _ later))
          obtain ⟨last, entered, ran, ended, before, listed, closed, passes⟩ :=
            ih shape pending (by simpa only [marked_iff] using opened)
          refine ⟨last, entered, ?_, ended, ?_, ?_, closed,
            passes_cons ⟨_, _, holds⟩ visited passes⟩
          · rw [List.foldlM_cons, visited]
            exact ran
          · exact fun other known => before other ((marked_iff other).mpr (.inr known))
          · intro other member
            rcases List.mem_cons.mp member with same | later
            · cases same
              exact before _ ((marked_iff _).mpr (.inl rfl))
            · exact listed other (List.mem_append_right _ (List.mem_cons_of_mem _ later))

/-- What every visit keeps holds all along a tour, at its end with all blocks entered. -/
theorem foldlM_tour (correct : tree.Correct edge root)
    (reached : ∀ block, Relation.ReflTransGen edge root block) {s : S}
    (start : kept (fun _ => False) [] s) :
    ∃ last, tree.tour.foldlM visit s = .ok last ∧ kept (fun _ => True) [] last ∧
      ∀ passed rest, tree.tour = passed ++ rest →
        ∃ middle, passed.foldlM visit s = .ok middle ∧ ∃ entered chain, kept entered chain middle := by
  obtain ⟨rank, hierarchy⟩ := correct.hierarchy
  have inside : tree.root < n := correct.root_eq ▸ root.isLt
  have isRoot : (⟨tree.root, inside⟩ : Fin n) = root := Fin.ext correct.root_eq
  have chained : tree.chains.get root = [root] := by
    rw [correct.get_chains .refl, hierarchy.first]
    rfl
  have unmarked : (fun block => (Search.Marks.none n).get block = true) = fun _ => False := by
    unfold Search.Marks.none
    simp
  obtain ⟨last, entered, ran, holds, _, listed, closed, passes⟩ :=
    foldlM_expand kept enter leave correct (.enter chained .done)
      (fun a c seen => (congrFun unmarked a ▸ seen : False).elim) (unmarked ▸ start)
  have all (block : Fin n) : entered block := by
    induction height : rank block using Nat.strongRecOn generalizing block with
    | ind height' ih =>
        by_cases first : block = root
        · exact first ▸ listed root (List.mem_singleton_self _)
        · obtain ⟨above, recorded, lower, _⟩ := hierarchy.immediate (reached block) first
          refine closed above block ?_ ((correct.children above block).mpr recorded)
          exact ih (rank above) (height ▸ lower) above rfl
  unfold tour
  rw [dif_pos inside, isRoot]
  refine ⟨last, ran, ?_, passes⟩
  rwa [show entered = fun _ => True from funext fun block => eq_true (all block)] at holds

end Run

/-- No block of an agenda is passed over if none was entered before, each is there once, and the parents
of all of them were entered. -/
theorem unwinds_expand (correct : tree.Correct edge root)
    (distinct : ∀ block, (tree.children.get block).Nodup) {marks : Search.Marks n}
    {agenda : List (Visit n)} (fresh : ∀ block, Visit.enter block ∈ agenda → marks.get block = false)
    (once : ∀ block, agenda.count (.enter block) ≤ 1)
    (below : ∀ child above, tree.idom.get child = some above →
      marks.get child = true ∨ Visit.enter child ∈ agenda → marks.get above = true) :
    Visit.Unwinds tree.children.get agenda (Visit.expand tree.children.get marks agenda) := by
  fun_induction Visit.expand tree.children.get marks agenda with
  | case1 marks => exact .done
  | case2 marks block rest ih =>
      refine .leave (ih ?_ ?_ ?_)
      · exact fun other member => fresh other (List.mem_cons_of_mem _ member)
      · exact fun other => Nat.le_trans List.count_le_count_cons (once other)
      · intro child above recorded known
        exact below child above recorded (known.imp_right (List.mem_cons_of_mem _))
  | case3 marks block rest marked ih =>
      rw [fresh block List.mem_cons_self] at marked
      cases marked
  | case4 marks block rest unmarked ih =>
      -- A child was not entered and is not on the agenda, because its parent was not entered.
      have new {child : Fin n} (isChild : child ∈ tree.children.get block) :
          marks.get child ≠ true ∧ Visit.enter child ∉ Visit.enter block :: rest := by
        have recorded := (correct.children block child).mp isChild
        constructor
        · exact fun marked => unmarked (below child block recorded (.inl marked))
        · exact fun listed => unmarked (below child block recorded (.inr listed))
      have mem_iff {other : Fin n} :
          Visit.enter other ∈ (tree.children.get block).map Visit.enter ++ .leave block :: rest ↔
            other ∈ tree.children.get block ∨ Visit.enter other ∈ rest := by
        simp
      refine .enter (ih ?_ ?_ ?_)
      · intro other listed
        rw [Bool.eq_false_iff]
        intro marked
        rcases mem_iff.mp listed with isChild | later <;>
          rcases Search.Marks.get_set_eq_true.mp marked with rfl | before
        · exact (new isChild).2 List.mem_cons_self
        · exact (new isChild).1 before
        · have twice := once other
          rw [List.count_cons_self] at twice
          exact absurd (List.count_pos_iff.mpr later) (by omega)
        · rw [fresh other (List.mem_cons_of_mem _ later)] at before
          cases before
      · intro other
        have different : Visit.leave block ≠ .enter other := nofun
        rw [List.count_append, List.count_cons_of_ne different]
        by_cases isChild : other ∈ tree.children.get block
        · have absent := List.count_eq_zero.mpr fun later => (new isChild).2 (List.mem_cons_of_mem _ later)
          have single : ((tree.children.get block).map Visit.enter).count (.enter other) ≤ 1 :=
            List.nodup_iff_count_le_one.mp ((distinct block).map fun _ _ => Visit.enter.inj) _
          omega
        · have absent : ((tree.children.get block).map Visit.enter).count (.enter other) = 0 :=
            List.count_eq_zero.mpr (by simpa using isChild)
          have single := Nat.le_trans List.count_le_count_cons (once other)
          omega
      · intro child above recorded known
        rw [Search.Marks.get_set_eq_true] at known ⊢
        rw [mem_iff, or_assoc] at known
        rcases known with rfl | before | isChild | later
        · exact .inr (below child above recorded (.inr List.mem_cons_self))
        · exact .inr (below child above recorded (.inl before))
        · rw [(correct.children block child).mp isChild] at recorded
          exact .inl (Option.some.inj recorded).symm
        · exact .inr (below child above recorded (.inr (List.mem_cons_of_mem _ later)))

/-- A tour is what a stack with the root alone unwinds to. -/
theorem unwinds_tour (correct : tree.Correct edge root)
    (distinct : ∀ block, (tree.children.get block).Nodup) :
    Visit.Unwinds tree.children.get [.enter root] tree.tour := by
  obtain ⟨rank, hierarchy⟩ := correct.hierarchy
  have inside : tree.root < n := correct.root_eq ▸ root.isLt
  have isRoot : (⟨tree.root, inside⟩ : Fin n) = root := Fin.ext correct.root_eq
  have unmarked (block : Fin n) : (Search.Marks.none n).get block = false := Table.get_replicate _ block
  unfold tour
  rw [dif_pos inside, isRoot]
  refine correct.unwinds_expand distinct (fun block _ => unmarked block) ?_ ?_
  · exact fun block => List.count_le_length
  · intro child above recorded known
    rw [unmarked child, List.mem_singleton] at known
    obtain ⟨⟩ := known.resolve_left Bool.false_ne_true
    rw [hierarchy.first] at recorded
    cases recorded

end DomTree.Correct

end Lowering
