import Mathlib.Data.List.Forall2

/-!
# Lists related item by item
-/

namespace Lowering

variable {α β γ : Type} {related : α → β → Prop} {list : List α} {results : List β}

theorem forall₂_map {f : α → β} (each : ∀ a, related a (f a)) (list : List α) :
    List.Forall₂ related list (list.map f) :=
  List.forall₂_map_right_iff.mpr (List.forall₂_same.mpr fun a _ => each a)

theorem forall₂_imp_mem {related' : α → β → Prop} {other : List β}
    (both : List.Forall₂ related list other)
    (imp : ∀ a ∈ list, ∀ b, related a b → related' a b) : List.Forall₂ related' list other := by
  induction both with
  | nil => exact .nil
  | cons first _ ih =>
      exact .cons (imp _ List.mem_cons_self _ first)
        (ih fun a member => imp a (List.mem_cons_of_mem _ member))

theorem exists_of_forall₂_left (all : List.Forall₂ related list results) {a : α}
    (member : a ∈ list) :
    ∃ b ∈ results, related a b := by
  induction all with
  | nil => cases member
  | cons here _ ih =>
      rcases List.mem_cons.mp member with rfl | later
      · exact ⟨_, List.mem_cons_self, here⟩
      · obtain ⟨b, isLater, found⟩ := ih later
        exact ⟨b, List.mem_cons_of_mem _ isLater, found⟩

theorem exists_of_forall₂_right (all : List.Forall₂ related list results) {b : β}
    (member : b ∈ results) :
    ∃ a ∈ list, related a b :=
  exists_of_forall₂_left all.flip member

theorem getElem?_of_forall₂ (all : List.Forall₂ related list results) {i : Nat} {a : α}
    (found : list[i]? = some a) :
    ∃ b, results[i]? = some b ∧ related a b := by
  induction all generalizing i with
  | nil => cases found
  | cons here _ ih =>
      cases i with
      | zero =>
          cases found
          exact ⟨_, rfl, here⟩
      | succ i => exact ih found

theorem forall₂_append_left {front back : List α} {list : List β}
    (all : List.Forall₂ related (front ++ back) list) :
    ∃ first second, list = first ++ second ∧ List.Forall₂ related front first ∧
      List.Forall₂ related back second := by
  induction front generalizing list with
  | nil => exact ⟨[], list, rfl, .nil, all⟩
  | cons head rest ih =>
      cases all with
      | cons here later =>
          obtain ⟨first, second, rfl, isFirst, isSecond⟩ := ih later
          exact ⟨_ :: first, second, rfl, .cons here isFirst, isSecond⟩

theorem forall₂_comp {further : β → γ → Prop} {whole : α → γ → Prop} {first : List α}
    {second : List β} {third : List γ} (left : List.Forall₂ related first second)
    (right : List.Forall₂ further second third)
    (comp : ∀ a b c, related a b → further b c → whole a c) : List.Forall₂ whole first third := by
  induction left generalizing third with
  | nil =>
      cases right
      exact .nil
  | cons here _ ih =>
      cases right with
      | cons there later => exact .cons (comp _ _ _ here there) (ih later)

end Lowering
