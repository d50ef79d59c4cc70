import Lowering.Dominance.Forest
import Lowering.Proofs.Dominance.Semidominators

/-!
# What link/eval forests compute

The vertices from a bound on hang below their search parents, some of them along compressed paths.
An evaluation finds the least semidominator among the linked vertices above a vertex and leaves that
view of the forest as it was.
-/

namespace Lowering.Forest

open Dominance

variable {n : Nat} {edge : Fin n → Fin n → Prop} {zero : Fin n} {parent : Fin n → Fin n}
  {forest : Forest n} {bound : Nat}

/-- Of the vertices on the search path from `a`, itself excluded, to `x`, one with the least
semidominator. -/
structure Best (forest : Forest n) (parent : Fin n → Fin n) (a x b : Fin n) : Prop where
  covers : Covers parent b x
  after : a < b
  least : ∀ u, Covers parent u x → a < u → forest.semi.get b ≤ forest.semi.get u

/-- Exactly the vertices from the bound on are linked, each to a vertex above it that no unlinked
one separates from it. -/
structure Linked (forest : Forest n) (parent : Fin n → Fin n) (bound : Nat) : Prop where
  root : ∀ x : Fin n, x.val < bound → forest.ancestor.get x = none
  link : ∀ x : Fin n, bound ≤ x.val → ∃ a, forest.ancestor.get x = some a ∧ Covers parent a x ∧
    ∀ u, Covers parent u x → a < u → bound ≤ u.val
  best : ∀ x a, forest.ancestor.get x = some a → forest.Best parent a x (forest.best.get x)

theorem linked_singletons (parent : Fin n → Fin n) (beyond : n ≤ bound) :
    (singletons n).Linked parent bound where
  root x _ := by simp [singletons]
  link x outside := absurd x.isLt (Nat.not_lt.mpr (Nat.le_trans beyond outside))
  best x a equal := by simp [singletons] at equal

/-- Candidates on consecutive search paths compete for the joined path. -/
theorem Best.join {r a x upper lower : Fin n} (high : forest.Best parent r a upper)
    (low : forest.Best parent a x lower) (covers : Covers parent a x) :
    forest.Best parent r x
      (if forest.semi.get upper < forest.semi.get lower then upper else lower) := by
  have above : r < a := lt_of_lt_of_le high.after high.covers.le
  have split (u : Fin n) (held : Covers parent u x) (after : r < u) :
      forest.semi.get upper ≤ forest.semi.get u ∨ forest.semi.get lower ≤ forest.semi.get u := by
    rcases lt_or_ge a u with beyond | before
    · exact .inr (low.least u held beyond)
    · exact .inl (high.least u (held.mono before covers.le) after)
  by_cases better : forest.semi.get upper < forest.semi.get lower
  · rw [if_pos better]
    refine ⟨high.covers.trans covers, high.after, ?_⟩
    intro u held after
    rcases split u held after with least | least
    · exact least
    · exact better.le.trans least
  · rw [if_neg better]
    refine ⟨low.covers, above.trans low.after, ?_⟩
    intro u held after
    rcases split u held after with least | least
    · exact (not_lt.mp better).trans least
    · exact least

theorem best_skip (forest : Forest n) (v a : Fin n) (below : a.val < v.val) :
    (forest.skip v a below).best.get v =
      if forest.semi.get (forest.best.get a) < forest.semi.get (forest.best.get v)
      then forest.best.get a else forest.best.get v := by
  unfold skip
  split
  · exact Table.get_set_self _ _ _
  · rfl

theorem best_skip_ne (forest : Forest n) {v x : Fin n} (a : Fin n) (below : a.val < v.val)
    (different : v ≠ x) : (forest.skip v a below).best.get x = forest.best.get x := by
  unfold skip
  split
  · exact Table.get_set_ne _ _ different
  · rfl

theorem Best.congr {other : Forest n} {a x b : Fin n} (best : forest.Best parent a x b)
    (same : ∀ u, Covers parent u x → a < u → other.semi.get u = forest.semi.get u) :
    other.Best parent a x b := by
  refine ⟨best.covers, best.after, ?_⟩
  intro u held after
  rw [same b best.covers best.after, same u held after]
  exact best.least u held after

theorem Linked.isRoot_iff (linked : forest.Linked parent bound) {x : Fin n} :
    forest.isRoot x = true ↔ x.val < bound := by
  unfold isRoot
  rw [Option.isNone_iff_eq_none]
  refine ⟨fun none => ?_, linked.root x⟩
  by_contra outside
  obtain ⟨a, equal, _⟩ := linked.link x (Nat.not_lt.mp outside)
  rw [none] at equal
  cases equal

theorem Linked.above (linked : forest.Linked parent bound) {x a : Fin n}
    (up : forest.ancestor.get x = some a) :
    bound ≤ x.val ∧ Covers parent a x ∧ ∀ u, Covers parent u x → a < u → bound ≤ u.val := by
  have inside : bound ≤ x.val := by
    by_contra outside
    rw [linked.root x (Nat.not_le.mp outside)] at up
    cases up
  obtain ⟨b, found, covers, between⟩ := linked.link x inside
  obtain rfl := Option.some.inj (found.symm.trans up)
  exact ⟨inside, covers, between⟩

/-- Skipping an ancestor joins the two paths. -/
theorem Linked.skip (linked : forest.Linked parent bound) {v a r : Fin n}
    (up : forest.ancestor.get v = some a) (further : forest.ancestor.get a = some r)
    (below : a.val < v.val) : (forest.skip v a below).Linked parent bound := by
  obtain ⟨inside, covers, between⟩ := linked.above up
  obtain ⟨_, coversUp, betweenUp⟩ := linked.above further
  have ancestor_self : (forest.skip v a below).ancestor.get v = some r :=
    (Table.get_set_self _ _ _).trans further
  have ancestor_ne {x : Fin n} (different : v ≠ x) :
      (forest.skip v a below).ancestor.get x = forest.ancestor.get x :=
    Table.get_set_ne _ _ different
  refine ⟨?root, ?link, ?best⟩
  case root =>
    intro x outside
    have different : v ≠ x := fun same => Nat.not_lt.mpr inside (same ▸ outside)
    rw [ancestor_ne different]
    exact linked.root x outside
  case link =>
    intro x within
    by_cases same : v = x
    · subst same
      refine ⟨r, ancestor_self, coversUp.trans covers, ?_⟩
      intro u held after
      rcases lt_or_ge a u with beyond | before
      · exact between u held beyond
      · exact betweenUp u (held.mono before covers.le) after
    · rw [ancestor_ne same]
      exact linked.link x within
  case best =>
    intro x y equal
    by_cases same : v = x
    · subst same
      obtain rfl := Option.some.inj (ancestor_self.symm.trans equal)
      rw [best_skip]
      exact ((linked.best a r further).join (linked.best v a up) covers).congr fun _ _ _ => rfl
    · rw [ancestor_ne same] at equal
      rw [best_skip_ne _ _ _ same]
      exact (linked.best x y equal).congr fun _ _ _ => rfl

/-- What holds of a forest and survives the skipping of ancestors holds of it compressed.
Compression changes no root and no vertex behind `v`, and brings `v` next to its root. -/
theorem compress_induct {motive : Forest n → Prop}
    (skips : ∀ {forest : Forest n} {v a r : Fin n} (below : a.val < v.val), motive forest →
      forest.ancestor.get v = some a → forest.ancestor.get a = some r →
      motive (forest.skip v a below))
    (holds : motive forest) (v : Fin n) :
    motive (forest.compress v) ∧
      (∀ x, v < x → (forest.compress v).ancestor.get x = forest.ancestor.get x) ∧
      (forest.isRoot v = false →
        ∃ r, (forest.compress v).ancestor.get v = some r ∧ forest.isRoot r = true) := by
  induction v using WellFoundedLT.induction with
  | ind v ih =>
      rw [Forest.compress]
      split
      · next none =>
          refine ⟨holds, fun _ _ => rfl, fun inner => ?_⟩
          rw [isRoot, none] at inner
          cases inner
      · next a up =>
          by_cases top : forest.isRoot a = true
          · rw [if_pos top]
            exact ⟨holds, fun _ _ => rfl, fun _ => ⟨a, up, top⟩⟩
          rw [if_neg top]
          have below : a < v := forest.ancestor_lt v a up
          obtain ⟨compressed, behind, above⟩ := ih a below
          obtain ⟨r, further, isTop⟩ := above (Bool.not_eq_true _ ▸ top)
          refine ⟨skips below compressed ((behind v below).trans up) further, ?_, fun _ => ⟨r, ?_, isTop⟩⟩
          · intro x after
            rw [← behind x (below.trans after)]
            exact Table.get_set_ne _ _ after.ne
          · exact (Table.get_set_self _ _ _).trans further

theorem Linked.compress (linked : forest.Linked parent bound) (v : Fin n) :
    (forest.compress v).Linked parent bound ∧ (forest.compress v).semi = forest.semi ∧
      (bound ≤ v.val → ∃ r, (forest.compress v).ancestor.get v = some r ∧ r.val < bound) := by
  let kept (other : Forest n) : Prop := other.Linked parent bound ∧ other.semi = forest.semi
  have start : kept forest := ⟨linked, rfl⟩
  obtain ⟨⟨compressed, semi⟩, _, above⟩ := compress_induct (motive := kept)
    (fun below held up further => ⟨held.1.skip up further below, held.2⟩) start v
  refine ⟨compressed, semi, fun inside => ?_⟩
  have inner : forest.isRoot v = false :=
    Bool.eq_false_iff.mpr fun root => Nat.not_lt.mpr inside (linked.isRoot_iff.mp root)
  obtain ⟨r, up, isTop⟩ := above inner
  exact ⟨r, up, linked.isRoot_iff.mp isTop⟩

/-- The value of a linked vertex has the least semidominator of the linked vertices above it. -/
theorem Linked.eval (linked : forest.Linked parent bound) {v : Fin n} (inside : bound ≤ v.val) :
    (forest.eval v).1.Linked parent bound ∧ (forest.eval v).1.semi = forest.semi ∧
      Covers parent (forest.eval v).2 v ∧ bound ≤ (forest.eval v).2.val ∧
      ∀ u, Covers parent u v → bound ≤ u.val →
        forest.semi.get (forest.eval v).2 ≤ forest.semi.get u := by
  have inner : ¬ forest.isRoot v = true := fun root =>
    Nat.not_lt.mpr inside (linked.isRoot_iff.mp root)
  obtain ⟨compressed, semi, above⟩ := linked.compress v
  obtain ⟨r, up, outside⟩ := above inside
  obtain ⟨_, _, between⟩ := compressed.above up
  have best := compressed.best v r up
  have value : forest.eval v = (forest.compress v, (forest.compress v).best.get v) := by
    unfold Forest.eval
    rw [if_neg inner]
  rw [value]
  refine ⟨compressed, semi, best.covers, between _ best.covers best.after, ?_⟩
  intro u held within
  rw [← semi]
  exact best.least u held (Nat.lt_of_lt_of_le outside within)

/-- The next vertex is linked to its search parent, with any semidominator. -/
theorem Linked.next {w : Fin n} (linked : forest.Linked parent (w.val + 1))
    (numbering : Numbering edge zero parent) (positive : zero < w) (s : Fin n)
    (below : (parent w).val < w.val) :
    ((forest.setSemi w s).link (parent w) w below).Linked parent w.val := by
  let next := (forest.setSemi w s).link (parent w) w below
  have only {u : Fin n} (held : Covers parent u w) (after : parent w < u) : u = w := by
    by_contra different
    exact absurd after (not_lt.mpr (held.2 w (lt_of_le_of_ne held.le different) le_rfl))
  have ancestor_self : next.ancestor.get w = some (parent w) := Table.get_set_self _ _ _
  have ancestor_ne {x : Fin n} (different : w ≠ x) :
      next.ancestor.get x = forest.ancestor.get x := Table.get_set_ne _ _ different
  refine ⟨?root, ?link, ?best⟩
  case root =>
    intro x outside
    refine (ancestor_ne fun same => ?_).trans (linked.root x (Nat.lt_succ_of_lt outside))
    exact absurd outside (same ▸ Nat.lt_irrefl _)
  case link =>
    intro x inside
    by_cases same : w = x
    · subst same
      refine ⟨parent w, ancestor_self, numbering.covers_parent positive, ?_⟩
      intro u held after
      exact (only held after ▸ Nat.le_refl _)
    · have beyond : w.val + 1 ≤ x.val :=
        Nat.lt_of_le_of_ne inside fun equal => same (Fin.ext equal)
      obtain ⟨a, up, covers, between⟩ := linked.link x beyond
      refine ⟨a, (ancestor_ne same).trans up, covers, ?_⟩
      intro u held after
      exact Nat.le_of_succ_le (between u held after)
  case best =>
    intro x a up
    by_cases same : w = x
    · subst same
      obtain rfl := Option.some.inj (ancestor_self.symm.trans up)
      have value : next.best.get w = w := Table.get_set_self _ _ _
      refine ⟨?_, ?_, ?_⟩
      · exact value.symm ▸ .refl w
      · exact value.symm ▸ below
      · intro u held after
        rw [only held after]
        exact (congrArg (next.semi.get ·) value).le
    · have earlier : forest.ancestor.get x = some a := (ancestor_ne same).symm.trans up
      have value : next.best.get x = forest.best.get x := Table.get_set_ne _ _ same
      obtain ⟨_, _, between⟩ := linked.above earlier
      have best : next.Best parent a x (forest.best.get x) := by
        refine (linked.best x a earlier).congr ?_
        intro u held after
        refine Table.get_set_ne _ _ fun equal => ?_
        exact absurd (between u held after) (equal ▸ Nat.not_succ_le_self _)
      exact value ▸ best

end Lowering.Forest
