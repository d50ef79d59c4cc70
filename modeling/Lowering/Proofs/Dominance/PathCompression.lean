import Mathlib.Data.List.MinMax
import Mathlib.Logic.Function.Basic
import Lowering.Proofs.Dominance.Forest

/-!
# Path compression does not show

A link/eval forest is compared with the links as they were made, which no evaluation changes.  Each
pointer of the forest stands for a path of links, and the best vertex kept with it for the least
semidominator on that path; skipping an ancestor joins two such paths.  So an evaluation finds the
least semidominator on the path to the root, whatever has been evaluated before.
-/

namespace Lowering

namespace Forest

variable {n : Nat}

/-- What is done to a forest. -/
inductive Action (n : Nat) where
  | fix (v s : Fin n)
  | link (parent child : Fin n) (below : parent.val < child.val)
  | eval (v : Fin n)

def Action.isEval : Action n → Bool
  | .eval _ => true
  | _ => false

/-- A history without its evaluations. -/
def edits (history : List (Action n)) : List (Action n) :=
  history.filter fun action => !action.isEval

def act (forest : Forest n) : Action n → Forest n
  | .fix v s => forest.setSemi v s
  | .link parent child below => forest.link parent child below
  | .eval v => (forest.eval v).1

/-- The forest after a history of actions. -/
def after (history : List (Action n)) : Forest n := history.foldl act (singletons n)

/-- The root above a vertex. -/
def root (forest : Forest n) (v : Fin n) : Fin n :=
  match up : forest.ancestor.get v with
  | none => v
  | some a =>
      have := forest.ancestor_lt v a up
      forest.root a
termination_by v.val

end Forest

/-- The links that were made between `n` vertices, and the semidominators fixed for them. -/
structure Links (n : Nat) where
  parent : Fin n → Option (Fin n)
  semi : Fin n → Fin n

namespace Links

open Forest

variable {n : Nat} {links : Links n}

/-- Nothing is linked, and every vertex is its own semidominator. -/
def start : Links n := ⟨fun _ => none, id⟩

def act (links : Links n) : Action n → Links n
  | .fix v s => { links with semi := Function.update links.semi v s }
  | .link parent child _ => { links with parent := Function.update links.parent child (some parent) }
  | .eval _ => links

/-- The links after a history of actions. -/
def after (history : List (Action n)) : Links n := history.foldl act start

/-- A vertex is linked once, and its semidominator is fixed before that. -/
def Allows (links : Links n) : Action n → Prop
  | .fix v _ => links.parent v = none
  | .link _ child _ => links.parent child = none
  | .eval _ => True

/-- Each action of a history is allowed when its turn comes. -/
def Admits (links : Links n) : List (Action n) → Prop
  | [] => True
  | action :: rest => links.Allows action ∧ (links.act action).Admits rest

theorem foldl_act_edits (history : List (Action n)) (links : Links n) :
    (edits history).foldl act links = history.foldl act links := by
  induction history generalizing links with
  | nil => rfl
  | cons action rest ih =>
      cases action with
      | fix v s => exact ih _
      | link parent child below => exact ih _
      | eval v => exact ih links

theorem admits_edits_iff {history : List (Action n)} :
    links.Admits (edits history) ↔ links.Admits history := by
  induction history generalizing links with
  | nil => exact Iff.rfl
  | cons action rest ih =>
      cases action with
      | fix v s => exact and_congr_right fun _ => ih
      | link parent child below => exact and_congr_right fun _ => ih
      | eval v => exact ih.trans (and_iff_right trivial).symm

/-- The links lead from a vertex over a path, which begins with that vertex, to one that is not on
the path any more. -/
inductive Climbs (links : Links n) : Fin n → List (Fin n) → Fin n → Prop where
  | stay {v : Fin n} : Climbs links v [] v
  | step {v p a : Fin n} {path : List (Fin n)} :
      links.parent v = some p → Climbs links p path a → Climbs links v (v :: path) a

namespace Climbs

variable {v a r : Fin n} {path further : List (Fin n)}

theorem trans (first : links.Climbs v path a) (second : links.Climbs a further r) :
    links.Climbs v (path ++ further) r := by
  induction first with
  | stay => exact second
  | step up _ ih => exact .step up (ih second)

theorem mono {other : Links n} (climbs : links.Climbs v path a)
    (kept : ∀ u p, links.parent u = some p → other.parent u = some p) : other.Climbs v path a := by
  induction climbs with
  | stay => exact .stay
  | step up _ ih => exact .step (kept _ _ up) ih

theorem linked_of_mem (climbs : links.Climbs v path a) {u : Fin n} (member : u ∈ path) :
    links.parent u ≠ none := by
  induction climbs with
  | stay => cases member
  | step up _ ih =>
      rcases List.mem_cons.mp member with rfl | later
      · rw [up]
        exact Option.some_ne_none _
      · exact ih later

/-- There is one way to a root. -/
theorem unique (climbs : links.Climbs v path a) (top : links.parent a = none)
    (others : links.Climbs v further r) (otherTop : links.parent r = none) :
    path = further ∧ a = r := by
  induction climbs generalizing further with
  | stay =>
      cases others with
      | stay => exact ⟨rfl, rfl⟩
      | step up _ => exact absurd (top.symm.trans up) (Option.some_ne_none _).symm
  | step up _ ih =>
      cases others with
      | stay => exact absurd (otherTop.symm.trans up) (Option.some_ne_none _).symm
      | step otherUp rest =>
          obtain rfl := Option.some.inj (up.symm.trans otherUp)
          obtain ⟨same, sameTop⟩ := ih top rest
          exact ⟨congrArg _ same, sameTop⟩

end Climbs

end Links

namespace Forest

variable {n : Nat} {links : Links n} {forest : Forest n}

theorem argmin_append {α β : Type} [LinearOrder β] (f : α → β) {low high : List α} {a b : α}
    (least : low.argmin f = some a) (other : high.argmin f = some b) :
    (low ++ high).argmin f = some (if f b < f a then b else a) := by
  induction low generalizing a with
  | nil => cases least
  | cons first rest ih =>
      rw [List.argmin_cons] at least
      rw [List.cons_append, List.argmin_cons]
      cases found : rest.argmin f with
      | none =>
          rw [List.argmin_eq_none.mp found, List.nil_append, other]
          rw [found] at least
          dsimp only at least ⊢
          grind
      | some c =>
          rw [ih found]
          rw [found] at least
          dsimp only at least ⊢
          grind

theorem argmin_congr {α β : Type} [LinearOrder β] {f g : α → β} {list : List α}
    (same : ∀ a ∈ list, f a = g a) : list.argmin f = list.argmin g := by
  induction list with
  | nil => rfl
  | cons first rest ih =>
      obtain ⟨sameFirst, sameRest⟩ := List.forall_mem_cons.mp same
      rw [List.argmin_cons, List.argmin_cons, ih sameRest]
      cases found : rest.argmin g with
      | none => rfl
      | some b =>
          have member : b ∈ rest := List.argmin_mem found
          dsimp only
          rw [sameFirst, sameRest b member]

/-- A forest that the links lead to: a pointer stands for a path of links, and the vertex kept with
it is the nearest of those with the least semidominator on that path. -/
structure Represents (forest : Forest n) (links : Links n) : Prop where
  semi : ∀ v, forest.semi.get v = links.semi v
  root : ∀ v, forest.ancestor.get v = none ↔ links.parent v = none
  best : ∀ v a, forest.ancestor.get v = some a →
    ∃ path, links.Climbs v path a ∧ path.argmin links.semi = some (forest.best.get v)

namespace Represents

theorem singletons : (Forest.singletons n).Represents .start where
  semi v := Table.get_tabulate id v
  root v := ⟨fun _ => rfl, fun _ => Table.get_replicate none v⟩
  best v a up := absurd ((Table.get_replicate none v).symm.trans up) (Option.some_ne_none a).symm

variable (represents : forest.Represents links)
include represents

/-- Paths hold linked vertices only, so a semidominator fixed for another one is not seen there. -/
theorem setSemi {v : Fin n} (s : Fin n) (unlinked : links.parent v = none) :
    (forest.setSemi v s).Represents (links.act (.fix v s)) where
  semi u := by
    show (forest.semi.set v s).get u = Function.update links.semi v s u
    rw [Table.get_set, Function.update_apply, represents.semi u]
    exact if_congr eq_comm rfl rfl
  root := represents.root
  best u a up := by
    obtain ⟨path, climbs, least⟩ := represents.best u a up
    refine ⟨path, climbs.mono fun _ _ up => up, (argmin_congr fun w member => ?_).trans least⟩
    show Function.update links.semi v s w = links.semi w
    refine Function.update_of_ne (fun same => ?_) _ _
    exact climbs.linked_of_mem member (same ▸ unlinked)

theorem link {parent child : Fin n} (below : parent.val < child.val)
    (unlinked : links.parent child = none) :
    (forest.link parent child below).Represents (links.act (.link parent child below)) where
  semi := represents.semi
  root v := by
    show (forest.ancestor.set child (some parent)).get v = none ↔
      Function.update links.parent child (some parent) v = none
    rw [Table.get_set, Function.update_apply, if_congr eq_comm rfl rfl]
    split
    · exact Iff.rfl
    · exact represents.root v
  best v a up := by
    by_cases same : child = v
    · subst same
      obtain rfl : parent = a := Option.some.inj ((Table.get_set_self _ _ _).symm.trans up)
      refine ⟨[child], .step (Function.update_self _ _ _) .stay, ?_⟩
      show some child = some ((forest.best.set child child).get child)
      rw [Table.get_set_self]
    · obtain ⟨path, climbs, least⟩ :=
        represents.best v a ((Table.get_set_ne _ _ same).symm.trans up)
      refine ⟨path, climbs.mono fun u p linked => ?_, ?_⟩
      · refine (Function.update_of_ne (fun equal => ?_) _ _).trans linked
        exact absurd (unlinked.symm.trans (equal ▸ linked)) (Option.some_ne_none p).symm
      · exact least.trans (congrArg some (Table.get_set_ne _ _ same).symm)

/-- Skipping an ancestor joins the two paths. -/
theorem skip {v a r : Fin n} (below : a.val < v.val) (up : forest.ancestor.get v = some a)
    (further : forest.ancestor.get a = some r) :
    (forest.skip v a below).Represents links where
  semi := represents.semi
  root x := by
    show (forest.ancestor.set v (forest.ancestor.get a)).get x = none ↔ _
    rw [← represents.root x, Table.get_set]
    split
    · next same =>
        rw [← same, up, further]
        exact iff_of_false (Option.some_ne_none r) (Option.some_ne_none a)
    · exact Iff.rfl
  best x y equal := by
    by_cases same : v = x
    · subst same
      obtain rfl : r = y :=
        Option.some.inj ((further.symm.trans (Table.get_set_self _ _ _).symm).trans equal)
      obtain ⟨low, lowClimbs, lowLeast⟩ := represents.best v a up
      obtain ⟨high, highClimbs, highLeast⟩ := represents.best a r further
      -- The nearer path comes first, so at equal semidominators its vertex stays.
      refine ⟨low ++ high, lowClimbs.trans highClimbs, ?_⟩
      rw [argmin_append _ lowLeast highLeast, best_skip, represents.semi, represents.semi]
    · rw [best_skip_ne _ _ _ same]
      exact represents.best x y ((Table.get_set_ne _ _ same).symm.trans equal)

theorem compress (v : Fin n) :
    (forest.compress v).Represents links ∧ (forest.isRoot v = false →
      ∃ r, (forest.compress v).ancestor.get v = some r ∧ forest.isRoot r = true) := by
  obtain ⟨compressed, _, above⟩ := compress_induct (motive := fun other => other.Represents links)
    (fun below held => held.skip below) represents v
  exact ⟨compressed, above⟩

theorem eval (v : Fin n) :
    (forest.eval v).1.Represents links := by
  unfold Forest.eval
  split
  · exact represents
  · exact (represents.compress v).1

/-- What an allowed action does to the links, it does to the forest. -/
theorem act {action : Action n}
    (allowed : links.Allows action) : (forest.act action).Represents (links.act action) := by
  cases action with
  | fix v s => exact represents.setSemi s allowed
  | link parent child below => exact represents.link below allowed
  | eval v => exact represents.eval v

theorem foldl_act {history : List (Action n)} (admitted : links.Admits history) :
    (history.foldl Forest.act forest).Represents (history.foldl Links.act links) := by
  induction history generalizing forest links with
  | nil => exact represents
  | cons action rest ih =>
      exact ih (represents.act admitted.1) admitted.2

theorem isRoot_iff {v : Fin n} :
    forest.isRoot v = true ↔ links.parent v = none := by
  rw [isRoot, Option.isNone_iff_eq_none, represents.root]

/-- Pointers lead to the root that the links lead to. -/
theorem climbs_root (v : Fin n) :
    (∃ path, links.Climbs v path (forest.root v)) ∧ links.parent (forest.root v) = none := by
  induction v using WellFoundedLT.induction with
  | ind v ih =>
      rw [Forest.root]
      split
      · next top => exact ⟨⟨[], .stay⟩, (represents.root v).mp top⟩
      · next a up =>
          obtain ⟨⟨high, highClimbs⟩, top⟩ := ih a (forest.ancestor_lt v a up)
          obtain ⟨low, lowClimbs, _⟩ := represents.best v a up
          exact ⟨⟨low ++ high, lowClimbs.trans highClimbs⟩, top⟩

theorem eval_of_root {v : Fin n} (unlinked : links.parent v = none) : (forest.eval v).2 = v := by
  unfold Forest.eval
  rw [if_pos (represents.isRoot_iff.mpr unlinked)]

/-- The value of a linked vertex is found on its path to the root. -/
theorem eval_of_linked {v : Fin n} {path : List (Fin n)} (linked : links.parent v ≠ none)
    (climbs : links.Climbs v path (forest.root v)) :
    path.argmin links.semi = some (forest.eval v).2 := by
  have inner : forest.isRoot v = false :=
    Bool.eq_false_iff.mpr fun top => linked (represents.isRoot_iff.mp top)
  obtain ⟨compressed, above⟩ := represents.compress v
  obtain ⟨r, up, isTop⟩ := above inner
  obtain ⟨whole, wholeClimbs, least⟩ := compressed.best v r up
  obtain ⟨rfl, _⟩ := wholeClimbs.unique (represents.isRoot_iff.mp isTop) climbs
    (represents.climbs_root v).2
  unfold Forest.eval
  rw [inner]
  exact least

/-- Two forests for the same links have the same roots and the same values. -/
theorem agree {other : Forest n} (others : other.Represents links) (v : Fin n) :
    other.root v = forest.root v ∧ (other.eval v).2 = (forest.eval v).2 := by
  obtain ⟨⟨path, climbs⟩, top⟩ := represents.climbs_root v
  obtain ⟨⟨otherPath, otherClimbs⟩, otherTop⟩ := others.climbs_root v
  obtain ⟨rfl, sameRoot⟩ := otherClimbs.unique otherTop climbs top
  refine ⟨sameRoot, ?_⟩
  by_cases linked : links.parent v = none
  · rw [represents.eval_of_root linked, others.eval_of_root linked]
  · exact Option.some.inj ((others.eval_of_linked linked otherClimbs).symm.trans
      (represents.eval_of_linked linked climbs))

end Represents

theorem represents_after {history : List (Action n)} (admitted : Links.start.Admits history) :
    (after history).Represents (Links.after history) :=
  Represents.singletons.foldl_act admitted

/-- In a history that fixes the semidominator of a vertex before it is linked, and links each vertex at
most once, to a smaller one, the links lead from every vertex to its root.  A root evaluates to
itself, and a linked vertex to the nearest of those with the least semidominator on that path, the
root excluded.  Other evaluations on the way change neither roots nor values. -/
theorem eval_after {history : List (Action n)} (admitted : Links.start.Admits history)
    (v : Fin n) :
    (∃ path, (Links.after history).Climbs v path ((after history).root v) ∧
      (Links.after history).parent ((after history).root v) = none ∧
      ((Links.after history).parent v = none → ((after history).eval v).2 = v) ∧
      ((Links.after history).parent v ≠ none →
        path.argmin (Links.after history).semi = some ((after history).eval v).2)) ∧
    ∀ other, edits other = edits history →
      (after other).root v = (after history).root v ∧
        ((after other).eval v).2 = ((after history).eval v).2 := by
  have represents := represents_after admitted
  obtain ⟨⟨path, climbs⟩, top⟩ := represents.climbs_root v
  refine ⟨⟨path, climbs, top, represents.eval_of_root,
    fun linked => represents.eval_of_linked linked climbs⟩, fun other same => ?_⟩
  have otherAdmitted : Links.start.Admits other :=
    Links.admits_edits_iff.mp (same ▸ Links.admits_edits_iff.mpr admitted)
  have sameLinks : Links.after other = Links.after history :=
    calc
      Links.after other = Links.after (edits other) := (Links.foldl_act_edits other _).symm
      _ = Links.after (edits history) := congrArg Links.after same
      _ = Links.after history := Links.foldl_act_edits history _
  exact represents.agree (sameLinks ▸ represents_after otherAdmitted) v

/-- At equal semidominators the nearer vertex is found, with or without evaluations in between. -/
theorem eval_after_chained :
    let history : List (Action 4) :=
      [.fix 3 2, .link 2 3 (by decide), .eval 3, .fix 2 1, .link 1 2 (by decide), .eval 3,
        .link 0 1 (by decide)]
    Links.start.Admits history ∧ ((after history).eval 3).2 = 2 ∧
      ((after (edits history)).eval 3).2 = 2 := by
  intro history
  have admitted : Links.start.Admits history := ⟨rfl, rfl, trivial, rfl, rfl, trivial, rfl, trivial⟩
  obtain ⟨⟨path, climbs, top, _, linked⟩, independent⟩ := eval_after admitted 3
  have whole : (Links.after history).Climbs 3 [3, 2, 1] 0 := .step rfl (.step rfl (.step rfl .stay))
  obtain ⟨rfl, _⟩ := climbs.unique top whole rfl
  have value : ((after history).eval 3).2 = 2 :=
    (Option.some.inj (linked (by decide))).symm
  exact ⟨admitted, value, (independent (edits history) rfl).2.trans value⟩

end Forest

end Lowering
