import Lowering.Dominance.Immediate
import Lowering.Proofs.Dominance.Forest

/-!
# The sweep finds immediate dominators

Visiting a vertex determines its semidominator from those of the vertices behind it, and decides
the vertices whose semidominator is its parent.  At the end every vertex but the first is decided:
its semidominator is its immediate dominator, or it shares that of an earlier vertex.
-/

namespace Lowering

/-- What each step carries one vertex down holds after a fold over the vertices from a bound on. -/
theorem foldr_descending {n : Nat} {State : Type} {step : Fin n → State → State} {start : State}
    {low : Nat} (property : Nat → State → Prop) (first : ∀ bound, n ≤ bound → property bound start)
    (next : ∀ (w : Fin n) (state : State), low ≤ w.val → property (w.val + 1) state →
      property w.val (step w state))
    (list : List (Fin n)) (sorted : list.Pairwise (· < ·)) {bound : Nat} (above : low ≤ bound)
    (holds : ∀ x, x ∈ list ↔ bound ≤ x.val) : property bound (list.foldr step start) := by
  induction list generalizing bound with
  | nil =>
      refine first bound (Nat.not_lt.mp fun inside => ?_)
      exact absurd ((holds ⟨bound, inside⟩).mpr (Nat.le_refl _)) List.not_mem_nil
  | cons w rest ih =>
      obtain ⟨smallest, sorted⟩ := List.pairwise_cons.mp sorted
      have reached : bound ≤ w.val := (holds w).mp List.mem_cons_self
      obtain rfl : w.val = bound := by
        refine le_antisymm ?_ reached
        have member := (holds ⟨bound, lt_of_le_of_lt reached w.isLt⟩).mpr (Nat.le_refl _)
        rcases List.mem_cons.mp member with same | later
        · exact (congrArg Fin.val same).ge
        · exact Nat.le_of_lt (smallest _ later)
      have later (x : Fin n) : x ∈ rest ↔ w.val + 1 ≤ x.val := by
        constructor
        · exact smallest x
        · intro beyond
          rcases List.mem_cons.mp ((holds x).mpr (Nat.le_of_succ_le beyond)) with same | member
          · exact absurd beyond (same ▸ Nat.not_succ_le_self _)
          · exact member
      rw [List.foldr_cons]
      exact next w _ above (ih sorted (Nat.le_succ_of_le above) later)

namespace Sweep

open Dominance

variable {n : Nat} {edge : Fin n → Fin n → Prop} {zero pred p : Fin n} {parent : Fin n → Fin n}
  {preds : Fin n → List (Fin n)} {sweep : Sweep n} {forest : Forest n} {v w : Fin n}
  {seen : List (Fin n)} {found : Forest n × Fin n}

/-- Every vertex from the bound on has its semidominator. -/
def Known (edge : Fin n → Fin n → Prop) (forest : Forest n) (bound : Nat) : Prop :=
  ∀ x : Fin n, bound ≤ x.val → IsSemidominator edge x (forest.semi.get x)

/-- What is recorded for a vertex determines its immediate dominator. -/
def Decided (edge : Fin n → Fin n → Prop) (parent : Fin n → Fin n) (sweep : Sweep n)
    (v : Fin n) : Prop :=
  ∃ s, IsSemidominator edge v s ∧
    ((sweep.deferred.get v = none ∧ sweep.idom.get v = s ∧
        ∀ y, s < y → Covers parent y v → ∀ x, Detour edge y x → s ≤ x) ∨
      ∃ u t, sweep.deferred.get v = some u ∧ s < u ∧ u < v ∧ Covers parent u v ∧
        IsSemidominator edge u t ∧
        ∀ y, s < y → Covers parent y v → ∀ x, Detour edge y x → t ≤ x)

theorem Decided.congr {other : Sweep n} (decided : sweep.Decided edge parent v)
    (sameIdom : other.idom.get v = sweep.idom.get v)
    (sameDeferred : other.deferred.get v = sweep.deferred.get v) :
    other.Decided edge parent v := by
  unfold Decided
  rw [sameIdom, sameDeferred]
  exact decided

/-! ## Semidominators -/

/-- What the predecessors so far offer: a detour no later than any of their offers. -/
structure Offered (edge : Fin n → Fin n → Prop) (parent : Fin n → Fin n) (forest : Forest n)
    (w : Fin n) (seen : List (Fin n)) (found : Forest n × Fin n) : Prop where
  linked : found.1.Linked parent (w.val + 1)
  semi : found.1.semi = forest.semi
  detour : Detour edge w found.2
  le_parent : found.2 ≤ parent w
  le_pred : ∀ pred ∈ seen, pred ≤ w → found.2 ≤ pred
  le_semi : ∀ pred ∈ seen, w < pred → ∀ u, Covers parent u pred → w < u →
    found.2 ≤ forest.semi.get u

/-- A smaller detour that covers what a further predecessor offers. -/
theorem Offered.lower (offered : Offered edge parent forest w seen found) {next : Forest n}
    {offer : Fin n}
    (linked : next.Linked parent (w.val + 1)) (semi : next.semi = found.1.semi)
    (detour : Detour edge w offer) (le_pred : pred ≤ w → offer ≤ pred)
    (le_semi : w < pred → ∀ u, Covers parent u pred → w < u → offer ≤ forest.semi.get u) :
    Offered edge parent forest w (seen ++ [pred])
      (next, if offer < found.2 then offer else found.2) := by
  have below : (if offer < found.2 then offer else found.2) ≤ found.2 ∧
      (if offer < found.2 then offer else found.2) ≤ offer := by
    split
    · next smaller => exact ⟨smaller.le, le_rfl⟩
    · next larger => exact ⟨le_rfl, not_lt.mp larger⟩
  refine ⟨linked, semi.trans offered.semi, ?_, below.1.trans offered.le_parent, ?_, ?_⟩
  · show Detour edge w (if offer < found.2 then offer else found.2)
    split
    · exact detour
    · exact offered.detour
  · intro other member early
    rcases List.mem_append.mp member with before | new
    · exact below.1.trans (offered.le_pred other before early)
    · obtain rfl := List.mem_singleton.mp new
      exact below.2.trans (le_pred early)
  · intro other member late u held after
    rcases List.mem_append.mp member with before | new
    · exact below.1.trans (offered.le_semi other before late u held after)
    · obtain rfl := List.mem_singleton.mp new
      exact below.2.trans (le_semi late u held after)

theorem offer_of_le (early : pred ≤ w) :
    offer w found pred = (found.1, if pred < found.2 then pred else found.2) :=
  if_pos early

theorem offer_of_gt (late : w < pred) :
    offer w found pred =
      ((found.1.eval pred).1,
        if (found.1.eval pred).1.semi.get (found.1.eval pred).2 < found.2
        then (found.1.eval pred).1.semi.get (found.1.eval pred).2 else found.2) :=
  if_neg (not_le.mpr late)

theorem Offered.offer (offered : Offered edge parent forest w seen found)
    (numbering : Numbering edge zero parent) (known : Known edge forest (w.val + 1))
    (joined : edge pred w) :
    Offered edge parent forest w (seen ++ [pred]) (Sweep.offer w found pred) := by
  rcases le_or_gt pred w with early | late
  · rw [offer_of_le early]
    refine offered.lower offered.linked rfl ⟨pred, .refl, joined⟩ (fun _ => le_rfl) ?_
    intro late
    exact absurd early (not_le.mpr late)
  · rw [offer_of_gt late]
    obtain ⟨linked, semi, covers, inside, least⟩ := offered.linked.eval late
    have value := offered.semi
    refine offered.lower linked semi ?_ (fun early => absurd early (not_le.mpr late)) ?_
    · rw [semi, value]
      exact numbering.detour_extend (known _ inside).1 covers joined inside
    · intro _ u held after
      have bound := least u held after
      rw [semi, value]
      rwa [value] at bound

theorem offered_foldl (numbering : Numbering edge zero parent)
    (known : Known edge forest (w.val + 1)) (rest : List (Fin n))
    (joined : ∀ pred ∈ rest, edge pred w)
    (offered : Offered edge parent forest w seen found) :
    Offered edge parent forest w (seen ++ rest) (rest.foldl (Sweep.offer w) found) := by
  induction rest generalizing seen found with
  | nil => exact (List.append_nil seen).symm ▸ offered
  | cons pred rest ih =>
      rw [List.foldl_cons, List.append_cons]
      refine ih (fun other member => joined other (.tail _ member)) ?_
      exact offered.offer numbering known (joined pred (.head _))

/-- The offers of all predecessors determine the semidominator. -/
theorem Offered.isSemidominator (offered : Offered edge parent forest w (preds w) found)
    (numbering : Numbering edge zero parent) (positive : zero < w)
    (listed : ∀ pred, edge pred w → pred ∈ preds w) (known : Known edge forest (w.val + 1)) :
    IsSemidominator edge w found.2 := by
  refine ⟨offered.detour, ?_⟩
  intro x detour
  rcases numbering.edge_or_detour detour with joined | ⟨z, u, joined, above, covers, inner⟩
  · rcases le_or_gt x w with early | late
    · exact offered.le_pred x (listed x joined) early
    · exact offered.le_parent.trans ((numbering.parent_lt positive).trans late).le
  · have offer := offered.le_semi z (listed z joined) (lt_of_lt_of_le above covers.le) u covers above
    exact offer.trans ((known u above).2 inner)

/-! ## Deciding vertices -/

theorem settle_of_eq
    (same : (sweep.forest.eval v).1.semi.get (sweep.forest.eval v).2 =
      (sweep.forest.eval v).1.semi.get v) :
    settle p sweep v =
      { sweep with forest := (sweep.forest.eval v).1, idom := sweep.idom.set v p } :=
  if_pos same

theorem settle_of_ne
    (different : (sweep.forest.eval v).1.semi.get (sweep.forest.eval v).2 ≠
      (sweep.forest.eval v).1.semi.get v) :
    settle p sweep v =
      { sweep with
        forest := (sweep.forest.eval v).1
        deferred := sweep.deferred.set v (some (sweep.forest.eval v).2) } :=
  if_neg different

/-- A vertex whose semidominator is the parent of the vertex just linked is decided. -/
theorem settle_spec (linked : sweep.forest.Linked parent w.val)
    (known : Known edge sweep.forest w.val) (below : parent w < w) (inside : w.val ≤ v.val)
    (waits : sweep.forest.semi.get v = parent w) (undecided : sweep.deferred.get v = none) :
    (settle (parent w) sweep v).forest.Linked parent w.val ∧
      (settle (parent w) sweep v).forest.semi = sweep.forest.semi ∧
      (settle (parent w) sweep v).bucket = sweep.bucket ∧
      (settle (parent w) sweep v).Decided edge parent v ∧
      ∀ x ≠ v, (settle (parent w) sweep v).idom.get x = sweep.idom.get x ∧
        (settle (parent w) sweep v).deferred.get x = sweep.deferred.get x := by
  obtain ⟨evaluated, semi, covers, after, least⟩ := linked.eval inside
  have semiV : IsSemidominator edge v (parent w) := waits ▸ known v inside
  -- the search path from the parent to `v` runs through the vertex just linked
  have onPath (u : Fin n) (higher : parent w < u) (held : Covers parent u v) : w.val ≤ u.val := by
    by_contra early
    exact absurd higher (not_lt.mpr (held.2 w (Nat.not_le.mp early) inside))
  have undercut (y : Fin n) (higher : parent w < y) (held : Covers parent y v) (x : Fin n)
      (detour : Detour edge y x) :
      sweep.forest.semi.get (sweep.forest.eval v).2 ≤ x :=
    (least y held (onPath y higher held)).trans ((known y (onPath y higher held)).2 detour)
  by_cases same : sweep.forest.semi.get (sweep.forest.eval v).2 = sweep.forest.semi.get v
  · rw [settle_of_eq (by rw [semi]; exact same)]
    refine ⟨evaluated, semi, rfl, ⟨parent w, semiV, .inl ⟨undecided, ?_, ?_⟩⟩, ?_⟩
    · exact Table.get_set_self _ _ _
    · rw [same, waits] at undercut
      exact undercut
    · intro x different
      exact ⟨Table.get_set_ne _ _ different.symm, rfl⟩
  · rw [settle_of_ne (by rw [semi]; exact same)]
    have early : (sweep.forest.eval v).2 < v := by
      refine lt_of_le_of_ne covers.le fun equal => same ?_
      rw [equal]
    refine ⟨evaluated, semi, rfl, ⟨parent w, semiV, .inr ⟨(sweep.forest.eval v).2, _, ?_, ?_,
      early, covers, known _ after, undercut⟩⟩, ?_⟩
    · exact Table.get_set_self _ _ _
    · exact lt_of_lt_of_le below after
    · intro x different
      exact ⟨rfl, Table.get_set_ne _ _ different.symm⟩

theorem settle_all (below : parent w < w) (list : List (Fin n)) (nodup : list.Nodup)
    (linked : sweep.forest.Linked parent w.val) (known : Known edge sweep.forest w.val)
    (waiting : ∀ v ∈ list, w.val ≤ v.val ∧ sweep.forest.semi.get v = parent w ∧
      sweep.deferred.get v = none) :
    (list.foldl (settle (parent w)) sweep).forest.Linked parent w.val ∧
      (list.foldl (settle (parent w)) sweep).forest.semi = sweep.forest.semi ∧
      (list.foldl (settle (parent w)) sweep).bucket = sweep.bucket ∧
      (∀ v ∈ list, (list.foldl (settle (parent w)) sweep).Decided edge parent v) ∧
      ∀ x ∉ list, (list.foldl (settle (parent w)) sweep).idom.get x = sweep.idom.get x ∧
        (list.foldl (settle (parent w)) sweep).deferred.get x = sweep.deferred.get x := by
  induction list generalizing sweep with
  | nil => exact ⟨linked, rfl, rfl, fun _ member => absurd member List.not_mem_nil,
      fun _ _ => ⟨rfl, rfl⟩⟩
  | cons v rest ih =>
      obtain ⟨fresh, nodup⟩ := List.nodup_cons.mp nodup
      obtain ⟨inside, waits, undecided⟩ := waiting v List.mem_cons_self
      obtain ⟨linkedNext, semiNext, bucketNext, decided, others⟩ :=
        settle_spec linked known below inside waits undecided
      rw [List.foldl_cons]
      obtain ⟨linkedLast, semiLast, bucketLast, decidedLast, othersLast⟩ :=
        ih nodup linkedNext (by unfold Known; rw [semiNext]; exact known) (by
          intro x member
          have different : x ≠ v := fun same => fresh (same ▸ member)
          rw [semiNext, (others x different).2]
          exact waiting x (List.mem_cons_of_mem _ member))
      refine ⟨linkedLast, semiLast.trans semiNext, bucketLast.trans bucketNext, ?_, ?_⟩
      · intro x member
        rcases List.mem_cons.mp member with rfl | later
        · exact decided.congr (othersLast x fresh).1 (othersLast x fresh).2
        · exact decidedLast x later
      · intro x absent
        have outside := othersLast x (List.not_mem_of_not_mem_cons absent)
        have before := others x (List.ne_of_not_mem_cons absent)
        exact ⟨outside.1.trans before.1, outside.2.trans before.2⟩

/-! ## The whole sweep -/

/-- The vertices from the bound on have been visited, and what waits for the parent of one of the
vertices from the limit on has been decided. -/
structure Swept (edge : Fin n → Fin n → Prop) (parent : Fin n → Fin n) (sweep : Sweep n)
    (bound limit : Nat) : Prop where
  linked : sweep.forest.Linked parent bound
  known : Known edge sweep.forest bound
  nodup : ∀ q, (sweep.bucket.get q).Nodup
  waiting : ∀ q, ∀ v ∈ sweep.bucket.get q, bound ≤ v.val ∧ sweep.forest.semi.get v = q ∧
    ∀ c, parent c = q → Covers parent c v → c.val < limit
  decided : ∀ v : Fin n, bound ≤ v.val →
    v ∈ sweep.bucket.get (sweep.forest.semi.get v) ∨ sweep.Decided edge parent v
  undecided : ∀ v : Fin n, v.val < bound ∨ v ∈ sweep.bucket.get (sweep.forest.semi.get v) →
    sweep.deferred.get v = none

theorem swept_start (edge : Fin n → Fin n → Prop) (zero : Fin n) (parent : Fin n → Fin n)
    {bound : Nat} (beyond : n ≤ bound) : (start zero).Swept edge parent bound bound := by
  have none_inside (x : Fin n) : ¬ bound ≤ x.val :=
    Nat.not_le.mpr (Nat.lt_of_lt_of_le x.isLt beyond)
  refine ⟨Forest.linked_singletons parent beyond, ?_, ?_, ?_, ?_, ?_⟩
  · exact fun x inside => absurd inside (none_inside x)
  · simp [start]
  · simp [start]
  · exact fun x inside => absurd inside (none_inside x)
  · simp [start]

/-- Links a vertex and lets it wait for its semidominator. -/
def enter (sweep : Sweep n) (forest : Forest n) (w p s : Fin n) (below : p.val < w.val) :
    Sweep n :=
  { sweep with
    forest := (forest.setSemi w s).link p w below
    bucket := sweep.bucket.set s (sweep.bucket.get s ++ [w]) }

theorem visit_eq (below : (parent w).val < w.val)
    (offers : (preds w).foldl (offer w) (sweep.forest, parent w) = found) :
    visit parent preds sweep w =
      ((sweep.enter found.1 w (parent w) found.2 below).bucket.get (parent w)).foldl
        (settle (parent w))
        { sweep.enter found.1 w (parent w) found.2 below with
          bucket := (sweep.enter found.1 w (parent w) found.2 below).bucket.set (parent w) [] } := by
  unfold visit
  rw [dif_pos below, offers]
  rfl

theorem mem_bucket_enter {s q : Fin n} {below : p.val < w.val} :
    v ∈ (sweep.enter forest w p s below).bucket.get q ↔
      v ∈ sweep.bucket.get q ∨ v = w ∧ q = s := by
  unfold enter
  rw [Table.get_set]
  split
  · next same =>
      subst same
      simp
  · next different => simp [Ne.symm different]

/-- The next vertex is linked and waits for its semidominator. -/
theorem Swept.enter (swept : sweep.Swept edge parent (w.val + 1) (w.val + 1))
    (numbering : Numbering edge zero parent) (positive : zero < w) {s : Fin n}
    (linked : forest.Linked parent (w.val + 1)) (semi : forest.semi = sweep.forest.semi)
    (semidominator : IsSemidominator edge w s) (below : (parent w).val < w.val) :
    (sweep.enter forest w (parent w) s below).Swept edge parent w.val (w.val + 1) := by
  let next := sweep.enter forest w (parent w) s below
  have semi_self : next.forest.semi.get w = s := Table.get_set_self _ _ _
  have semi_ne {x : Fin n} (inside : w.val + 1 ≤ x.val) :
      next.forest.semi.get x = sweep.forest.semi.get x := by
    rw [← semi]
    refine Table.get_set_ne _ _ fun same => ?_
    exact Nat.not_succ_le_self _ (same ▸ inside)
  have behind {x : Fin n} (inside : w.val ≤ x.val) : x = w ∨ w.val + 1 ≤ x.val := by
    rcases Nat.eq_or_lt_of_le inside with same | later
    · exact .inl (Fin.ext same.symm)
    · exact .inr later
  refine ⟨linked.next numbering positive s below, ?known, ?nodup, ?waiting, ?decided, ?undecided⟩
  case known =>
    intro x inside
    rcases behind inside with rfl | later
    · exact semi_self.symm ▸ semidominator
    · exact (semi_ne later).symm ▸ swept.known x later
  case nodup =>
    intro q
    show ((sweep.bucket.set s (sweep.bucket.get s ++ [w])).get q).Nodup
    rw [Table.get_set]
    split
    · rw [List.nodup_append]
      refine ⟨swept.nodup s, List.nodup_singleton w, ?_⟩
      intro v before x new same
      rw [List.mem_singleton.mp new] at same
      exact Nat.not_succ_le_self _ (same ▸ (swept.waiting s v before).1)
    · exact swept.nodup q
  case waiting =>
    intro q v member
    rcases mem_bucket_enter.mp member with before | ⟨rfl, rfl⟩
    · obtain ⟨inside, waits, above⟩ := swept.waiting q v before
      exact ⟨Nat.le_of_succ_le inside, (semi_ne inside).trans waits, above⟩
    · exact ⟨Nat.le_refl _, semi_self, fun _ _ held => Nat.lt_succ_of_le held.le⟩
  case decided =>
    intro v inside
    rcases behind inside with rfl | later
    · exact .inl (mem_bucket_enter.mpr (.inr ⟨rfl, semi_self⟩))
    · rcases swept.decided v later with waits | decided
      · exact .inl (mem_bucket_enter.mpr (.inl ((semi_ne later).symm ▸ waits)))
      · exact .inr (decided.congr rfl rfl)
  case undecided =>
    rintro v (early | waits)
    · exact swept.undecided v (.inl (Nat.lt_succ_of_lt early))
    · rcases mem_bucket_enter.mp waits with before | ⟨rfl, _⟩
      · have inside := (swept.waiting _ v before).1
        exact swept.undecided v (.inr ((semi_ne inside) ▸ before))
      · exact swept.undecided v (.inl (Nat.lt_succ_self _))

/-- What waits for the parent of the vertex just linked is decided. -/
theorem Swept.settle (swept : sweep.Swept edge parent w.val (w.val + 1))
    (below : parent w < w) :
    ((sweep.bucket.get (parent w)).foldl (Sweep.settle (parent w))
      { sweep with bucket := sweep.bucket.set (parent w) [] }).Swept edge parent w.val w.val := by
  obtain ⟨linked, semi, bucket, decided, others⟩ :=
    @settle_all n edge parent { sweep with bucket := sweep.bucket.set (parent w) [] } w below
      (sweep.bucket.get (parent w)) (swept.nodup _) swept.linked swept.known (by
        intro v member
        obtain ⟨inside, waits, _⟩ := swept.waiting _ v member
        exact ⟨inside, waits, swept.undecided v (.inr (waits.symm ▸ member))⟩)
  have mem_bucket {v q : Fin n} :
      v ∈ (sweep.bucket.set (parent w) []).get q ↔ q ≠ parent w ∧ v ∈ sweep.bucket.get q := by
    rw [Table.get_set]
    split
    · next same => simp [same]
    · next different => simp [Ne.symm different]
  -- a vertex waits at its semidominator only
  have elsewhere {v : Fin n} (away : sweep.forest.semi.get v ≠ parent w) :
      v ∉ sweep.bucket.get (parent w) := fun member => away (swept.waiting _ v member).2.1
  refine ⟨linked, ?known, ?nodup, ?waiting, ?decided, ?undecided⟩
  case known =>
    unfold Known
    rw [semi]
    exact swept.known
  case nodup =>
    intro q
    rw [bucket, Table.get_set]
    split
    · exact List.nodup_nil
    · exact swept.nodup q
  case waiting =>
    intro q v member
    rw [bucket, mem_bucket] at member
    obtain ⟨inside, waits, above⟩ := swept.waiting q v member.2
    refine ⟨inside, by rw [semi]; exact waits, ?_⟩
    intro c child held
    have different : c ≠ w := fun same => member.1 (same ▸ child.symm)
    exact Nat.lt_of_le_of_ne (Nat.le_of_lt_succ (above c child held))
      fun equal => different (Fin.ext equal)
  case decided =>
    intro v inside
    rw [semi, bucket, mem_bucket]
    by_cases member : v ∈ sweep.bucket.get (parent w)
    · exact .inr (decided v member)
    · rcases swept.decided v inside with waits | before
      · exact .inl ⟨fun same => member (same ▸ waits), waits⟩
      · obtain ⟨sameIdom, sameDeferred⟩ := others v member
        exact .inr (before.congr sameIdom sameDeferred)
  case undecided =>
    intro v
    rw [semi, bucket, mem_bucket]
    rintro (early | ⟨away, waits⟩)
    · have absent : v ∉ sweep.bucket.get (parent w) := fun member =>
        Nat.not_le.mpr early (swept.waiting _ v member).1
      exact (others v absent).2.trans (swept.undecided v (.inl early))
    · exact (others v (elsewhere away)).2.trans (swept.undecided v (.inr waits))

/-- Visiting the next vertex. -/
theorem Swept.visit (swept : sweep.Swept edge parent (w.val + 1) (w.val + 1))
    (numbering : Numbering edge zero parent) (positive : zero < w)
    (listed : ∀ pred, pred ∈ preds w ↔ edge pred w) :
    (sweep.visit parent preds w).Swept edge parent w.val w.val := by
  have below : parent w < w := numbering.parent_lt positive
  obtain ⟨found, offers⟩ : ∃ found, (preds w).foldl (offer w) (sweep.forest, parent w) = found :=
    ⟨_, rfl⟩
  have first : Offered edge parent sweep.forest w [] (sweep.forest, parent w) :=
    ⟨swept.linked, rfl, ⟨parent w, .refl, numbering.edge_parent positive⟩, le_rfl,
      fun _ member => absurd member List.not_mem_nil,
      fun _ member => absurd member List.not_mem_nil⟩
  have offered : Offered edge parent sweep.forest w (preds w) found :=
    offers ▸ offered_foldl numbering swept.known (preds w)
      (fun pred member => (listed pred).mp member) first
  have semidominator := offered.isSemidominator numbering positive
    (fun pred joined => (listed pred).mpr joined) swept.known
  rw [visit_eq below offers]
  exact (swept.enter numbering positive offered.linked offered.semi semidominator below).settle
    below

/-- Visiting the vertices from a bound on, the last one first. -/
theorem swept_foldr (numbering : Numbering edge zero parent)
    (listed : ∀ w pred, pred ∈ preds w ↔ edge pred w) :
    (((List.finRange n).filter (zero < ·)).foldr (fun w sweep => visit parent preds sweep w)
      (start zero)).Swept edge parent (zero.val + 1) (zero.val + 1) := by
  refine foldr_descending (fun bound (sweep : Sweep n) => sweep.Swept edge parent bound bound)
    (fun _ beyond => swept_start edge zero parent beyond) ?_ _
    ((List.pairwise_lt_finRange n).filter _) (Nat.le_refl (zero.val + 1)) ?_
  · intro w sweep positive swept
    exact swept.visit numbering positive (listed w)
  · intro x
    simp only [List.mem_filter, List.mem_finRange, true_and, decide_eq_true_eq]
    exact Iff.rfl

theorem Swept.all_decided (swept : sweep.Swept edge parent (zero.val + 1) (zero.val + 1))
    (numbering : Numbering edge zero parent) (positive : zero < v) :
    sweep.Decided edge parent v := by
  rcases swept.decided v positive with waits | decided
  · have semidominator := swept.known v positive
    obtain ⟨c, higher, child, held⟩ := numbering.exists_child
      (numbering.covers_semidominator positive semidominator)
      (numbering.semidominator_lt positive semidominator)
    have unvisited := (swept.waiting _ v waits).2.2 c child held
    have first : zero < c := lt_of_le_of_lt (numbering.zero_le _) higher
    exact absurd first (not_lt.mpr (Nat.le_of_lt_succ unvisited))
  · exact decided

/-- Deferred vertices take the immediate dominator of an earlier vertex, which is known by then. -/
theorem resolve_foldl (numbering : Numbering edge zero parent)
    (decided : ∀ v, zero < v → sweep.Decided edge parent v)
    {step : Table n (Fin n) → Fin n → Table n (Fin n)}
    (keep : ∀ idom w, sweep.deferred.get w = none → step idom w = idom)
    (take : ∀ idom w y, sweep.deferred.get w = some y → step idom w = idom.set w (idom.get y))
    (rest : List (Fin n))
    (sorted : rest.Pairwise (· < ·)) (idom : Table n (Fin n))
    (done : ∀ v ∉ rest, zero < v → ImmediatelyDominates edge zero (idom.get v) v)
    (waiting : ∀ v ∈ rest, idom.get v = sweep.idom.get v) (v : Fin n) (positive : zero < v) :
    ImmediatelyDominates edge zero ((rest.foldl step idom).get v) v := by
  induction rest generalizing idom with
  | nil => exact done v List.not_mem_nil positive
  | cons w rest ih =>
      obtain ⟨smallest, sorted⟩ := List.pairwise_cons.mp sorted
      have fresh : w ∉ rest := fun member => absurd (smallest w member) (lt_irrefl w)
      rw [List.foldl_cons]
      cases choice : sweep.deferred.get w with
      | none =>
          rw [keep idom w choice]
          refine ih sorted idom ?_ fun x member =>
            waiting x (List.mem_cons_of_mem _ member)
          intro x absent first
          by_cases same : x = w
          · subst same
            obtain ⟨s, semi, ⟨_, value, least⟩ | ⟨u, _, deferred, _⟩⟩ := decided x first
            · rw [waiting x List.mem_cons_self, value]
              exact numbering.immediatelyDominates_semidominator first semi least
            · rw [choice] at deferred
              cases deferred
          · exact done x (by simp [same, absent]) first
      | some y =>
          rw [take idom w y choice]
          refine ih sorted (idom.set w (idom.get y)) ?_ ?_
          · intro x absent first
            by_cases same : x = w
            · subst same
              rw [Table.get_set_self]
              obtain ⟨s, semi, ⟨none, _⟩ | ⟨u, t, deferred, below, early, covers, undercut, least⟩⟩ :=
                decided x first
              · rw [choice] at none
                cases none
              · obtain rfl := Option.some.inj (choice.symm.trans deferred)
                have known : y ∉ x :: rest := by
                  intro member
                  rcases List.mem_cons.mp member with same | later
                  · exact early.ne same
                  · exact lt_asymm early (smallest y later)
                exact numbering.immediatelyDominates_of_least first semi below covers undercut
                  least (done y known (lt_of_le_of_lt (numbering.zero_le s) below))
            · rw [Table.get_set_ne _ _ (Ne.symm same)]
              exact done x (by simp [same, absent]) first
          · intro x member
            have different : w ≠ x := fun same => fresh (same ▸ member)
            rw [Table.get_set_ne _ _ different]
            exact waiting x (List.mem_cons_of_mem _ member)

end Sweep

open Dominance in
/-- The table holds the immediate dominator of every vertex but the first. -/
theorem immediateDominators_spec {n : Nat} {edge : Fin n → Fin n → Prop} {zero : Fin n}
    {parent : Fin n → Fin n} {preds : Fin n → List (Fin n)}
    (numbering : Numbering edge zero parent)
    (listed : ∀ w pred, pred ∈ preds w ↔ edge pred w) {w : Fin n} (positive : zero < w) :
    ImmediatelyDominates edge zero ((immediateDominators zero parent preds).get w) w := by
  have sorted : (List.finRange n).Pairwise (· < ·) := List.pairwise_lt_finRange n
  have swept := Sweep.swept_foldr numbering listed
  rw [← List.foldl_reverse] at swept
  refine Sweep.resolve_foldl numbering (fun _ first => swept.all_decided numbering first)
    ?_ ?_ (List.finRange n) sorted _ (fun x absent => absurd (List.mem_finRange x) absent)
    (fun _ _ => rfl) w positive
  · intro idom v none
    rw [none]
  · intro idom v y some
    rw [some]

end Lowering
