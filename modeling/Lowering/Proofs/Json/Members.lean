import Lowering.Json.Value
import Lowering.Width
import Mathlib.Data.List.Forall2
import Mathlib.Data.List.Nodup
import Mathlib.Data.List.Perm.Basic

/-!
# Values with members in any order

The members of an object have no order of their own.  A value is restored by a reader if the reader gets
it back from its written form, in whatever order the members of objects stand there.
-/

namespace Lowering.Json

/-- The same value, with the members of its objects in any order. -/
inductive Reorders : Json → Json → Prop where
  | refl (json : Json) : Reorders json json
  | arr {items others : List Json} : List.Forall₂ Reorders items others →
      Reorders (arr items) (arr others)
  | obj {members others permuted : List (String × Json)} :
      others.map Prod.fst = members.map Prod.fst →
      List.Forall₂ Reorders (members.map Prod.snd) (others.map Prod.snd) →
      others.Perm permuted → Reorders (obj members) (obj permuted)

variable {json : Json}

@[simp]
theorem reorders_null : Reorders null json ↔ json = null :=
  ⟨fun same => by cases same; rfl, fun same => same ▸ .refl null⟩

theorem eq_null_of_reorders (same : Reorders json null) : json = null := by
  cases same
  rfl

@[simp]
theorem reorders_int {n : Int} : Reorders (int n) json ↔ json = int n :=
  ⟨fun same => by cases same; rfl, fun same => same ▸ .refl (int n)⟩

@[simp]
theorem reorders_str {s : String} : Reorders (str s) json ↔ json = str s :=
  ⟨fun same => by cases same; rfl, fun same => same ▸ .refl (str s)⟩

theorem exists_of_reorders_arr {items : List Json} (same : Reorders (arr items) json) :
    ∃ others, json = arr others ∧ List.Forall₂ Reorders items others := by
  cases same with
  | refl => exact ⟨items, rfl, List.forall₂_same.mpr fun item _ => .refl item⟩
  | arr items => exact ⟨_, rfl, items⟩

/-- The members of a reordered object, first in the old order. -/
theorem exists_of_reorders_obj {members : List (String × Json)} (same : Reorders (obj members) json) :
    ∃ others permuted : List (String × Json), json = obj permuted ∧ others.Perm permuted ∧
      others.map Prod.fst = members.map Prod.fst ∧
      List.Forall₂ Reorders (members.map Prod.snd) (others.map Prod.snd) := by
  cases same with
  | refl =>
      exact ⟨members, members, rfl, .refl _, rfl, List.forall₂_same.mpr fun item _ => .refl item⟩
  | obj names values permutes => exact ⟨_, _, rfl, permutes, names, values⟩

theorem exists_of_reorders_tagged {name : String} {data : Json}
    (same : Reorders (tagged name data) json) :
    ∃ other, json = tagged name other ∧ Reorders data other := by
  obtain ⟨others, permuted, rfl, permutes, names, values⟩ := exists_of_reorders_obj same
  rcases others with _ | ⟨⟨other, value⟩, _ | ⟨_, _⟩⟩
  · cases names
  · cases names
    rw [List.singleton_perm] at permutes
    exact ⟨value, by rw [← permutes]; rfl, (List.forall₂_cons.mp values).1⟩
  · cases names

/-- What is read from an object whose members have different names. -/
theorem lookup_eq_some_of_mem {members : List (String × Json)} {member : String × Json}
    (distinct : (members.map Prod.fst).Nodup) (isMember : member ∈ members) :
    members.lookup member.1 = some member.2 := by
  induction members with
  | nil => cases isMember
  | cons first rest ih =>
      obtain ⟨new, distinct⟩ := List.nodup_cons.mp distinct
      rcases List.mem_cons.mp isMember with rfl | later
      · exact List.lookup_cons_self
      · have other : member.1 ≠ first.1 := fun equal => new (equal ▸ List.mem_map_of_mem later)
        rw [List.lookup_cons, beq_false_of_ne other]
        exact ih distinct later

theorem members?_permuted {members permuted : List (String × Json)} (permutes : members.Perm permuted)
    (distinct : (members.map Prod.fst).Nodup) :
    (obj permuted).members? (members.map Prod.fst) = some (members.map fun member => some member.2) := by
  have distinctPermuted : (permuted.map Prod.fst).Nodup := (permutes.map _).nodup_iff.mp distinct
  have once : ∀ name, (permuted.countP fun member => member.1 == name) ≤ 1 := by
    intro name
    have counted := List.nodup_iff_count_le_one.mp distinctPermuted name
    rwa [List.count, List.countP_map] at counted
  refine (if_pos (List.all_eq_true.mpr fun name _ => decide_eq_true (once name))).trans ?_
  rw [List.map_map]
  refine congrArg some (List.map_congr_left fun member isMember => ?_)
  exact lookup_eq_some_of_mem distinctPermuted (permutes.mem_iff.mp isMember)

/-- A record is read member by member, in whatever order they stand. -/
theorem exists_of_reorders_record (names : List String) (values : List Json)
    (same : Reorders (obj (names.zip values)) json) (lengths : names.length = values.length)
    (distinct : names.Nodup) :
    ∃ others : List Json, json.members? names = some (others.map some) ∧
      List.Forall₂ Reorders values others := by
  obtain ⟨others, permuted, rfl, permutes, sameNames, sameValues⟩ := exists_of_reorders_obj same
  rw [List.map_fst_zip (Nat.le_of_eq lengths)] at sameNames
  rw [List.map_snd_zip (Nat.le_of_eq lengths.symm)] at sameValues
  refine ⟨others.map Prod.snd, ?_, sameValues⟩
  rw [← sameNames, members?_permuted permutes (sameNames ▸ distinct), List.map_map]
  rfl

theorem exists_of_reorders_case {name : String} (names : List String) (values : List Json)
    (same : Reorders (tagged name (obj (names.zip values))) json)
    (lengths : names.length = values.length) (distinct : names.Nodup) :
    ∃ (data : Json) (others : List Json), json = tagged name data ∧
      data.members? names = some (others.map some) ∧ List.Forall₂ Reorders values others := by
  obtain ⟨data, rfl, written⟩ := exists_of_reorders_tagged same
  obtain ⟨others, read, sameValues⟩ := exists_of_reorders_record names values written lengths distinct
  exact ⟨data, others, rfl, read, sameValues⟩

/-! ## Reading lists -/

section

variable {α β : Type} {read : α → Option β} {items : List α} {as : List β}

theorem mapM_eq_some_iff : items.mapM read = some as ↔ List.Forall₂ (read · = some ·) items as := by
  induction items generalizing as with
  | nil => simp [eq_comm]
  | cons item items ih =>
      simp only [List.mapM_cons, Option.pure_def, Option.bind_eq_bind, Option.bind_eq_some_iff,
        Option.some.injEq, List.forall₂_cons_left_iff, ih]
      constructor
      · rintro ⟨a, isA, as, areAs, rfl⟩
        exact ⟨a, as, isA, areAs, rfl⟩
      · rintro ⟨a, as, isA, areAs, rfl⟩
        exact ⟨a, isA, as, areAs, rfl⟩

theorem exists_of_mem_mapM (found : items.mapM read = some as) {a : β} (member : a ∈ as) :
    ∃ item, read item = some a := by
  have readAll := mapM_eq_some_iff.mp found
  obtain ⟨i, below, rfl⟩ := List.getElem_of_mem member
  exact ⟨_, readAll.get (readAll.length_eq ▸ below) below⟩

theorem exists_mapM_permuted {permuted : List α} (permutes : items.Perm permuted)
    (found : items.mapM read = some as) :
    ∃ others, permuted.mapM read = some others ∧ as.Perm others := by
  obtain ⟨others, read, same⟩ := List.perm_comp_forall₂ permutes.symm (mapM_eq_some_iff.mp found)
  exact ⟨others, mapM_eq_some_iff.mpr read, same.symm⟩

end

/-! ## Restored values -/

variable {α : Type} {write : α → Json} {read : Json → Option α} {a : α}

/-- The reader gets the value back from its written form. -/
def Restores (write : α → Json) (read : Json → Option α) (a : α) : Prop :=
  ∀ json, Reorders (write a) json → read json = some a

theorem Restores.list {as : List α} (restores : ∀ a ∈ as, Restores write read a) :
    Restores (fun as => arr (as.map write)) (list? read) as := by
  intro json same
  obtain ⟨items, rfl, sameItems⟩ := exists_of_reorders_arr same
  clear same
  refine mapM_eq_some_iff.mpr ?_
  induction as generalizing items with
  | nil =>
      cases sameItems
      exact .nil
  | cons a as ih =>
      cases sameItems with
      | cons first rest =>
          obtain ⟨restored, others⟩ := List.forall_mem_cons.mp restores
          exact .cons (restored _ first) (ih others _ rest)

theorem Restores.nullable {value : Option α} (restores : ∀ a ∈ value, Restores write read a)
    (notNull : ∀ a, write a ≠ null) : Restores (ofOption write) (nullable? read) value := by
  intro json same
  cases value with
  | none =>
      cases reorders_null.mp same
      rfl
  | some a =>
      unfold nullable?
      split
      · exact absurd (eq_null_of_reorders same) (notNull a)
      · exact congrArg (Option.map some) (restores a rfl json same)

theorem restores_nat {bound n : Nat} (below : n < bound) : Restores nat (natBelow? bound) n := by
  intro json same
  cases reorders_int.mp same
  exact if_pos below

theorem restores_u32 {n : Nat} (below : n < Width.w32.bound) : Restores nat u32? n :=
  restores_nat below

theorem restores_u64 {n : Nat} (below : n < Width.w64.bound) : Restores nat u64? n :=
  restores_nat below

theorem restores_int {least greatest n : Int} (within : least ≤ n ∧ n ≤ greatest) :
    Restores int (intWithin? least greatest) n := by
  intro json same
  cases reorders_int.mp same
  exact if_pos (by simpa using within)

theorem restores_str (s : String) : Restores str str? s := by
  intro json same
  cases reorders_str.mp same
  rfl

/-! ## What readers yield -/

variable {P : α → Prop} {fallback : α} {member : Option Json}

/-- All that the reader reads has the property. -/
def Yields (read : Json → Option α) (P : α → Prop) : Prop := ∀ json a, read json = some a → P a

theorem Yields.required (yields : Yields read P) (found : required? read member = some a) : P a := by
  obtain ⟨value, _, found⟩ := Option.bind_eq_some_iff.mp found
  exact yields value a found

theorem Yields.default (yields : Yields read P) (usual : P fallback)
    (found : default? read fallback member = some a) : P a := by
  unfold default? at found
  split at found
  · exact yields _ a found
  · cases found
    exact usual

theorem Yields.nullable (yields : Yields read P) :
    Yields (nullable? read) fun result => ∀ a ∈ result, P a := by
  intro json result found
  unfold nullable? at found
  split at found
  · cases found
    exact nofun
  · obtain ⟨a, isA, rfl⟩ := Option.map_eq_some_iff.mp found
    rintro _ ⟨⟩
    exact yields _ a isA

theorem Yields.optional {result : Option α} (yields : Yields read P)
    (found : optional? read member = some result) : ∀ a ∈ result, P a := by
  unfold optional? at found
  split at found
  · exact yields.nullable _ _ found
  · cases found
    exact nofun

theorem Yields.list (yields : Yields read P) : Yields (list? read) fun as => ∀ a ∈ as, P a := by
  intro json as found
  unfold list? at found
  split at found
  · intro a member
    obtain ⟨item, isItem⟩ := exists_of_mem_mapM found member
    exact yields item a isItem
  · cases found

theorem yields_natBelow (bound : Nat) : Yields (natBelow? bound) (· < bound) := by
  intro json n found
  unfold natBelow? at found
  split at found
  · split at found
    · cases found
      assumption
    · cases found
  · cases found

theorem yields_u32 : Yields u32? (· < Width.w32.bound) := yields_natBelow _

theorem yields_u64 : Yields u64? (· < Width.w64.bound) := yields_natBelow _

theorem yields_intWithin (least greatest : Int) :
    Yields (intWithin? least greatest) fun n => least ≤ n ∧ n ≤ greatest := by
  intro json n found
  unfold intWithin? at found
  split at found
  · split at found
    · next within =>
        cases found
        simpa using within
    · cases found
  · cases found

/-- A case without data has the property if it is read at all. -/
theorem yields_bare {usual : α} (found : bare? usual member = some a) (holds : P usual) : P a := by
  unfold bare? at found
  split at found
  · cases found
    exact holds
  · cases found
    exact holds
  · cases found

end Lowering.Json
