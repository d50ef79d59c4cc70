import Lowering.Ssa.Incoming

/-!
# Looking up incoming operands

Incoming operands are seen through `get?`: each operation has one lemma that says what it does to
that view.
-/

namespace Lowering.Ssa.Incoming

variable {α β : Type}

theorem lookup_cons_eq (key block : Nat) (operand : α) (rest : List (Nat × α)) :
    ((block, operand) :: rest).lookup key =
      if key = block then some operand else rest.lookup key := by
  rw [List.lookup_cons]
  by_cases same : key = block
  · rw [if_pos same, beq_iff_eq.mpr same]
  · rw [if_neg same, beq_eq_false_iff_ne.mpr same]

theorem lookup_eq_none {entries : List (Nat × α)} {key : Nat}
    (absent : key ∉ entries.map Prod.fst) : entries.lookup key = none := by
  rw [List.lookup_eq_none_iff]
  intro entry member
  rw [bne_iff_ne]
  rintro rfl
  exact absent (List.mem_map_of_mem member)

theorem lookup_place (block key : Nat) (operand : α) (entries : List (Nat × α)) :
    (place block operand entries).lookup key =
      if key = block then some operand else entries.lookup key := by
  induction entries with
  | nil => rw [place, lookup_cons_eq]
  | cons head rest ih =>
      obtain ⟨other, old⟩ := head
      rw [place]
      split
      · rw [lookup_cons_eq]
      · split
        · next earlier =>
            rw [lookup_cons_eq, lookup_cons_eq, ih]
            by_cases same : key = block
            · rw [if_pos same, if_pos same, if_neg (same ▸ Nat.ne_of_gt earlier)]
            · rw [if_neg same, if_neg same]
        · next later earlier =>
            obtain rfl : block = other := by omega
            rw [lookup_cons_eq, lookup_cons_eq]
            by_cases same : key = block
            · rw [if_pos same, if_pos same]
            · rw [if_neg same, if_neg same, if_neg same]

@[simp]
theorem get?_empty (block : Nat) : (empty : Incoming α).get? block = none := rfl

theorem get?_insert (incoming : Incoming α) (block key : Nat) (operand : α) :
    (incoming.insert block operand).get? key =
      if key = block then some operand else incoming.get? key :=
  lookup_place block key operand incoming.entries

theorem lookup_map (f : α → β) (entries : List (Nat × α)) (key : Nat) :
    (entries.map fun entry => (entry.1, f entry.2)).lookup key = (entries.lookup key).map f := by
  induction entries with
  | nil => rfl
  | cons head rest ih =>
      rw [List.map_cons, lookup_cons_eq, ih, ← Prod.eta head, lookup_cons_eq]
      split
      · rfl
      · rfl

theorem get?_map (f : α → β) (incoming : Incoming α) (block : Nat) :
    (incoming.map f).get? block = (incoming.get? block).map f :=
  lookup_map f incoming.entries block

theorem get?_foldl_insert (entries : List (Nat × α)) (distinct : (entries.map Prod.fst).Nodup)
    (incoming : Incoming α) (block : Nat) :
    (entries.foldl (fun incoming entry => incoming.insert entry.1 entry.2) incoming).get? block =
      (entries.lookup block).or (incoming.get? block) := by
  induction entries generalizing incoming with
  | nil => rfl
  | cons head rest ih =>
      obtain ⟨key, operand⟩ := head
      obtain ⟨fresh, distinct⟩ := List.nodup_cons.mp distinct
      rw [List.foldl_cons, ih distinct, get?_insert, lookup_cons_eq]
      by_cases same : block = key
      · rw [lookup_eq_none (same ▸ fresh), if_pos same, if_pos same]
        rfl
      · rw [if_neg same, if_neg same]

theorem get?_ofList (entries : List (Nat × α)) (distinct : (entries.map Prod.fst).Nodup)
    (block : Nat) : (ofList entries).get? block = entries.lookup block := by
  unfold ofList
  rw [get?_foldl_insert entries distinct, get?_empty, Option.or_none]

theorem lookup_eq_some_iff {entries : List (Nat × α)} (distinct : (entries.map Prod.fst).Nodup)
    {key : Nat} {operand : α} :
    entries.lookup key = some operand ↔ (key, operand) ∈ entries := by
  induction entries with
  | nil => simp
  | cons head rest ih =>
      obtain ⟨block, other⟩ := head
      obtain ⟨fresh, distinct⟩ := List.nodup_cons.mp distinct
      rw [lookup_cons_eq, List.mem_cons]
      by_cases same : key = block
      · rw [if_pos same]
        constructor
        · intro equal
          exact .inl (Prod.ext same (Option.some.inj equal).symm)
        · rintro (equal | later)
          · exact congrArg some (congrArg Prod.snd equal).symm
          · exact absurd (List.mem_map_of_mem later) (same ▸ fresh)
      · rw [if_neg same, ih distinct]
        refine ⟨.inr, fun either => either.resolve_left fun equal => same ?_⟩
        exact congrArg Prod.fst equal

theorem keys_nodup (incoming : Incoming α) : (incoming.entries.map Prod.fst).Nodup := by
  rw [List.Nodup, List.pairwise_map]
  exact incoming.ascending.imp Nat.ne_of_lt

theorem get?_eq_some_iff {incoming : Incoming α} {block : Nat} {operand : α} :
    incoming.get? block = some operand ↔ (block, operand) ∈ incoming.entries :=
  lookup_eq_some_iff incoming.keys_nodup

theorem mem_keys_iff {incoming : Incoming α} {block : Nat} :
    block ∈ incoming.keys ↔ (incoming.get? block).isSome = true := by
  rw [Option.isSome_iff_exists]
  simp only [get?_eq_some_iff]
  unfold keys
  simp

section Rename

variable {names : Nat → Option Nat}
  (injective : ∀ a b c, names a = some c → names b = some c → a = b)
include injective

theorem nodup_renamed {entries : List (Nat × α)} (distinct : (entries.map Prod.fst).Nodup) :
    ((entries.filterMap fun entry =>
      (names entry.1).map fun block => (block, entry.2)).map Prod.fst).Nodup := by
  rw [List.map_filterMap]
  rw [List.Nodup, List.pairwise_map] at distinct
  rw [List.Nodup, List.pairwise_filterMap]
  refine distinct.imp ?_
  intro first second different key found other foundOther same
  subst same
  have named {entry : Nat × α}
      (found : ((names entry.1).map fun block => (block, entry.2)).map Prod.fst = some key) :
      names entry.1 = some key := by
    obtain ⟨pair, isPair, rfl⟩ := Option.map_eq_some_iff.mp found
    obtain ⟨block, isBlock, rfl⟩ := Option.map_eq_some_iff.mp isPair
    exact isBlock
  exact different (injective _ _ _ (named found) (named foundOther))

theorem lookup_renamed (entries : List (Nat × α)) {block renamed : Nat}
    (named : names block = some renamed) :
    (entries.filterMap fun entry =>
      (names entry.1).map fun block => (block, entry.2)).lookup renamed = entries.lookup block := by
  induction entries with
  | nil => rfl
  | cons head rest ih =>
      obtain ⟨key, operand⟩ := head
      rw [List.filterMap_cons, lookup_cons_eq]
      cases found : names key with
      | none =>
          have different : block ≠ key := by
            rintro rfl
            rw [named] at found
            cases found
          rw [if_neg different]
          exact ih
      | some other =>
          simp only [Option.map_some]
          rw [lookup_cons_eq, ih]
          by_cases same : block = key
          · have equal : renamed = other :=
              Option.some.inj (named.symm.trans (same ▸ found))
            rw [if_pos same, if_pos equal]
          · have different : renamed ≠ other := fun equal =>
              same (injective _ _ _ named (equal ▸ found))
            rw [if_neg same, if_neg different]

theorem get?_rename (incoming : Incoming α) {block renamed : Nat}
    (named : names block = some renamed) :
    (incoming.rename names).get? renamed = incoming.get? block := by
  unfold rename
  rw [get?_ofList _ (nodup_renamed injective incoming.keys_nodup)]
  exact lookup_renamed injective incoming.entries named

theorem exists_of_mem_keys_rename {incoming : Incoming α} {key : Nat}
    (member : key ∈ (incoming.rename names).keys) : ∃ block, names block = some key := by
  obtain ⟨⟨_, operand⟩, isEntry, rfl⟩ := List.mem_map.mp member
  have found := get?_eq_some_iff.mpr isEntry
  unfold rename at found
  have distinct := nodup_renamed injective incoming.keys_nodup
  rw [get?_ofList _ distinct, lookup_eq_some_iff distinct] at found
  obtain ⟨entry, _, renamed⟩ := List.mem_filterMap.mp found
  obtain ⟨block, named, same⟩ := Option.map_eq_some_iff.mp renamed
  obtain ⟨rfl, _⟩ := Prod.mk.inj same
  exact ⟨entry.1, named⟩

end Rename

end Lowering.Ssa.Incoming
