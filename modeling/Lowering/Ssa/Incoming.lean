/-!
# Incoming operands

What a phi selects from: an operand for each predecessor, listed by ascending block number with
each block once.
-/

namespace Lowering.Ssa

variable {α β : Type}

/-- A finite map from block numbers, as its ascending list of entries. -/
structure Incoming (α : Type) where
  entries : List (Nat × α)
  ascending : entries.Pairwise fun a b => a.1 < b.1
deriving Repr

namespace Incoming

instance [DecidableEq α] : DecidableEq (Incoming α) := fun a b =>
  match decEq a.entries b.entries with
  | isTrue equal => isTrue (by cases a; cases b; cases equal; rfl)
  | isFalse different => isFalse fun equal => different (congrArg entries equal)

def empty : Incoming α := ⟨[], .nil⟩

def keys (incoming : Incoming α) : List Nat := incoming.entries.map Prod.fst

def operands (incoming : Incoming α) : List α := incoming.entries.map Prod.snd

def get? (incoming : Incoming α) (block : Nat) : Option α := incoming.entries.lookup block

/-- Puts an entry into its place in an ascending list; an older entry for the block is replaced. -/
def place (block : Nat) (operand : α) : List (Nat × α) → List (Nat × α)
  | [] => [(block, operand)]
  | (key, old) :: rest =>
      if block < key then (block, operand) :: (key, old) :: rest
      else if key < block then (key, old) :: place block operand rest
      else (block, operand) :: rest

theorem mem_place {block : Nat} {operand : α} {entries : List (Nat × α)} {entry : Nat × α}
    (member : entry ∈ place block operand entries) : entry = (block, operand) ∨ entry ∈ entries := by
  induction entries with
  | nil => exact .inl (List.mem_singleton.mp member)
  | cons head rest ih =>
      rw [place] at member
      split at member
      · exact List.mem_cons.mp member
      · split at member
        · rcases List.mem_cons.mp member with rfl | later
          · exact .inr List.mem_cons_self
          · exact (ih later).imp_right (List.mem_cons_of_mem _)
        · exact (List.mem_cons.mp member).imp_right (List.mem_cons_of_mem _)

theorem place_ascending (block : Nat) (operand : α) {entries : List (Nat × α)}
    (ascending : entries.Pairwise fun a b => a.1 < b.1) :
    (place block operand entries).Pairwise fun a b => a.1 < b.1 := by
  induction entries with
  | nil => exact .cons (fun _ member => nomatch member) .nil
  | cons head rest ih =>
      obtain ⟨first, tail⟩ := List.pairwise_cons.mp ascending
      rw [place]
      split
      · next less =>
          refine .cons (fun entry member => ?_) ascending
          rcases List.mem_cons.mp member with equal | later
          · exact equal ▸ less
          · exact Nat.lt_trans less (first entry later)
      · split
        · next less =>
            refine .cons (fun entry member => ?_) (ih tail)
            rcases mem_place member with rfl | later
            · exact less
            · exact first entry later
        · next notLess notGreater =>
            have equal : block = head.1 := by omega
            exact .cons (fun entry member => equal ▸ first entry member) tail

def insert (incoming : Incoming α) (block : Nat) (operand : α) : Incoming α :=
  ⟨place block operand incoming.entries, place_ascending block operand incoming.ascending⟩

/-- The map with the given entries; of several for one block the last counts. -/
def ofList (entries : List (Nat × α)) : Incoming α :=
  entries.foldl (fun incoming entry => incoming.insert entry.1 entry.2) empty

theorem map_ascending (f : α → β) {entries : List (Nat × α)}
    (ascending : entries.Pairwise fun a b => a.1 < b.1) :
    (entries.map fun entry => (entry.1, f entry.2)).Pairwise fun a b => a.1 < b.1 :=
  List.pairwise_map.mpr ascending

def map (f : α → β) (incoming : Incoming α) : Incoming β :=
  ⟨incoming.entries.map fun entry => (entry.1, f entry.2), map_ascending f incoming.ascending⟩

/-- Renames the blocks; entries without a new name are dropped. -/
def rename (names : Nat → Option Nat) (incoming : Incoming α) : Incoming α :=
  ofList (incoming.entries.filterMap fun entry =>
    (names entry.1).map fun block => (block, entry.2))

end Incoming

end Lowering.Ssa
