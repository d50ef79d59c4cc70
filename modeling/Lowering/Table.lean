/-!
# Tables

One entry for each index below `n`.  A table is seen through `get`; each operation has one lemma
that says what it does to that view, and two tables with equal entries are equal.
-/

namespace Lowering

/-- An entry of type `α` for each index below `n`. -/
structure Table (n : Nat) (α : Type) where
  entries : Vector α n
deriving DecidableEq, Repr

namespace Table

variable {n : Nat} {α β : Type}

def get (table : Table n α) (i : Fin n) : α := table.entries.get i

def set (table : Table n α) (i : Fin n) (a : α) : Table n α := ⟨table.entries.set i a i.isLt⟩

def modify (table : Table n α) (i : Fin n) (f : α → α) : Table n α := table.set i (f (table.get i))

def tabulate (f : Fin n → α) : Table n α := ⟨Vector.ofFn f⟩

def replicate (n : Nat) (a : α) : Table n α := ⟨Vector.replicate n a⟩

def map (f : α → β) (table : Table n α) : Table n β := ⟨table.entries.map f⟩

/-- The entry at a number that may lie outside the table. -/
def get? (table : Table n α) (i : Nat) : Option α :=
  if inside : i < n then some (table.get ⟨i, inside⟩) else none

def toList (table : Table n α) : List α := table.entries.toList

theorem get_set (table : Table n α) (i j : Fin n) (a : α) :
    (table.set i a).get j = if i = j then a else table.get j := by
  have step : (table.set i a).get j = if i.val = j.val then a else table.get j :=
    Vector.getElem_set i.isLt j.isLt
  by_cases same : i = j
  · rw [step, if_pos same, if_pos (congrArg Fin.val same)]
  · rw [step, if_neg same, if_neg fun equal => same (Fin.ext equal)]

@[simp]
theorem get_set_self (table : Table n α) (i : Fin n) (a : α) : (table.set i a).get i = a := by
  rw [get_set, if_pos rfl]

theorem get_set_ne (table : Table n α) {i j : Fin n} (a : α) (different : i ≠ j) :
    (table.set i a).get j = table.get j := by
  rw [get_set, if_neg different]

theorem get_modify (table : Table n α) (i j : Fin n) (f : α → α) :
    (table.modify i f).get j = if i = j then f (table.get i) else table.get j :=
  table.get_set i j _

@[simp]
theorem get_tabulate (f : Fin n → α) (i : Fin n) : (tabulate f).get i = f i := by
  unfold tabulate
  exact Vector.getElem_ofFn i.isLt

@[simp]
theorem get_replicate (a : α) (i : Fin n) : (replicate n a).get i = a := by
  unfold replicate
  exact Vector.getElem_replicate i.isLt

@[simp]
theorem get_map (f : α → β) (table : Table n α) (i : Fin n) :
    (table.map f).get i = f (table.get i) := by
  unfold map
  exact Vector.getElem_map f i.isLt

@[ext]
theorem ext {first second : Table n α} (agree : ∀ i, first.get i = second.get i) :
    first = second := by
  cases first with
  | mk left =>
      cases second with
      | mk right =>
          congr
          exact Vector.ext fun i inside => agree ⟨i, inside⟩

end Table

end Lowering
