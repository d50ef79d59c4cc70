import Std.Data.TreeMap
import Std.Data.TreeSet

/-!
# The order of numbers

Maps and sets keyed by numbers list their keys in ascending order.
-/

namespace Lowering

def byNumber (a b : Nat) : Ordering := compareOfLessAndEq a b

instance : Std.TransCmp byNumber := inferInstanceAs (Std.TransCmp (compare : Nat → Nat → Ordering))

instance : Std.LawfulEqCmp byNumber :=
  inferInstanceAs (Std.LawfulEqCmp (compare : Nat → Nat → Ordering))

/-- A map from numbers. -/
abbrev NumberMap (α : Type) := Std.TreeMap Nat α byNumber

/-- A set of numbers. -/
abbrev NumberSet := Std.TreeSet Nat byNumber

theorem byNumber_eq_iff {a b : Nat} : byNumber a b = .eq ↔ a = b :=
  Std.LawfulEqCmp.compare_eq_iff_eq

namespace NumberMap

variable {α : Type}

theorem get?_empty (key : Nat) : (∅ : NumberMap α).get? key = none := by
  rw [Std.TreeMap.get?_eq_getElem?, Std.TreeMap.getElem?_emptyc]

theorem get?_insert (map : NumberMap α) (key other : Nat) (entry : α) :
    (map.insert key entry).get? other = if other = key then some entry else map.get? other := by
  rw [Std.TreeMap.get?_eq_getElem?, Std.TreeMap.getElem?_insert]
  by_cases same : other = key
  · rw [if_pos same, if_pos (byNumber_eq_iff.mpr same.symm)]
  · rw [if_neg same, if_neg fun equal => same (byNumber_eq_iff.mp equal).symm,
      Std.TreeMap.get?_eq_getElem?]

theorem contains_iff {map : NumberMap α} {key : Nat} :
    map.contains key = true ↔ ∃ entry, map.get? key = some entry := by
  rw [Std.TreeMap.contains_eq_isSome_getElem?, Option.isSome_iff_exists]
  rfl

end NumberMap

end Lowering
