import Lowering.Fault

/-!
# Counters of bounded width

Values and virtual registers are numbered in 32 bits, slots and bytes of a frame in 64.  The numbers
themselves are naturals; arithmetic on them faults instead of leaving the range.
-/

namespace Lowering

/-- Width of an unsigned counter. -/
inductive Width where
  | w32
  | w64
deriving DecidableEq, Repr

namespace Width

/-- The first number that no longer fits. -/
def bound : Width → Nat
  | w32 => 4294967296
  | w64 => 18446744073709551616

def add (width : Width) (a b : Nat) : Except Fault Nat :=
  if a + b < width.bound then .ok (a + b) else .error .addOverflow

def sub (_ : Width) (a b : Nat) : Except Fault Nat :=
  if b ≤ a then .ok (a - b) else .error .subOverflow

def mul (width : Width) (a b : Nat) : Except Fault Nat :=
  if a * b < width.bound then .ok (a * b) else .error .mulOverflow

theorem add_eq_ok_iff {width : Width} {a b c : Nat} :
    width.add a b = .ok c ↔ c = a + b ∧ a + b < width.bound := by
  unfold add
  split <;> simp_all [eq_comm]

theorem sub_eq_ok_iff {width : Width} {a b c : Nat} :
    width.sub a b = .ok c ↔ c = a - b ∧ b ≤ a := by
  unfold sub
  split <;> simp_all [eq_comm]

theorem mul_eq_ok_iff {width : Width} {a b c : Nat} :
    width.mul a b = .ok c ↔ c = a * b ∧ a * b < width.bound := by
  unfold mul
  split <;> simp_all [eq_comm]

end Width

end Lowering
