/-!
# Digits

Numerals in bases up to sixteen.
-/

namespace Lowering.Digits

/-- The value of a hexadecimal digit of either case. -/
def value? (c : Char) : Option Nat :=
  if c.isDigit then some (c.toNat - '0'.toNat)
  else if 'a' ≤ c && c ≤ 'f' then some (10 + (c.toNat - 'a'.toNat))
  else if 'A' ≤ c && c ≤ 'F' then some (10 + (c.toNat - 'A'.toNat))
  else none

/-- Appends a digit to a number. -/
def append? (base n : Nat) (c : Char) : Option Nat :=
  (value? c).bind fun digit => if digit < base then some (base * n + digit) else none

/-- The number that a nonempty run of digits writes. -/
def number? (base : Nat) (digits : List Char) : Option Nat :=
  if digits.isEmpty then none else digits.foldlM (append? base) 0

/-- The digits of a run in which single underscores may stand between two digits. -/
def ungrouped? (run : List Char) : Option (List Char) :=
  let isDoubled := (run.zip run.tail).any fun (c, next) => c == '_' && next == '_'
  if run.head? == some '_' || run.getLast? == some '_' || isDoubled then none
  else some (run.filter (· != '_'))

end Lowering.Digits
