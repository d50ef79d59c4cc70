/-!
# Queues of numbers, smallest first

A multiset of numbers kept in ascending order.  Taking numbers off its front finds the smallest
number that it does not hold.
-/

namespace Lowering

/-- Numbers in ascending order, repetitions allowed. -/
structure MinQueue where
  elems : List Nat
deriving DecidableEq, Repr

namespace MinQueue

def empty : MinQueue := ⟨[]⟩

def push (queue : MinQueue) (x : Nat) : MinQueue :=
  ⟨queue.elems.takeWhile (· < x) ++ x :: queue.elems.dropWhile (· < x)⟩

/-- Takes the smallest number off. -/
def pop? (queue : MinQueue) : Option (Nat × MinQueue) :=
  match queue.elems with
  | [] => none
  | x :: rest => some (x, ⟨rest⟩)

/-- Takes numbers off an ascending list until one above `candidate` shows that `candidate` is
missing; that number is taken off as well. -/
def absentFrom (candidate : Nat) : List Nat → Nat × List Nat
  | [] => (candidate, [])
  | x :: rest =>
      if x < candidate then absentFrom candidate rest
      else if x = candidate then absentFrom (candidate + 1) rest
      else (candidate, rest)

/-- The smallest number not in the queue, and the numbers left after looking for it. -/
def smallestAbsent (queue : MinQueue) : Nat × MinQueue :=
  let (absent, rest) := absentFrom 0 queue.elems
  (absent, ⟨rest⟩)

end MinQueue

end Lowering
