/-!
# Faults

A fault stops the whole computation: a broken promise of the caller, a counter that runs out of
its range, or an allocation that does not converge.  `Fault.message` is the one place that words them.
-/

namespace Lowering

/-- Why a computation cannot go on. -/
inductive Fault where
  /-- A table of `size` entries was asked for entry `index`. -/
  | outOfBounds (size index : Nat)
  | addOverflow
  | subOverflow
  | mulOverflow
  /-- A block names a successor that is not a block. -/
  | missingTarget (block target : Nat)
  /-- The immediate dominator of an unreachable block was asked for. -/
  | unreachableIdom (block : Nat)
  /-- A dominance query named an unreachable block. -/
  | unreachableDominance (dominator block : Nat)
  /-- A kept block jumps to one that was dropped. -/
  | droppedTarget (block : String)
  /-- A promoted slot was read where no definition reaches. -/
  | noReachingDefinition (slot : Nat)
  /-- A phi was given an incoming operand before it was placed. -/
  | phiNeverPlaced (dest : Nat)
  /-- There is no argument register with that number. -/
  | invalidArgument
  /-- A pool of fewer than two registers. -/
  | poolTooSmall (registers : Nat)
  /-- A function that already refers to a spilled register was handed to the allocator. -/
  | spilledInput (function : String) (slot : Nat)
  /-- The round limit was reached before a round without spills. -/
  | noColoring (function : String) (colors rounds : Nat)
  /-- A virtual register was left without a color. -/
  | noColor (function : String) (virtual : Nat)
  /-- A spilled register was left in the code after spill code was inserted. -/
  | survivedSpill (function : String) (slot : Nat)
  /-- A physical register was to be spilled. -/
  | physicalSpill (function register : String)
  /-- The finished code does not pass its check. -/
  | rejected (verdict : String)
deriving DecidableEq, Repr

namespace Fault

/-- The text a fault is reported with. -/
def message : Fault → String
  | outOfBounds size index =>
      s!"index out of bounds: the len is {size} but the index is {index}"
  | addOverflow => "attempt to add with overflow"
  | subOverflow => "attempt to subtract with overflow"
  | mulOverflow => "attempt to multiply with overflow"
  | missingTarget block target =>
      s!"block bb{block} jumps to bb{target} which does not exist"
  | unreachableIdom block => s!"dominator of unreachable block bb{block} requested"
  | unreachableDominance dominator block =>
      s!"dominance between bb{dominator} and bb{block} asked with an unreachable block"
  | droppedTarget block => s!"reachable block {block} jumps to a dropped block"
  | noReachingDefinition slot => s!"no reaching definition for promoted slot {slot}"
  | phiNeverPlaced dest => s!"phi %{dest} was never placed"
  | invalidArgument => "Invalid argument index"
  | poolTooSmall registers =>
      s!"register pool of {registers} registers cannot hold two operands"
  | spilledInput function slot =>
      s!"{function}: spilled register [slot {slot}] reached register allocation"
  | noColoring function colors rounds =>
      s!"{function}: no coloring with K = {colors} after {rounds} rounds"
  | noColor function virtual => s!"{function}: no color for %v{virtual}"
  | survivedSpill function slot => s!"{function}: [slot {slot}] survived spill rewriting"
  | physicalSpill function register =>
      s!"{function}: precolored register {register} cannot be spilled"
  | rejected verdict => verdict

end Fault

/-- A sequence of two computations succeeds if both do. -/
theorem bind_eq_ok {ε α β : Type} {first : Except ε α} {next : α → Except ε β} {b : β} :
    (first >>= next) = .ok b ↔ ∃ a, first = .ok a ∧ next a = .ok b := by
  cases first with
  | error fault =>
      constructor
      · intro ok
        cases ok
      · rintro ⟨a, found, _⟩
        cases found
  | ok a =>
      constructor
      · intro ok
        exact ⟨a, rfl, ok⟩
      · rintro ⟨other, found, ok⟩
        cases found
        exact ok

/-- Checks in turn succeed if all do. -/
theorem forM_eq_ok_iff {ε α : Type} {check : α → Except ε Unit} {list : List α} :
    list.forM check = .ok () ↔ ∀ a ∈ list, check a = .ok () := by
  induction list with
  | nil => exact ⟨fun _ a member => (nomatch member), fun _ => rfl⟩
  | cons head rest ih =>
      rw [List.forall_mem_cons, ← ih]
      refine bind_eq_ok.trans ⟨?_, ?_⟩
      · rintro ⟨_, first, later⟩
        exact ⟨first, later⟩
      · rintro ⟨first, later⟩
        exact ⟨(), first, later⟩

/-- Looks up an entry, with a fault outside the list. -/
def fetch {α : Type} (entries : List α) (index : Nat) : Except Fault α :=
  match entries[index]? with
  | some entry => .ok entry
  | none => .error (.outOfBounds entries.length index)

end Lowering
