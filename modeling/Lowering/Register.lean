import Lowering.Fault
import Lowering.Order

/-!
# Registers

The integer registers of RV32 by their role in the calling convention, and the registers that
machine code refers to while it is being lowered: virtual ones, physical ones, and ones that live
in a stack slot.
-/

namespace Lowering

/-- A physical register, named by its role. -/
inductive PhysReg where
  | zero
  | ra
  | sp
  /-- `a0` to `a7` -/
  | arg (i : Fin 8)
  /-- `s0` to `s11` -/
  | saved (i : Fin 12)
  /-- `t0` to `t6` -/
  | temp (i : Fin 7)
deriving DecidableEq, Repr

namespace PhysReg

/-- The register's place in the register order. -/
def rank : PhysReg → Nat
  | zero => 0
  | ra => 1
  | sp => 2
  | arg i => 3 + i.val
  | saved i => 11 + i.val
  | temp i => 23 + i.val

theorem rank_inj {a b : PhysReg} (same : a.rank = b.rank) : a = b := by
  cases a <;> cases b <;> simp only [rank] at same <;> first | rfl | omega | (congr 1; omega)

def name : PhysReg → String
  | zero => "zero"
  | ra => "ra"
  | sp => "sp"
  | arg i => s!"a{i.val}"
  | saved i => s!"s{i.val}"
  | temp i => s!"t{i.val}"

/-- The number that a nonempty run of decimal digits denotes, possibly behind a plus sign. -/
def index? (chars : List Char) : Option Nat :=
  let digits := match chars with
    | '+' :: rest => rest
    | _ => chars
  if digits.isEmpty || !digits.all Char.isDigit then none
  else some (digits.foldl (fun n c => 10 * n + (c.toNat - '0'.toNat)) 0)

/-- Reads a register name.  The index may have a plus sign and leading zeros. -/
def ofName? (name : String) : Option PhysReg :=
  if name = "zero" then some zero
  else if name = "ra" then some ra
  else if name = "sp" then some sp
  else
    match name.toList with
    | kind :: digits =>
        (index? digits).bind fun i =>
          if kind = 'a' then if inside : i < 8 then some (arg ⟨i, inside⟩) else none
          else if kind = 's' then if inside : i < 12 then some (saved ⟨i, inside⟩) else none
          else if kind = 't' then if inside : i < 7 then some (temp ⟨i, inside⟩) else none
          else none
    | [] => none

/-- A name that no register has. -/
structure Unknown where
  name : String

def Unknown.message (unknown : Unknown) : String := s!"unknown register `{unknown.name}`"

/-- Reads a register name that may be wrong. -/
def read (name : String) : Except Unknown PhysReg :=
  match ofName? name with
  | some reg => .ok reg
  | none => .error ⟨name⟩

/-- May a callee overwrite the register? -/
def isCallerSaved : PhysReg → Bool
  | ra | arg _ | temp _ => true
  | zero | sp | saved _ => false

/-- Registers that allocation leaves alone and liveness does not follow. -/
def isUntracked : PhysReg → Bool
  | zero | sp => true
  | ra | arg _ | saved _ | temp _ => false

/-- Registers that colors are drawn from; color `i` is the register at position `i`. -/
def pool : List PhysReg :=
  (List.finRange 8).map arg ++ (List.finRange 12).map saved ++ (List.finRange 7).map temp

/-- What a call overwrites. -/
def callerSaved : List PhysReg := ra :: pool.filter isCallerSaved

theorem mem_callerSaved {reg : PhysReg} : reg ∈ callerSaved ↔ reg.isCallerSaved = true := by
  cases reg with
  | zero => decide
  | ra => decide
  | sp => decide
  | arg i => revert i; decide
  | saved i => revert i; decide
  | temp i => revert i; decide

/-- The register of argument `i`. -/
def argument (i : Nat) : Except Fault PhysReg :=
  if inside : i < 8 then .ok (arg ⟨i, inside⟩) else .error .invalidArgument

/-- The register with color `i`. -/
def ofColor (i : Nat) : Except Fault PhysReg := fetch pool i

/-- The color of a register, none for registers outside the pool. -/
def color? (reg : PhysReg) : Option Nat := pool.idxOf? reg

end PhysReg

/-- A register that code refers to. -/
inductive Reg where
  | virtual (number : Nat)
  | physical (reg : PhysReg)
  | spilled (slot : Nat)
deriving DecidableEq, Repr

namespace Reg

def text : Reg → String
  | virtual number => s!"%v{number}"
  | physical reg => reg.name
  | spilled slot => s!"[slot {slot}]"

/-- Virtual registers come first, then physical ones, then spilled ones. -/
def kind : Reg → Nat
  | virtual _ => 0
  | physical _ => 1
  | spilled _ => 2

/-- The place of a register among those of its kind. -/
def place : Reg → Nat
  | virtual number => number
  | physical reg => reg.rank
  | spilled slot => slot

def order (a b : Reg) : Ordering :=
  (byNumber a.kind b.kind).then (byNumber a.place b.place)

instance : Std.TransCmp order :=
  inferInstanceAs (Std.TransCmp (compareLex (compareOn kind) (compareOn place)))

theorem eq_of_kind_of_place {a b : Reg} (sameKind : a.kind = b.kind)
    (samePlace : a.place = b.place) : a = b := by
  cases a <;> cases b <;> simp_all [kind, place]
  exact PhysReg.rank_inj samePlace

instance : Std.LawfulEqCmp order where
  compare_self := Std.ReflCmp.compare_self
  eq_of_compare := by
    intro a b equal
    unfold order at equal
    rw [Ordering.then_eq_eq] at equal
    exact eq_of_kind_of_place (Std.LawfulEqCmp.eq_of_compare equal.1)
      (Std.LawfulEqCmp.eq_of_compare equal.2)

@[simp]
theorem order_eq_iff {a b : Reg} : a.order b = .eq ↔ a = b := Std.LawfulEqCmp.compare_eq_iff_eq

def virtual? : Reg → Option Nat
  | virtual number => some number
  | physical _ | spilled _ => none

def slot? : Reg → Option Nat
  | spilled slot => some slot
  | virtual _ | physical _ => none

def isPhysical : Reg → Bool
  | physical _ => true
  | virtual _ | spilled _ => false

/-- Registers that liveness follows: all but the stack pointer and the constant zero. -/
def isTracked : Reg → Bool
  | physical reg => !reg.isUntracked
  | virtual _ | spilled _ => true

theorem isTracked_of_not_physical {reg : Reg} (notPhysical : reg.isPhysical = false) :
    reg.isTracked = true := by
  cases reg with
  | physical phys => cases notPhysical
  | virtual number => rfl
  | spilled slot => rfl

def arg (i : Fin 8) : Reg := physical (.arg i)

def sp : Reg := physical .sp

end Reg

end Lowering
