/-!
# JSON values

A value keeps the members of an object in the order of the text, repetitions included.  Numbers
are integers; literals that no record here accepts are kept apart as `noise`.
-/

namespace Lowering

inductive Json where
  | null
  | bool (b : Bool)
  | int (n : Int)
  | str (s : String)
  | arr (items : List Json)
  | obj (members : List (String × Json))
  /-- A number with a fraction or an exponent, a negative zero, or a string with an unpaired
  surrogate. -/
  | noise
deriving Repr

namespace Json

/-- The integer of a value, if it lies within the bounds given, both included. -/
def intWithin? (least greatest : Int) : Json → Option Int
  | int n => if least ≤ n && n ≤ greatest then some n else none
  | _ => none

/-- The number of a value, if it is smaller than `bound`. -/
def natBelow? (bound : Nat) : Json → Option Nat
  | int (.ofNat n) => if n < bound then some n else none
  | _ => none

def str? : Json → Option String
  | str s => some s
  | _ => none

def items? : Json → Option (List Json)
  | arr items => some items
  | _ => none

/-- The list whose items `read` reads. -/
def list? {α : Type} (read : Json → Option α) : Json → Option (List α)
  | arr items => items.mapM read
  | _ => none

/-- Null, or what `read` reads. -/
def nullable? {α : Type} (read : Json → Option α) : Json → Option (Option α)
  | null => some none
  | value => (read value).map some

/-- The members of a record with the given member names: by name from an object, where other
members are ignored and a repeated name is refused, or by position from an array, whose last
members may be left out. -/
def members? (names : List String) : Json → Option (List (Option Json))
  | obj members =>
      if names.all fun name => (members.countP fun member => member.1 == name) ≤ 1 then
        some (names.map fun name => members.lookup name)
      else none
  | arr items =>
      if items.length ≤ names.length then
        some (items.map some ++ List.replicate (names.length - items.length) none)
      else none
  | _ => none

/-- A case of an inductive type: its name alone, or an object whose only member holds its data. -/
def case? : Json → Option (String × Option Json)
  | str name => some (name, none)
  | obj [(name, data)] => some (name, some data)
  | _ => none

/-- The only member of a case with data. -/
def tagged (name : String) (data : Json) : Json := obj [(name, data)]

def nat (n : Nat) : Json := int (Int.ofNat n)

/-- Reads a member that has to be there. -/
def required? {α : Type} (read : Json → Option α) (member : Option Json) : Option α :=
  member.bind read

/-- Reads a member that may be left out. -/
def default? {α : Type} (read : Json → Option α) (fallback : α) (member : Option Json) : Option α :=
  match member with
  | some value => read value
  | none => some fallback

/-- Reads a member that may be left out or null. -/
def optional? {α : Type} (read : Json → Option α) (member : Option Json) : Option (Option α) :=
  match member with
  | some value => value.nullable? read
  | none => some none

def u32? (value : Json) : Option Nat := value.natBelow? 4294967296

def u64? (value : Json) : Option Nat := value.natBelow? 18446744073709551616

def i64? (value : Json) : Option Int :=
  value.intWithin? (-9223372036854775808) 9223372036854775807

/-- A nullable value. -/
def ofOption {α : Type} (write : α → Json) : Option α → Json
  | some a => write a
  | none => null

/-- Reads a case without data from its name and from what data there is. -/
def bare? {α : Type} (a : α) : Option Json → Option α
  | none | some null => some a
  | some _ => none

end Json

end Lowering
