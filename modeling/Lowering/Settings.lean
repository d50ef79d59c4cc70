import Lowering.Register
import Lowering.Settings.Document

/-!
# Settings

What the passes may do.  Every setting may be left out of a settings file; one that is there has to
be known, well typed, and there only once.
-/

namespace Lowering

structure Settings where
  /-- Are stack slots promoted? -/
  promote : Bool := true
  /-- Are copies merged? -/
  coalesce : Bool := true
  /-- Is the result of every pass checked? -/
  verify : Bool := false
  /-- How many registers of the pool are handed to the allocator; all of them if unset. -/
  registers : Option Nat := none
  /-- How many rounds an allocation may take. -/
  maxRounds : Nat := 256
deriving DecidableEq, Repr

namespace Settings

/-- Why a settings file is refused. -/
inductive Refusal where
  | malformed
  | registersOutside (registers : Nat)
  | noRounds
deriving DecidableEq, Repr

def Refusal.message : Refusal → String
  | malformed => "TOML parse error"
  | registersOutside registers =>
      s!"registers = {registers} is outside 2..={PhysReg.pool.length}"
  | noRounds => "max_rounds must be positive"

/-- A count is not negative. -/
def count? (n : Int) : Option Nat :=
  match n with
  | .ofNat n => some n
  | .negSucc _ => none

/-- Takes over one setting. -/
def set? (settings : Settings) (key : String) (value : Value) : Option Settings :=
  match key, value with
  | "mem2reg", .bool promote => some { settings with promote }
  | "coalesce", .bool coalesce => some { settings with coalesce }
  | "verify", .bool verify => some { settings with verify }
  | "registers", .int n => (count? n).map fun n => { settings with registers := some n }
  | "max_rounds", .int n => (count? n).map fun maxRounds => { settings with maxRounds }
  | _, _ => none

/-- The settings of a document, the others being left as they are by default. -/
def ofDocument? (document : List (String × Value)) : Option Settings :=
  if (document.map Prod.fst).Nodup then
    document.foldlM (fun settings (key, value) => settings.set? key value) {}
  else none

/-- Two operands need two registers, and an allocation takes a round. -/
def validate (settings : Settings) : Except Refusal Settings :=
  match settings.registers.filter fun n => n < 2 || PhysReg.pool.length < n with
  | some n => .error (.registersOutside n)
  | none => if settings.maxRounds = 0 then .error .noRounds else .ok settings

def parse (text : String) : Except Refusal Settings :=
  match (Document.parse? text).bind ofDocument? with
  | some settings => settings.validate
  | none => .error .malformed

def registersText (settings : Settings) : String :=
  match settings.registers with
  | some n => s!"Some({n})"
  | none => "None"

/-- The settings as a note shows them. -/
def text (settings : Settings) : String :=
  "PassConfig \x7b " ++
    s!"mem2reg: {settings.promote}, coalesce: {settings.coalesce}, verify: {settings.verify}, " ++
    s!"registers: {settings.registersText}, max_rounds: {settings.maxRounds}" ++ " \x7d"

end Settings

end Lowering
