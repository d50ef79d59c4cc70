/-!
# Command lines

An invocation is what a command line asks for.  Arguments are read from left to right: the first
mistake counts, and of two flags of a kind the last.
-/

namespace Lowering

/-- The representation that a module is in, and so the passes that run. -/
inductive Stage where
  /-- Slots are promoted to values. -/
  | ssa
  /-- Registers are allocated. -/
  | machine
deriving DecidableEq, Repr

def Stage.name : Stage → String
  | ssa => "ir"
  | machine => "asm"

def Stage.ofName? : String → Option Stage
  | "ir" => some .ssa
  | "asm" => some .machine
  | _ => none

structure Invocation where
  verbose : Bool
  stage : Stage
  /-- Where the result is written to; standard output if unset. -/
  output : Option String
  settings : Option String
  input : String
deriving DecidableEq, Repr

namespace Invocation

/-- A mistake in a command line. -/
inductive Mistake where
  | missingValue (flag : String)
  | unknownStage (name : String)
  | unknownFlag (flag : String)
  | secondInput (first second : String)
  | missingInput
deriving DecidableEq, Repr

def usage : String :=
  "usage: rvlower [-v] [--stage ir|asm] [--emit <file>] [--config <file.toml>] <module.json>"

namespace Mistake

def cause : Mistake → String
  | missingValue flag => flag ++ " expects a value"
  | unknownStage name => "unknown stage `" ++ name ++ "`"
  | unknownFlag flag => "unknown flag `" ++ flag ++ "`"
  | secondInput first second => "more than one input file: " ++ first ++ " and " ++ second
  | missingInput => "expected an input file"

def message (mistake : Mistake) : String := mistake.cause ++ "\n" ++ usage

end Mistake

/-- What has been read of a command line. -/
structure Draft where
  verbose : Bool := false
  stage : Stage := .ssa
  output : Option String := none
  settings : Option String := none
  input : Option String := none
deriving DecidableEq, Repr

namespace Draft

/-- The invocation of a command line that has been read to its end. -/
def finish (draft : Draft) : Except Mistake Invocation :=
  match draft.input with
  | some input => .ok { draft with input }
  | none => .error .missingInput

def setStage (draft : Draft) (name : String) : Except Mistake Draft :=
  match Stage.ofName? name with
  | some stage => .ok { draft with stage }
  | none => .error (.unknownStage name)

/-- Takes an argument that is no known flag. -/
def setInput (draft : Draft) (argument : String) : Except Mistake Draft :=
  if argument.toList.head? = some '-' then .error (.unknownFlag argument)
  else
    match draft.input with
    | some first => .error (.secondInput first argument)
    | none => .ok { draft with input := some argument }

/-- Reads the arguments that are left. -/
def read (draft : Draft) : List String → Except Mistake Draft
  | [] => .ok draft
  | "-v" :: rest | "--verbose" :: rest => { draft with verbose := true }.read rest
  | "--stage" :: name :: rest => do (← draft.setStage name).read rest
  | "--emit" :: path :: rest => { draft with output := some path }.read rest
  | "--config" :: path :: rest => { draft with settings := some path }.read rest
  | ["--stage"] => .error (.missingValue "--stage")
  | ["--emit"] => .error (.missingValue "--emit")
  | ["--config"] => .error (.missingValue "--config")
  | argument :: rest => do (← draft.setInput argument).read rest

end Draft

def parse (arguments : List String) : Except Mistake Invocation := do
  (← Draft.read {} arguments).finish

end Invocation

end Lowering
