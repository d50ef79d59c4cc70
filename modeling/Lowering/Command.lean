import Lowering.Emission
import Lowering.Folder
import Lowering.Invocation
import Lowering.Json.Machine
import Lowering.Json.Reader
import Lowering.Json.Ssa
import Lowering.Pipeline

/-!
# The command

A run reads the command line, the settings, and the module, opens the output, decodes the module,
lowers it, and writes the result.  It works over any disk, so it can be followed on a folder as well
as carried out.
-/

namespace Lowering

/-- Why a run cannot reach its result. -/
inductive Failure where
  | settingsUnreadable (path : String) (error : FileError)
  | settingsRefused (path : String) (refusal : Settings.Refusal)
  | inputUnreadable (path : String) (error : FileError)
  | outputRefused (path : String) (error : FileError)
  | notModule (stage : Stage) (path : String)
  | objection (message : String)
deriving DecidableEq, Repr

/-- The line on a failure.  Where the text does not decode the line is left open. -/
def Failure.message : Failure → String
  | settingsUnreadable path error =>
      "error: cannot read pass configuration " ++ path ++ ": " ++ error.message ++ "\n"
  | settingsRefused path .malformed =>
      "error: in " ++ path ++ ": " ++ Settings.Refusal.malformed.message
  | settingsRefused path refusal => "error: in " ++ path ++ ": " ++ refusal.message ++ "\n"
  | inputUnreadable path error => "error: cannot read " ++ path ++ ": " ++ error.message ++ "\n"
  | outputRefused path error => "error: cannot create " ++ path ++ ": " ++ error.message ++ "\n"
  | notModule .ssa path => "error: " ++ path ++ " is not an SSA-stage module: "
  | notModule .machine path => "error: " ++ path ++ " is not a machine-stage module: "
  | objection message => "error: " ++ message ++ "\n"

/-- How a run ends. -/
inductive Ending where
  | success
  | misused (mistake : Invocation.Mistake)
  | failed (failure : Failure)
  | faulted (fault : Fault)
deriving DecidableEq, Repr

namespace Ending

def exitCode : Ending → Nat
  | success => 0
  | failed _ => 1
  | misused _ => 2
  | faulted _ => 101

/-- What is said about a run that did not succeed. -/
def message : Ending → String
  | success => ""
  | failed failure => failure.message
  | misused mistake => mistake.message ++ "\n"
  | faulted fault => fault.message

end Ending

/-- What a run shows. -/
structure Outcome where
  output : String
  ending : Ending
deriving DecidableEq, Repr

namespace Command

/-- The functions of a module text. -/
def module? {α : Type} (func? : Json → Option α) (text : String) : Option (List α) :=
  (Json.parse? text).bind (Json.list? func?)

/-- Notes how long a stage took.  Times are not measured, so their place is only marked. -/
def noteTime (passes : String) : Pass Unit := Pass.note .program (passes ++ ": _ us")

/-- Decodes, lowers and prints an SSA module. -/
def lowerSsa (settings : Settings) (path text : String) : ExceptT Failure Pass String := do
  match module? Ssa.Func.ofJson? text with
  | none => throw (.notModule .ssa path)
  | some funcs =>
      let lowered ← (settings.lowerSsa funcs).adapt fun objection =>
        Failure.objection objection.message
      noteTime "SSA passes"
      return Ssa.moduleText lowered

/-- Decodes, lowers and prints a machine module. -/
def lowerMachine (settings : Settings) (path text : String) : ExceptT Failure Pass String := do
  match module? Machine.Func.ofJson? text with
  | none => throw (.notModule .machine path)
  | some funcs =>
      let lowered ← (settings.lowerMachine funcs).adapt fun objection =>
        Failure.objection objection.message
      noteTime "Register allocation"
      ExceptT.lift (Pass.lift (Machine.moduleText path lowered))

def lower (settings : Settings) (stage : Stage) (path text : String) :
    ExceptT Failure Pass String :=
  match stage with
  | .ssa => lowerSsa settings path text
  | .machine => lowerMachine settings path text

section

variable {m : Type → Type} [Monad m] (disk : Disk m) (invocation : Invocation)

/-- The settings that a run works under. -/
def loadSettings : m (Except Failure Settings) := do
  match invocation.settings with
  | none => return .ok {}
  | some path =>
      match ← disk.read path with
      | .error error => return .error (.settingsUnreadable path error)
      | .ok text =>
          match Settings.parse text with
          | .error refusal => return .error (.settingsRefused path refusal)
          | .ok settings => return .ok settings

/-- Reads the input and makes the output file. -/
def openFiles : m (Except Failure String) := do
  match ← disk.read invocation.input with
  | .error error => return .error (.inputUnreadable invocation.input error)
  | .ok text =>
      match invocation.output with
      | none => return .ok text
      | some path =>
          match ← disk.create path with
          | .error error => return .error (.outputRefused path error)
          | .ok () => return .ok text

/-- The lines of notes, which are only shown if asked for. -/
def noteLines (notes : List Note) : String :=
  if invocation.verbose then String.join (notes.map Note.line) else ""

/-- Writes a result to the output file, or leaves it to be shown. -/
def deliver (text : String) : m String := do
  match invocation.output with
  | none => return text
  | some path =>
      disk.write path text
      return ""

/-- Carries out an invocation. -/
def perform : m Outcome := do
  match ← loadSettings disk invocation with
  | .error failure => return ⟨"", .failed failure⟩
  | .ok settings =>
      let start : Note := ⟨.program, settings.text⟩
      match ← openFiles disk invocation with
      | .error failure => return ⟨noteLines invocation [start], .failed failure⟩
      | .ok text =>
          let pass := (lower settings invocation.stage invocation.input text).run
          let notes := noteLines invocation (start :: pass.notes)
          match pass.result with
          | .error fault => return ⟨notes, .faulted fault⟩
          | .ok (.error failure) => return ⟨notes, .failed failure⟩
          | .ok (.ok result) => return ⟨notes ++ (← deliver disk invocation result), .success⟩

/-- Runs a command line. -/
def run (arguments : List String) : m Outcome :=
  match Invocation.parse arguments with
  | .error mistake => return ⟨"", .misused mistake⟩
  | .ok invocation => perform disk invocation

end

end Command

end Lowering
