/-!
# Files

What a run needs of a file system, and a folder of plain files that has it.
-/

namespace Lowering

/-- Why a file cannot be opened. -/
inductive FileError where
  | missing
  | isFolder
  | other (reason : String)
deriving DecidableEq, Repr

def FileError.message : FileError → String
  | missing => "No such file or directory (os error 2)"
  | isFolder => "Is a directory (os error 21)"
  | other reason => reason

/-- Access to files by path. -/
structure Disk (m : Type → Type) where
  read : String → m (Except FileError String)
  /-- Makes an empty file, in place of one that may be there. -/
  create : String → m (Except FileError Unit)
  /-- Replaces the text of a created file. -/
  write : String → String → m Unit

/-- A folder that holds files and no folders. -/
structure Folder where
  files : List (String × String)
deriving DecidableEq, Repr

namespace Folder

/-- The steps of a path that lead away from where it is. -/
def steps (path : String) : List String :=
  (path.splitOn "/").filter fun step => step != "" && step != "."

/-- The name of the file that a path leads to. -/
def fileName (path : String) : Except FileError String :=
  match steps path with
  | [] => .error (if path = "" then .missing else .isFolder)
  | [".."] => .error .isFolder
  | [name] => .ok name
  | _ => .error .missing

def read (folder : Folder) (path : String) : Except FileError String := do
  let name ← fileName path
  match folder.files.lookup name with
  | some text => .ok text
  | none => .error .missing

/-- Puts a text under a name. -/
def put (folder : Folder) (name text : String) : Folder :=
  ⟨(name, text) :: folder.files.filter (·.1 != name)⟩

def write (folder : Folder) (path text : String) : Except FileError Folder :=
  (fileName path).map fun name => folder.put name text

/-- The files that are new or changed since an earlier state. -/
def changes (folder earlier : Folder) : List (String × String) :=
  folder.files.filter fun (name, text) => earlier.files.lookup name != some text

end Folder

/-- A folder as a disk. -/
def Folder.disk : Disk (StateM Folder) where
  read path := return (← get).read path
  create path := do
    match (← get).write path "" with
    | .ok folder => set folder; return .ok ()
    | .error error => return .error error
  write path text := do
    match (← get).write path text with
    | .ok folder => set folder
    | .error _ => return ()

end Lowering
