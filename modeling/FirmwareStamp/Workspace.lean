import FirmwareStamp.FileFormat

/-!
# Working on files

A `Session` works on a store and leaves notices of what it does.  When it fails, the store and the
notices stay as they are at that moment: what was written is not taken back.
-/

namespace FirmwareStamp

/-- Something the user is told on the way. -/
inductive Notice where
  /-- The ID is about to be written into a file, from this place on. -/
  | stamping (format : FileFormat) (path : String) (id : BuildId) (place : Nat)
  /-- A raw binary has no placeholder and is left alone. -/
  | leftAlone (path : String)
  /-- A raw binary has no placeholder and passes. -/
  | notChecked (path : String)
deriving DecidableEq

namespace Notice

/-- A notice as a line of a log. -/
def line : Notice → String
  | stamping format path id place =>
    let (name, unit) := match format with
      | .executable => ("ELF", "offset")
      | .intelHex => ("HEX", "address")
      | .rawBinary => ("BIN", "offset")
    "INFO patching build ID " ++ id.hex ++ " into " ++ name ++ " file " ++ path ++ " at " ++
      unit ++ " " ++ Hexadecimal.address place
  | leftAlone path =>
    "WARN build ID header not found in " ++ path ++
      "; it may not include the section holding the build ID. Skipping it."
  | notChecked path => "WARN " ++ path ++ ": no build ID placeholder, not checked"

end Notice

/-- The files, and the notices so far. -/
structure Workspace where
  store : Store
  notices : List Notice
deriving DecidableEq

/-- Work on files that can fail. -/
abbrev Session := EStateM Error Workspace

namespace Session

/-- The store as it is. -/
def store : Session Store :=
  return (← get).store

/-- The result of a computation that changes nothing. -/
def lift {α : Type} : Except Error α → Session α
  | .ok a => return a
  | .error e => throw e

/-- Leaves a notice. -/
def tell (notice : Notice) : Session Unit :=
  modify fun w => { w with notices := w.notices ++ [notice] }

/-- Goes on with a new store, unless writing to a file failed. -/
def commit (path : String) : Except Store.Fault Store → Session Unit
  | .ok s => modify fun w => { w with store := s }
  | .error fault => throw (.io path fault)

end Session

end FirmwareStamp
