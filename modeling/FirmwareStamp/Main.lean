import FirmwareStamp.CommandLine

/-!
# The program

Loads the files that a command names, carries the command out on them, and writes back the files
that it changed.
-/

namespace FirmwareStamp

/-- The paths on the way along a path, itself included. -/
def Path.stages (path : String) : List String :=
  let names := Path.names path
  ((List.range names.length).map fun i => "/".intercalate (names.take (i + 1))).filter (· ≠ "")

/-- The paths a command works on. -/
def CommandLine.Command.paths : CommandLine.Command → List String
  | .patch _ elf siblings => elf :: siblings
  | .read _ elf file => [elf, file]
  | .verify _ elf siblings => elf :: siblings

/-- Adds what stands at a path of the file system. -/
def Store.load (s : Store) (path : String) : IO Store := do
  match ← (IO.FS.readBinFile path).toBaseIO with
  | .ok contents => return s.addFile path contents.data.toList
  | .error (.inappropriateType ..) => return s.addDirectory path
  | .error _ => return s

/-- Writes the files in which two stores differ. -/
def Store.save (old new : Store) : IO Unit := do
  for (loc, contents) in new.files do
    if old.node? loc ≠ some (.file contents) then
      IO.FS.writeBinFile loc.path contents.toByteArray

end FirmwareStamp

open FirmwareStamp in
def main (arguments : List String) : IO UInt32 := do
  let paths := (CommandLine.parse arguments).elim [] (·.paths)
  let mut store := Store.empty
  for path in paths.flatMap Path.stages do
    store ← store.load path
  let (exit, w) := CommandLine.run arguments ⟨store, []⟩
  store.save w.store
  for notice in w.notices do
    IO.eprintln notice.line
  IO.print exit.output
  match exit with
  | .failed message causes => IO.eprint (CommandLine.Exit.errorText message causes)
  | .usage => IO.eprintln "usage: patch | read | verify [--symbol S] [--magic M] ..."
  | _ => pure ()
  return UInt32.ofNat exit.code
