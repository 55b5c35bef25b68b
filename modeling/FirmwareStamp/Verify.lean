import FirmwareStamp.Stamp

/-!
# Verifying the files of a build

`verify` computes the ID of an image once more and checks that the image's own file and every other
file of the build that exists carry it.  A raw binary without a placeholder passes, as stamping
leaves it alone.
-/

namespace FirmwareStamp

namespace Target

/-- Checks that a file of the build carries an ID, if there is one. -/
def verifyFile (t : Target) (id : BuildId) : String × Option FileFormat → Session Unit
  | (_, none) => return
  | (path, some format) => do
    match format, t.checkId (← Session.store) path id with
    | .rawBinary, .error (.headerMismatch ..) => Session.tell (.notChecked path)
    | _, result => Session.lift result

end Target

/-- Checks that the image at a path and the other files of its build carry its ID, and returns
it. -/
def verify (path : String) (siblings : List String) (d : Descriptor) : Session BuildId := do
  let store ← Session.store
  let (target, id) ← Session.lift (Target.load store path d)
  let (place, found) ← Session.lift (target.readExecutable store path)
  if found ≠ id then throw (.idMismatch path place)
  let files ← Session.lift (siblings.mapM (classify store))
  files.forM (target.verifyFile id)
  return id

end FirmwareStamp
