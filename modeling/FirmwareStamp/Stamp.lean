import FirmwareStamp.Identity
import FirmwareStamp.Workspace

/-!
# Stamping: writing build IDs into the files of a build

`stamp` computes the ID of an image and writes it into the image's own file and into every other
file of the build that exists.  The formats of those files are settled before anything is written,
and in each file the whole placeholder is read and its magic checked before its value bytes are
changed.
-/

namespace FirmwareStamp

/-- What became of a file. -/
inductive Outcome where
  /-- The ID was written, from this offset on or, in an Intel HEX file, from this address on. -/
  | stamped (place : Nat)
  /-- The file has no placeholder and was left alone. -/
  | leftAlone
  /-- There is no such file. -/
  | missing
deriving DecidableEq, Repr

/-! ## One file -/

namespace Target

/-- Writes the ID into the file the image was read from. -/
def stampImage (t : Target) (id : BuildId) : Session Outcome := do
  let path := t.image.path
  let offset ← Session.lift (t.image.fileOffset t.address)
  let store ← Session.store
  let found ← Session.lift ((store.readAt path offset placeholderLength).mapError (.io path))
  let _ ← Session.lift (t.descriptor.check path offset found)
  let place := offset + Magic.length
  Session.tell (.stamping .executable path id place)
  Session.commit path (store.writeAt path place id.bytes)
  return .stamped place

/-- Writes the ID into an executable, which has a section table of its own. -/
def stampExecutable (t : Target) (path : String) (id : BuildId) : Session Outcome := do
  let image ← Session.lift (Image.load (← Session.store) path)
  { t with image }.stampImage id

/-- Writes the ID into an Intel HEX file, whose records keep their layout. -/
def stampIntelHex (t : Target) (path : String) (id : BuildId) : Session Outcome := do
  let address ← Session.lift (t.hexAddress path)
  let store ← Session.store
  let listing ← Session.lift (store.listing path)
  let _ ← Session.lift
    (t.descriptor.check path address (listing.read address placeholderLength))
  let place := address + Magic.length
  if IntelHex.addressLimit ≤ place then throw .overflow
  Session.tell (.stamping .intelHex path id place)
  match listing.write? place id.bytes with
  | none => throw (.notMapped path place .hexRecord)
  | some stamped =>
    let text ← Session.lift (stamped.render.mapError (.hex path))
    Session.commit path (store.write path (Bytes.ofText text))
    return .stamped place

/-- Writes the ID into a raw binary, if it has a placeholder, and reads it back. -/
def stampRawBinary (t : Target) (path : String) (id : BuildId) : Session Outcome := do
  let store ← Session.store
  let b ← Session.lift (store.fetch path)
  match ← Session.lift (t.rawOffset? b) with
  | none =>
    Session.tell (.leftAlone path)
    return .leftAlone
  | some offset =>
    let place := offset + Magic.length
    Session.tell (.stamping .rawBinary path id place)
    Session.commit path (store.writeAt path place id.bytes)
    let written ← Session.lift ((← Session.store).fetch path)
    let found ← Session.lift
      (t.descriptor.check path offset (written.slice offset placeholderLength))
    if found ≠ id then throw (.idMismatch path place)
    return .stamped place

/-- Writes the ID into a file of a format. -/
def stamp (t : Target) (format : FileFormat) (path : String) (id : BuildId) : Session Outcome :=
  match format with
  | .executable => t.stampExecutable path id
  | .intelHex => t.stampIntelHex path id
  | .rawBinary => t.stampRawBinary path id

end Target

/-! ## All files of a build -/

/-- A path with its format, or with none if it leads nowhere. -/
def classify (s : Store) (path : String) : Except Error (String × Option FileFormat) :=
  if s.leadsTo path then return (path, some (← FileFormat.ofPath path)) else return (path, none)

namespace Target

/-- The target that the image at a path makes, and the ID of the image. -/
def load (s : Store) (path : String) (d : Descriptor) : Except Error (Target × BuildId) := do
  let image ← Image.load s path
  let address ← image.placeholder d
  let id ← image.buildId address
  return (⟨image, address, d⟩, id)

/-- Writes the ID into a file of the build, if there is one. -/
def stampFile (t : Target) (id : BuildId) :
    String × Option FileFormat → Session (String × Outcome)
  | (path, some format) => return (path, ← t.stamp format path id)
  | (path, none) => return (path, .missing)

end Target

/-- What stamping did. -/
structure Report where
  id : BuildId
  /-- Every file, the image first and then in the order given. -/
  outcomes : List (String × Outcome)
deriving DecidableEq

/-- Computes the ID of the image at a path and writes it there and into the other files of the
build. -/
def stamp (path : String) (siblings : List String) (d : Descriptor) : Session Report := do
  let store ← Session.store
  let (target, id) ← Session.lift (Target.load store path d)
  let files ← Session.lift (siblings.mapM (classify store))
  let first ← target.stampImage id
  let rest ← files.mapM (target.stampFile id)
  return ⟨id, (path, first) :: rest⟩

end FirmwareStamp
