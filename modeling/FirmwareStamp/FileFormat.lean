import FirmwareStamp.AddressMap
import FirmwareStamp.IntelHex.Listing
import FirmwareStamp.Placeholder

/-!
# The formats of a build, and reading IDs from them

A file is taken for what its extension says.  Each format finds the placeholder its own way: a
linked executable through its own section table, an Intel HEX file by load address, a raw binary by
distance from the base address, or wherever the only whole placeholder stands.
-/

namespace FirmwareStamp

inductive FileFormat where
  /-- An ELF file, stripped or renamed copies included. -/
  | executable
  | intelHex
  | rawBinary
deriving DecidableEq, Repr

namespace FileFormat

/-- The format that the extension of a path stands for. -/
def ofPath (path : String) : Except Error FileFormat :=
  match Path.extension? path with
  | some "elf" | some "strip" | some "exe" => .ok executable
  | some "hex" | some "ihex" => .ok intelHex
  | some "bin" => .ok rawBinary
  | _ => .error (.unsupportedFormat path)

end FileFormat

/-- What IDs are read and written by: the linked image of the build, the virtual address of its
placeholder, and the descriptor. -/
structure Target where
  image : Image
  address : Nat
  descriptor : Descriptor
deriving DecidableEq

namespace Target

/-! ## Where the placeholder is -/

/-- The address of the placeholder in an Intel HEX file. -/
def hexAddress (t : Target) (path : String) : Except Error Nat := do
  let address ← t.image.loadAddress t.address
  if address < IntelHex.addressLimit then return address
  else throw (.notMapped path address .hexAddressSpace)

/-- The offset of the placeholder in a raw binary: where its load address puts it, or else the only
place where a whole one stands. -/
def rawOffset? (t : Target) (b : Bytes) : Except Error (Option Nat) := do
  let address ← t.image.loadAddress t.address
  let base ← t.image.baseAddress
  if base ≤ address ∧ t.descriptor.magic.standsAt b (address - base) then
    return some (address - base)
  else match t.descriptor.magic.hits b with
    | [offset] => return some offset
    | _ => return none

end Target

/-! ## Reading -/

/-- The contents of a file. -/
def Store.fetch (s : Store) (path : String) : Except Error Bytes :=
  (s.read path).mapError (.io path)

/-- The Intel HEX file at a path. -/
def Store.listing (s : Store) (path : String) : Except Error IntelHex.Listing := do
  let text ← (s.readText path).mapError (.io path)
  (IntelHex.Listing.parse text).mapError (.hex path)

namespace Target

/-- Reads the ID in the file the image was read from, with the place of its first byte. -/
def readImage (t : Target) : Except Error (Nat × BuildId) := do
  let offset ← t.image.fileOffset t.address
  let id ← t.descriptor.check t.image.path offset
    (t.image.bytes.slice offset placeholderLength)
  return (offset + Magic.length, id)

/-- Reads the ID in an executable, which has a section table of its own. -/
def readExecutable (t : Target) (s : Store) (path : String) : Except Error (Nat × BuildId) := do
  let image ← Image.load s path
  { t with image }.readImage

/-- Reads the ID in an Intel HEX file, with the address of its first byte. -/
def readIntelHex (t : Target) (s : Store) (path : String) : Except Error (Nat × BuildId) := do
  let address ← t.hexAddress path
  let listing ← s.listing path
  let id ← t.descriptor.check path address (listing.read address placeholderLength)
  return (address + Magic.length, id)

/-- Reads the ID in a raw binary, with the place of its first byte.  If there is no placeholder the
error is about the place where its load address would put it. -/
def readRawBinary (t : Target) (s : Store) (path : String) : Except Error (Nat × BuildId) := do
  let b ← s.fetch path
  match ← t.rawOffset? b with
  | some offset =>
    let id ← t.descriptor.check path offset (b.slice offset placeholderLength)
    return (offset + Magic.length, id)
  | none =>
    let offset := (← t.image.loadAddress t.address) - (← t.image.baseAddress)
    throw (.headerMismatch path offset t.descriptor.magic.bytes (b.slice offset Magic.length))

/-- Reads the ID in a file of a format, with the place of its first byte. -/
def read (t : Target) (format : FileFormat) (s : Store) (path : String) :
    Except Error (Nat × BuildId) :=
  match format with
  | .executable => t.readExecutable s path
  | .intelHex => t.readIntelHex s path
  | .rawBinary => t.readRawBinary s path

/-- Reads the ID in a file of the format its extension says. -/
def readId (t : Target) (s : Store) (path : String) : Except Error BuildId := do
  let format ← FileFormat.ofPath path
  return (← t.read format s path).2

/-- Checks that a file carries an ID. -/
def checkId (t : Target) (s : Store) (path : String) (id : BuildId) : Except Error Unit := do
  let format ← FileFormat.ofPath path
  let (place, found) ← t.read format s path
  if found ≠ id then throw (.idMismatch path place)

end Target

end FirmwareStamp
