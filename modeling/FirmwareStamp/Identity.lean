import FirmwareStamp.Image

/-!
# The build ID of an image

The ID is the hash of the allocated sections in table order: the start address of each, then its
contents, without the 20 value bytes in the section that holds the placeholder.  `hashInput` is
that sequence of bytes; `buildId` hashes it without holding it:

    image.hashSection p h s = h.update <$> image.hashPart p s     (hashSection_eq)

Patching the value bytes, stripping sections that occupy no memory and moving sections about in the
file leave the ID as it is.
-/

namespace FirmwareStamp

/-- Where in a section the value bytes of the placeholder stand, if the section holds it: from the
first offset up to the second. -/
def Section.valueWindow? (s : Section) (placeholder : Nat) :
    Except Error (Option (Nat × Nat)) :=
  if s.contains placeholder then do
    let start ← checkWord (placeholder - s.address.toNat + Magic.length)
    let stop ← checkWord (start + BuildId.length)
    return some (start, stop)
  else return none

namespace Image

/-! ## What is hashed -/

/-- The address of a section as it is hashed. -/
def hashAddress (s : Section) : Bytes :=
  Bytes.little 8 s.address.toNat

/-- Bytes without those of a window. -/
def without (b : Bytes) : Option (Nat × Nat) → Bytes
  | none => b
  | some (start, stop) => b.take start ++ b.drop stop

/-- The bytes of a section as the device sees them, however many there are. -/
def loaded (image : Image) (s : Section) : Bytes :=
  if s.isNoBits then List.replicate s.size.toNat 0 else image.stored s

/-- The part of a section in the hash. -/
def hashPart (image : Image) (placeholder : Nat) (s : Section) : Except Error Bytes := do
  let window ← s.valueWindow? placeholder
  return hashAddress s ++ without (image.loaded s) window

/-- The sections in the hash. -/
def allocated (image : Image) : List Section :=
  image.sections.filter (·.isAlloc)

/-- All that is hashed, in order. -/
def hashInput (image : Image) (placeholder : Nat) : Except Error Bytes :=
  return (← image.allocated.mapM (image.hashPart placeholder)).flatten

/-! ## Hashing -/

/-- Feeds a section to a hash.  Zeros that the file does not hold are counted, not made. -/
def hashSection (image : Image) (placeholder : Nat) (h : Sha1.Hasher) (s : Section) :
    Except Error Sha1.Hasher := do
  let window ← s.valueWindow? placeholder
  let h := h.update (hashAddress s)
  if s.isNoBits then
    match window with
    | some (start, stop) =>
      return (h.updateZeros (min start s.size.toNat)).updateZeros (s.size.toNat - stop)
    | none => return h.updateZeros s.size.toNat
  else
    let stored := image.stored s
    match window with
    | some (start, stop) => return (h.update (stored.take start)).update (stored.drop stop)
    | none => return h.update stored

/-- The build ID of an image with its placeholder at a virtual address. -/
def buildId (image : Image) (placeholder : Nat) : Except Error BuildId :=
  return .ofHasher (← image.allocated.foldlM (image.hashSection placeholder) .start)

/-! ## Lemmas -/

/-- Feeding a section feeds its part of the hash input. -/
theorem hashSection_eq (image : Image) (placeholder : Nat) (h : Sha1.Hasher) (s : Section) :
    image.hashSection placeholder h s = h.update <$> image.hashPart placeholder s := by
  simp only [hashSection, hashPart, loaded]
  cases s.valueWindow? placeholder with
  | error e => rfl
  | ok window =>
    simp only [bind, Except.bind, pure, Except.pure, Functor.map, Except.map]
    cases window with
    | none =>
      cases s.isNoBits <;> simp [without, Sha1.Hasher.update_append, Sha1.Hasher.updateZeros_eq]
    | some w =>
      cases s.isNoBits with
      | false => simp [without, Sha1.Hasher.update_append]
      | true =>
        simp only [if_true, without, List.take_replicate, List.drop_replicate,
          Sha1.Hasher.updateZeros_eq, Sha1.Hasher.update_append]

end Image

end FirmwareStamp
