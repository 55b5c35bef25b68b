import FirmwareStamp.Sha1
import FirmwareStamp.Text.Hexadecimal

/-!
# Build IDs

A build ID is the SHA-1 digest of what an image loads onto the device: 20 bytes, written as 40
lowercase digits.  A file that was never stamped holds 20 zero bytes in its place.
-/

namespace FirmwareStamp

/-- Twenty bytes that identify what an image loads. -/
structure BuildId where
  bytes : Bytes
  length_eq : bytes.length = 20
deriving DecidableEq

namespace BuildId

/-- Bytes in a build ID. -/
def length : Nat := 20

/-- The ID with these bytes, if there are as many as an ID has. -/
def ofBytes? (b : Bytes) : Option BuildId :=
  if h : b.length = length then some ⟨b, h⟩ else none

/-- The ID of everything a hash was fed. -/
def ofHasher (h : Sha1.Hasher) : BuildId :=
  ⟨h.digest, h.length_digest⟩

/-- Whether this is what the linker leaves in the value bytes. -/
def isBlank (id : BuildId) : Bool :=
  id.bytes.all (· == 0)

/-- The ID as text. -/
def hex (id : BuildId) : String :=
  Hexadecimal.ofBytes id.bytes

/-- The ID as text, with the name of its type. -/
def labelled (id : BuildId) : String :=
  "BuildId(" ++ id.hex ++ ")"

/-! ## Lemmas -/

theorem ofBytes?_bytes (id : BuildId) : ofBytes? id.bytes = some id := by
  simp [ofBytes?, length, id.length_eq]

theorem ofBytes?_eq_some_iff {b : Bytes} {id : BuildId} : ofBytes? b = some id ↔ b = id.bytes := by
  constructor
  · intro h
    simp only [ofBytes?] at h
    split at h
    · injection h with h
      rw [← h]
    · contradiction
  · rintro rfl
    exact ofBytes?_bytes id

theorem ofBytes?_eq_none_iff {b : Bytes} : ofBytes? b = none ↔ b.length ≠ length := by
  simp [ofBytes?]

end BuildId

end FirmwareStamp
