import FirmwareStamp.Elf.SectionHeader

/-!
# String tables

A string table is a run of strings, each closed by a zero byte.  Every string from one zero to the
next must be text; a name is then what stands between its index and the next zero, and an index
past the end or inside a character names nothing.
-/

namespace FirmwareStamp

namespace Elf

/-- The bytes of a table whose strings are text. -/
structure StringTable where
  bytes : Bytes
deriving DecidableEq, Repr

namespace StringTable

def empty : StringTable := ⟨[]⟩

/-- Checks that every string is text.  `fresh` says whether a string starts here. -/
def checkText (fresh : Bool) : Bytes → Except Fault Unit
  | [] => .ok ()
  | byte :: rest =>
    if fresh ∧ Bytes.text? ((byte :: rest).takeWhile (· ≠ 0)) = none then
      .error (.notText (byte :: rest).length)
    else checkText (byte = 0) rest

/-- The table of `length` bytes at `offset`. -/
def ofRange (b : Bytes) (offset length : Nat) : Except Fault StringTable := do
  if wordLimit ≤ offset + length ∨ b.length < offset + length then
    throw (.stringTableRange offset length b.length)
  let bytes := b.slice offset length
  checkText true bytes
  return ⟨bytes⟩

/-- The table a section holds. -/
def ofSection (b : Bytes) (h : SectionHeader) : Except Fault StringTable :=
  ofRange b h.offset.toNat h.size.toNat

/-- The table a section holds, if that section is in the file. -/
def ofCheckedSection (b : Bytes) (h : SectionHeader) : Except Fault StringTable := do
  h.checkRange b.length
  ofSection b h

/-- The name at an index; empty if there is none. -/
def name (t : StringTable) (index : Nat) : String :=
  (Bytes.text? ((t.bytes.drop index).takeWhile (· ≠ 0))).getD ""

end StringTable

end Elf

end FirmwareStamp
