import FirmwareStamp.Elf.Header

/-!
# Section headers

Sections divide a file by content.  The table is read whole before anything in it is used; a range
that leaves the file is a fault only where a section's contents are needed.
-/

namespace FirmwareStamp

namespace Elf

structure SectionHeader where
  /-- Where the name stands among the section names. -/
  name : UInt32
  type : UInt32
  flags : UInt64
  address : UInt64
  offset : UInt64
  size : UInt64
  /-- The index of a section this one refers to. -/
  link : UInt32
  entrySize : UInt64
deriving DecidableEq, Repr

namespace SectionHeader

def symbolsType : UInt32 := 2
def addendRelocationsType : UInt32 := 4
def noBitsType : UInt32 := 8
def relocationsType : UInt32 := 9
def dynamicSymbolsType : UInt32 := 11
def versionDefinitionsType : UInt32 := 0x6ffffffd
def versionNeedsType : UInt32 := 0x6ffffffe
def symbolVersionsType : UInt32 := 0x6fffffff

def allocFlag : UInt64 := 2

/-- Whether the section occupies memory. -/
def isAlloc (h : SectionHeader) : Bool :=
  h.flags &&& allocFlag ≠ 0

/-- Whether the section occupies nothing in the file. -/
def isNoBits (h : SectionHeader) : Bool :=
  h.type = noBitsType

/-- Bytes in a section header. -/
def length : Width → Nat
  | .bits32 => 40
  | .bits64 => 64

/-- Reads a section header. -/
def reader (e : Encoding) : Reader SectionHeader := do
  let name ← Reader.long e
  let type ← Reader.long e
  let flags ← Reader.word e
  let address ← Reader.word e
  let offset ← Reader.word e
  let size ← Reader.word e
  let link ← Reader.long e
  let _info ← Reader.long e
  let _alignment ← Reader.word e
  let entrySize ← Reader.word e
  return { name, type, flags, address, offset, size, link, entrySize }

/-- The section headers of a file, in table order; none if the file header has no place for them.
A count of zero there stands for the size of the first section, which is read in any case. -/
def table (b : Bytes) (h : Header) : Except Fault (List SectionHeader) := do
  if h.sectionHeaderOffset = 0 then return []
  let place i := h.sectionHeaderOffset.toNat + i * length h.encoding.width
  let first ← (reader h.encoding).runAt b (place 0)
  let count :=
    if h.sectionHeaderCount = 0 then first.size.toNat else h.sectionHeaderCount.toNat
  if b.length / length h.encoding.width < count then throw (.sectionHeaders count)
  let rest ← (List.range (count - 1)).mapM fun i => (reader h.encoding).runAt b (place (i + 1))
  return first :: rest

/-- Checks that the section lies in a file of `available` bytes and in the address space. -/
def checkRange (h : SectionHeader) (available : Nat) : Except Fault Unit := do
  if h.isNoBits then return
  let stop := h.offset.toNat + h.size.toNat
  if wordLimit ≤ stop ∨ available < stop then
    throw (.sectionRange h.name.toNat h.offset.toNat h.size.toNat)
  if wordLimit ≤ h.address.toNat + h.size.toNat then
    throw (.sectionAddress h.name.toNat h.address.toNat h.size.toNat)

end SectionHeader

end Elf

end FirmwareStamp
