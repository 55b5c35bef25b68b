import FirmwareStamp.Elf.Reader

/-!
# The file header

The first 16 bytes say that this is an ELF file and how the rest is stored.  Of the fields after
them only the places of the two header tables and their counts matter here; record lengths are
those of the encoding, whatever the header says they are.
-/

namespace FirmwareStamp

namespace Elf

structure Header where
  encoding : Encoding
  programHeaderOffset : UInt64
  programHeaderCount : UInt16
  sectionHeaderOffset : UInt64
  sectionHeaderCount : UInt16
  /-- The index of the section with the section names. -/
  sectionNameIndex : UInt16
deriving DecidableEq, Repr

namespace Header

/-- Bytes in the identification. -/
def identLength : Nat := 16

/-- The encoding that the identification names. -/
def encoding? (b : Bytes) : Except Fault Encoding := do
  if b = [] then throw (.badOffset 0)
  if b.length < identLength then throw .tooSmall
  if b.take 4 ≠ [0x7f, 0x45, 0x4c, 0x46] then throw (.badMagic (Bytes.ofLittle (b.take 8)))
  let width ← match b.getD 4 0 with
    | 1 => pure .bits32
    | 2 => pure .bits64
    | byte => throw (.badClass byte)
  let order ← match b.getD 5 0 with
    | 1 => pure .little
    | 2 => pure .big
    | byte => throw (.badByteOrder byte)
  return ⟨width, order⟩

/-- Reads the header of a file with this encoding. -/
def reader (e : Encoding) : Reader Header := do
  let _ident ← Reader.take identLength
  let _type ← Reader.half e
  let _machine ← Reader.half e
  let _version ← Reader.long e
  let _entry ← Reader.word e
  let programHeaderOffset ← Reader.word e
  let sectionHeaderOffset ← Reader.word e
  let _flags ← Reader.long e
  let _headerLength ← Reader.half e
  let _programHeaderLength ← Reader.half e
  let programHeaderCount ← Reader.half e
  let _sectionHeaderLength ← Reader.half e
  let sectionHeaderCount ← Reader.half e
  let sectionNameIndex ← Reader.half e
  return { encoding := e, programHeaderOffset, programHeaderCount, sectionHeaderOffset,
           sectionHeaderCount, sectionNameIndex }

/-- The header of a file. -/
def parse (b : Bytes) : Except Fault Header := do
  let e ← encoding? b
  (reader e).runAt b 0

end Header

end Elf

end FirmwareStamp
