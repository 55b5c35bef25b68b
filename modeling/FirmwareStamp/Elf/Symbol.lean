import FirmwareStamp.Elf.StringTable

/-!
# Symbols

A symbol gives a name to an address.  Entries stand one after the other; how many there are is the
section's size divided by the entry length it declares, but entries are read at the encoding's own
length.
-/

namespace FirmwareStamp

namespace Elf

structure Symbol where
  name : String
  value : UInt64
  size : UInt64
deriving DecidableEq, Repr

namespace Symbol

/-- Bytes in an entry. -/
def length : Width → Nat
  | .bits32 => 16
  | .bits64 => 24

/-- Reads an entry, whose name is in `names`. -/
def reader (e : Encoding) (names : StringTable) : Reader Symbol := do
  match e.width with
  | .bits32 =>
    let name ← Reader.long e
    let value ← Reader.word e
    let size ← Reader.word e
    return { name := names.name name.toNat, value, size }
  | .bits64 =>
    let name ← Reader.long e
    let _kindAndSection ← Reader.take 4
    let value ← Reader.word e
    let size ← Reader.word e
    return { name := names.name name.toNat, value, size }

/-- How many entries a section declares. -/
def count (h : SectionHeader) : Nat :=
  h.size.toNat / h.entrySize.toNat

/-- The bytes of all entries of a section. -/
def entries (b : Bytes) (e : Encoding) (h : SectionHeader) : Except Fault Bytes := do
  let size := count h * length e.width
  if wordLimit ≤ size then throw (.symbolCount h.offset.toNat (count h))
  window b h.offset.toNat size

/-- The symbols of a section, with the names of the section it links to. -/
def ofSection (b : Bytes) (e : Encoding) (sections : List SectionHeader) (h : SectionHeader) :
    Except Fault (List Symbol) := do
  let entries ← entries b e h
  let names ← match sections[h.link.toNat]? with
    | some linked => StringTable.ofSection b linked
    | none => pure .empty
  (List.range (count h)).mapM fun i => (reader e names).runAt entries (i * length e.width)

/-- The symbols of the first section of a type; none if there is no such section. -/
def table? (b : Bytes) (e : Encoding) (sections : List SectionHeader) (type : UInt32) :
    Except Fault (Option (List Symbol)) :=
  match sections.find? (·.type = type) with
  | some h => some <$> ofSection b e sections h
  | none => .ok none

end Symbol

end Elf

end FirmwareStamp
