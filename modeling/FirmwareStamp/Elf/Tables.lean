import FirmwareStamp.Elf.Dynamic
import FirmwareStamp.Elf.Symbol

/-!
# The tables of an ELF file

`Tables.parse` reads all that describes a file and refuses the file if any table it would have to
follow leads out of it: section names, symbols with their names, the dynamic table, relocations and
symbol versions, in this order.  The first static and the first dynamic symbol section are the
symbol tables of the file.
-/

namespace FirmwareStamp

namespace Elf

structure Tables where
  segments : List Segment
  sections : List SectionHeader
  sectionNames : StringTable
  staticSymbols : Option (List Symbol)
  dynamicSymbols : Option (List Symbol)
deriving DecidableEq, Repr

namespace Tables

/-- The names of the sections; none if the file header names no section for them. -/
def readSectionNames (b : Bytes) (h : Header) (sections : List SectionHeader) :
    Except Fault StringTable :=
  match sections[h.sectionNameIndex.toNat]? with
  | some names => StringTable.ofCheckedSection b names
  | none => .ok .empty

/-- Checks the entries and names of a section, if it holds static symbols. -/
def checkSymbols (b : Bytes) (e : Encoding) (sections : List SectionHeader) (h : SectionHeader) :
    Except Fault Unit := do
  if h.type = SectionHeader.symbolsType then
    let _ ← Symbol.entries b e h
    match sections[h.link.toNat]? with
    | some linked =>
      let _ ← StringTable.ofCheckedSection b linked
    | none => return

/-- Checks a section, if it holds relocations. -/
def checkRelocations (b : Bytes) (h : SectionHeader) : Except Fault Unit := do
  if h.type = SectionHeader.addendRelocationsType ∨ h.type = SectionHeader.relocationsType then
    h.checkRange b.length
    let _ ← window b h.offset.toNat h.size.toNat

/-- The types of sections that hold symbol versions, in the order they are checked. -/
def versionTypes : List UInt32 :=
  [SectionHeader.symbolVersionsType, SectionHeader.versionDefinitionsType,
    SectionHeader.versionNeedsType]

/-- Checks the first section of a type. -/
def checkFirst (b : Bytes) (sections : List SectionHeader) (type : UInt32) :
    Except Fault Unit := do
  match sections.find? (·.type = type) with
  | some h =>
    let _ ← window b h.offset.toNat h.size.toNat
  | none => return

/-- Reads the tables of a file. -/
def parse (b : Bytes) : Except Fault Tables := do
  let header ← Header.parse b
  let e := header.encoding
  let segments ← Segment.table b header
  let sections ← SectionHeader.table b header
  let sectionNames ← readSectionNames b header sections
  sections.forM (checkSymbols b e sections)
  Dynamic.check b e segments
  sections.forM (checkRelocations b)
  versionTypes.forM (checkFirst b sections)
  let staticSymbols ← Symbol.table? b e sections SectionHeader.symbolsType
  let dynamicSymbols ← Symbol.table? b e sections SectionHeader.dynamicSymbolsType
  return { segments, sections, sectionNames, staticSymbols, dynamicSymbols }

end Tables

end Elf

end FirmwareStamp
