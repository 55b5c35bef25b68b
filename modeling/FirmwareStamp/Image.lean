import FirmwareStamp.Elf.Tables
import FirmwareStamp.Error

/-!
# Images: linked executables

An `Image` is an ELF file together with what its tables say.  A section's contents are the bytes
the device sees: zeros if the section occupies nothing in the file, else as much of its range as
the file has.
-/

namespace FirmwareStamp

structure Section where
  name : String
  /-- The virtual address of the first byte. -/
  address : UInt64
  size : UInt64
  /-- Where the contents start in the file. -/
  offset : UInt64
  /-- Whether the section occupies memory. -/
  isAlloc : Bool
  /-- Whether the section occupies nothing in the file. -/
  isNoBits : Bool
deriving DecidableEq, Repr

namespace Section

/-- Whether the section covers a virtual address. -/
def contains (s : Section) (address : Nat) : Bool :=
  s.address.toNat ≤ address ∧ address - s.address.toNat < s.size.toNat

/-- Whether the section occupies memory that the file fills. -/
def isBacked (s : Section) : Bool :=
  s.isAlloc && !s.isNoBits

/-- The section a header describes. -/
def ofHeader (names : Elf.StringTable) (h : Elf.SectionHeader) : Section where
  name := names.name h.name.toNat
  address := h.address
  size := h.size
  offset := h.offset
  isAlloc := h.isAlloc
  isNoBits := h.isNoBits

theorem contains_iff {s : Section} {address : Nat} :
    s.contains address = true ↔
      s.address.toNat ≤ address ∧ address < s.address.toNat + s.size.toNat := by
  simp only [contains, decide_eq_true_eq]
  omega

end Section

structure Image where
  /-- The file the image was read from. -/
  path : String
  bytes : Bytes
  sections : List Section
  segments : List Elf.Segment
  /-- The symbols for the linker; a stripped image has none. -/
  staticSymbols : Option (List Elf.Symbol)
  /-- The symbols for the loader. -/
  dynamicSymbols : Option (List Elf.Symbol)
deriving DecidableEq, Repr

namespace Image

/-- The image in an ELF file; the path only names it. -/
def parse (path : String) (b : Bytes) : Except Error Image :=
  match Elf.Tables.parse b with
  | .error fault => .error (.elf path fault)
  | .ok tables => .ok {
      path
      bytes := b
      sections := tables.sections.map (Section.ofHeader tables.sectionNames)
      segments := tables.segments
      staticSymbols := tables.staticSymbols
      dynamicSymbols := tables.dynamicSymbols }

/-- Reads the image in a file. -/
def load (s : Store) (path : String) : Except Error Image :=
  match s.read path with
  | .error fault => .error (.io path fault)
  | .ok b => parse path b

/-- The first section of a name. -/
def sectionNamed? (image : Image) (name : String) : Option Section :=
  image.sections.find? (·.name = name)

/-- Contents longer than this cannot be held. -/
def contentsLimit : Nat := UInt64.size / 2

/-- What the file holds of a section. -/
def stored (image : Image) (s : Section) : Bytes :=
  image.bytes.slice s.offset.toNat s.size.toNat

/-- The contents of a section as the device sees them. -/
def contents (image : Image) (s : Section) : Except Error Bytes :=
  if s.isNoBits then
    if s.size.toNat < contentsLimit then .ok (List.replicate s.size.toNat 0)
    else .error .overflow
  else .ok (image.stored s)

/-! ## The placeholder -/

/-- The symbols that are searched: the static ones if there is a table of them, else the dynamic. -/
def symbols? (image : Image) : Option (List Elf.Symbol) :=
  match image.staticSymbols with
  | some symbols => some symbols
  | none => image.dynamicSymbols

/-- The virtual address of the placeholder: the value of the only symbol with the descriptor's
name, which must have the placeholder's size. -/
def placeholder (image : Image) (d : Descriptor) : Except Error Nat :=
  match (image.symbols?.getD []).filter (·.name = d.symbol) with
  | [] => .error (.symbolNotFound image.path d.symbol)
  | [s] =>
    if s.size.toNat = placeholderLength then .ok s.value.toNat
    else .error (.symbolSize image.path d.symbol s.size.toNat)
  | found => .error (.symbolAmbiguous image.path d.symbol found.length)

end Image

end FirmwareStamp
