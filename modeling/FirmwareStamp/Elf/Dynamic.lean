import FirmwareStamp.Elf.Segment
import FirmwareStamp.Elf.StringTable

/-!
# The dynamic table

The first dynamic segment lists tagged values, up to a tag of zero.  Of two entries with one tag
the later counts.  Nothing in the table is used, but the tables it points at must be in the file.
-/

namespace FirmwareStamp

namespace Elf

namespace Dynamic

def relocationsAtLinkSizeTag : Nat := 2
def stringsTag : Nat := 5
def symbolsTag : Nat := 6
def addendRelocationsTag : Nat := 7
def addendRelocationsSizeTag : Nat := 8
def stringsSizeTag : Nat := 10
def relocationsTag : Nat := 17
def relocationsSizeTag : Nat := 18
def relocationsAtLinkTag : Nat := 23

/-- Reads an entry: its tag and value. -/
def reader (e : Encoding) : Reader (Nat × Nat) := do
  let tag ← Reader.word e
  let value ← Reader.word e
  return (tag.toNat, value.toNat)

/-- The entries of a dynamic segment. -/
def entries (b : Bytes) (e : Encoding) (s : Segment) : Except Fault (List (Nat × Nat)) := do
  let size := s.fileSize.toNat
  if size = 0 then return []
  match window b s.offset.toNat size with
  | .error _ => throw (.dynamicRange s.offset.toNat size)
  | .ok table =>
    let length := 2 * e.width.wordLength
    let all ← (List.range (size / length)).mapM fun i => (reader e).runAt table (i * length)
    return all.takeWhile fun entry => entry.1 ≠ 0

/-- The value of a tag, if an entry has it. -/
def value? (entries : List (Nat × Nat)) (tag : Nat) : Option Nat :=
  entries.reverse.lookup tag

/-- The file offset of a virtual address, by the first segment of any type that covers it. -/
def fileOffset? (segments : List Segment) (address : Nat) : Option Nat := do
  let s ← segments.find? (·.contains address)
  let offset := s.offset.toNat + (address - s.virtualAddress.toNat)
  if offset < wordLimit then some offset else none

/-- Checks that the tables of the first dynamic segment are in the file.  A table without a place
counts as being at the start. -/
def check (b : Bytes) (e : Encoding) (segments : List Segment) : Except Fault Unit := do
  match segments.find? (·.type = Segment.dynamicType) with
  | none => return
  | some s =>
    let entries ← entries b e s
    let size tag := (value? entries tag).getD 0
    let place tag := ((value? entries tag).bind (fileOffset? segments)).getD 0
    let _ ← StringTable.ofRange b (place stringsTag) (size stringsSizeTag)
    let _ ← window b (place addendRelocationsTag) (size addendRelocationsSizeTag)
    let _ ← window b (place relocationsTag) (size relocationsSizeTag)
    let _ ← window b (place relocationsAtLinkTag) (size relocationsAtLinkSizeTag)
    let _ ← window b (place symbolsTag) 0

end Dynamic

end Elf

end FirmwareStamp
