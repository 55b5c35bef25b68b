import FirmwareStamp.Elf.Header

/-!
# Segments: what is loaded where

A program header describes a segment: its place in the file, its virtual address and the physical
address it is loaded at.  Sizes in memory and in the file may differ.
-/

namespace FirmwareStamp

namespace Elf

structure Segment where
  type : UInt32
  virtualAddress : UInt64
  physicalAddress : UInt64
  offset : UInt64
  fileSize : UInt64
  memorySize : UInt64
  flags : UInt32
deriving DecidableEq, Repr

namespace Segment

def loadType : UInt32 := 1

def dynamicType : UInt32 := 2

def writeFlag : UInt32 := 2

/-- Whether the segment is loaded. -/
def isLoad (s : Segment) : Bool :=
  s.type = loadType

def isWritable (s : Segment) : Bool :=
  s.flags &&& writeFlag ≠ 0

/-- Whether the segment covers a virtual address. -/
def contains (s : Segment) (address : Nat) : Bool :=
  s.virtualAddress.toNat ≤ address ∧ address - s.virtualAddress.toNat < s.memorySize.toNat

/-! ## Program headers -/

/-- Bytes in a program header. -/
def headerLength : Width → Nat
  | .bits32 => 32
  | .bits64 => 56

/-- Reads a program header. -/
def reader (e : Encoding) : Reader Segment := do
  match e.width with
  | .bits32 =>
    let type ← Reader.long e
    let offset ← Reader.word e
    let virtualAddress ← Reader.word e
    let physicalAddress ← Reader.word e
    let fileSize ← Reader.word e
    let memorySize ← Reader.word e
    let flags ← Reader.long e
    let _alignment ← Reader.word e
    return { type, virtualAddress, physicalAddress, offset, fileSize, memorySize, flags }
  | .bits64 =>
    let type ← Reader.long e
    let flags ← Reader.long e
    let offset ← Reader.word e
    let virtualAddress ← Reader.word e
    let physicalAddress ← Reader.word e
    let fileSize ← Reader.word e
    let memorySize ← Reader.word e
    let _alignment ← Reader.word e
    return { type, virtualAddress, physicalAddress, offset, fileSize, memorySize, flags }

/-- The segments of a file, in table order. -/
def table (b : Bytes) (h : Header) : Except Fault (List Segment) := do
  let count := h.programHeaderCount.toNat
  let length := headerLength h.encoding.width
  if b.length / length < count then throw (.programHeaders count)
  (List.range count).mapM fun i =>
    (reader h.encoding).runAt b (h.programHeaderOffset.toNat + i * length)

/-! ## Lemmas -/

theorem contains_iff {s : Segment} {address : Nat} :
    s.contains address = true ↔ s.virtualAddress.toNat ≤ address ∧
      address < s.virtualAddress.toNat + s.memorySize.toNat := by
  simp only [contains, decide_eq_true_eq]
  omega

end Segment

end Elf

end FirmwareStamp
