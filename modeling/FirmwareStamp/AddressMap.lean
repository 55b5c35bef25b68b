import FirmwareStamp.Image

/-!
# Addresses

An image gives a virtual address two more coordinates: an offset in its own file, through the
sections, and the physical address it is loaded at, through the segments.  Of several sections that
cover an address the one that starts lowest counts; of several segments the first in the table.

    image.backingSection? a = some s → s ∈ image.sections ∧ s.isBacked ∧ s.contains a    (backingSection?_mem)
-/

namespace FirmwareStamp

namespace Image

/-- The section whose file contents stand at a virtual address: of those that cover it the one
with the lowest start, the earliest in the table among equals. -/
def backingSection? (image : Image) (address : Nat) : Option Section :=
  (image.sections.filter fun s => s.isBacked && s.contains address).minOn? (·.address.toNat)

/-- The offset in the image's own file of a virtual address. -/
def fileOffset (image : Image) (address : Nat) : Except Error Nat :=
  match image.backingSection? address with
  | some s => checkWord (address - s.address.toNat + s.offset.toNat)
  | none => .error (.notMapped image.path address .allocatedSection)

/-- The segment that loads a virtual address. -/
def loadSegment? (image : Image) (address : Nat) : Option Elf.Segment :=
  image.segments.find? fun s => s.isLoad && s.contains address

/-- The physical address a virtual address is loaded at. -/
def loadAddress (image : Image) (address : Nat) : Except Error Nat :=
  match image.loadSegment? address with
  | some s => checkWord (s.physicalAddress.toNat + (address - s.virtualAddress.toNat))
  | none => .error (.notMapped image.path address .loadSegment)

/-- The physical address of the first byte of a raw binary: the lowest of any load segment that
has contents in the file. -/
def baseAddress (image : Image) : Except Error Nat :=
  match ((image.segments.filter fun s => s.isLoad && s.fileSize != 0).map
      (·.physicalAddress.toNat)).min? with
  | some base => .ok base
  | none => .error (.noLoadSegment image.path)

end Image

/-! ## Lemmas -/

/-- Nothing in a list is less than its minimum. -/
theorem minOn?_le {α : Type} {f : α → Nat} {l : List α} {a b : α} (h : l.minOn? f = some a)
    (hb : b ∈ l) : f a ≤ f b := by
  have hle := List.apply_get_minOn?_le_of_mem (f := f) hb
  simpa only [h, Option.get_some] using hle

namespace Image

theorem backingSection?_mem {image : Image} {address : Nat} {s : Section}
    (h : image.backingSection? address = some s) :
    s ∈ image.sections ∧ s.isBacked = true ∧ s.contains address = true := by
  simpa [List.mem_filter] using List.minOn?_mem h

/-- An address has a backing section exactly if some backed section covers it. -/
theorem backingSection?_isSome_iff {image : Image} {address : Nat} :
    (image.backingSection? address).isSome = true ↔
      ∃ s ∈ image.sections, s.isBacked = true ∧ s.contains address = true := by
  simp [backingSection?, List.isSome_minOn?_iff, List.filter_eq_nil_iff]

/-- No backed section that covers the address starts lower than the backing one. -/
theorem backingSection?_le {image : Image} {address : Nat} {s t : Section}
    (h : image.backingSection? address = some s) (ht : t ∈ image.sections)
    (hbacked : t.isBacked = true) (hcontains : t.contains address = true) :
    s.address.toNat ≤ t.address.toNat := by
  have hmem : t ∈ image.sections.filter fun s => s.isBacked && s.contains address := by
    simp [List.mem_filter, ht, hbacked, hcontains]
  exact minOn?_le (f := fun s : Section => s.address.toNat) h hmem

theorem loadSegment?_mem {image : Image} {address : Nat} {s : Elf.Segment}
    (h : image.loadSegment? address = some s) :
    s ∈ image.segments ∧ s.isLoad = true ∧ s.contains address = true := by
  unfold loadSegment? at h
  have hfound := List.find?_some h
  rw [Bool.and_eq_true] at hfound
  exact ⟨List.mem_of_find?_eq_some h, hfound⟩

/-- The offset in the file counts from the start of the backing section. -/
theorem fileOffset_eq_ok_iff {image : Image} {address offset : Nat} :
    image.fileOffset address = .ok offset ↔ ∃ s, image.backingSection? address = some s ∧
      offset = address - s.address.toNat + s.offset.toNat ∧ offset < Elf.wordLimit := by
  unfold fileOffset checkWord
  cases image.backingSection? address with
  | none => simp
  | some s =>
    simp only [Option.some.injEq, exists_eq_left']
    split
    · next hfit =>
      constructor
      · rintro ⟨⟩
        exact ⟨rfl, hfit⟩
      · rintro ⟨rfl, -⟩
        rfl
    · next hfit =>
      constructor
      · rintro ⟨⟩
      · rintro ⟨rfl, h⟩
        exact absurd h hfit

end Image

end FirmwareStamp
