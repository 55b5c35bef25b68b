import FirmwareStamp.Proofs.Narrow

/-!
# Images of 64 bits

The tables of a file are taken as they are, so that in a file of 64 bits a section or a segment can
start and end anywhere.  The sums behind an offset, a load address and an ID are then no words for
some addresses.  Which ones is settled by the section or segment that covers the address:

    InRange (image.fileOffset a) ↔ image.OffsetFits a                      (inRange_fileOffset_iff)
    InRange (image.loadAddress a) ↔ image.LoadFits a                      (inRange_loadAddress_iff)
    InRange (image.buildId a) ↔ image.WindowsFit a                            (inRange_buildId_iff)

If the ranges in the file and in memory that the tables give end below 2^64, and so does the value
window at the end of each section, all sums are words (`TablesFit`).  Tables of 32 bits are like
that, and some of 64 bits are not (`parse_wideElf`).
-/

namespace FirmwareStamp

/-- Whether the value bytes of a placeholder anywhere in the section end at a word. -/
def Section.WindowsEndInRange (s : Section) : Prop :=
  s.size.toNat + placeholderLength ≤ Elf.wordLimit ∨ placeholderLength ≤ s.address.toNat

instance (s : Section) : Decidable s.WindowsEndInRange :=
  inferInstanceAs (Decidable (_ ∨ _))

namespace Image

/-- Whether no range that the tables give reaches past the last word. -/
structure TablesFit (image : Image) : Prop where
  contents : ∀ s ∈ image.sections, s.isBacked = true →
    s.offset.toNat + s.size.toNat ≤ Elf.wordLimit
  loads : ∀ s ∈ image.segments, s.isLoad = true →
    s.physicalAddress.toNat + s.memorySize.toNat ≤ Elf.wordLimit
  windows : ∀ s ∈ image.allocated, s.WindowsEndInRange

variable {image : Image}

/-- An image has an ID exactly if no value window leaves the range of a word. -/
theorem inRange_buildId_iff {p : Nat} : InRange (image.buildId p) ↔ image.WindowsFit p := by
  rw [buildId_eq_hashInput]
  by_cases hfit : image.WindowsFit p
  · rw [hashInput_eq_ok hfit]
    simp [InRange, hfit]
  · rw [hashInput_eq_error hfit]
    simp [InRange, hfit]

/-- The greatest address whose value window could overflow in a section is the one that decides. -/
theorem forall_windowFits_iff (s : Section) :
    (∀ p, p < Elf.wordLimit → s.WindowFits p) ↔ s.WindowsEndInRange := by
  have hlimit : placeholderLength ≤ Elf.wordLimit := by decide
  have haddress := s.address.toNat_lt
  unfold Section.WindowFits Section.WindowsEndInRange
  constructor
  · intro h
    by_contra hout
    rw [not_or] at hout
    -- the placeholder whose value bytes end at the limit
    have hend := h (s.address.toNat + (Elf.wordLimit - placeholderLength)) (by omega)
      (Section.contains_iff.2 ⟨by omega, by omega⟩)
    omega
  · rintro h p hp hcontains
    have hin := Section.contains_iff.1 hcontains
    omega

/-- There is an ID wherever the placeholder is, exactly if no section is so long and starts so low
that the value bytes could end past the last word. -/
theorem forall_windowsFit_iff :
    (∀ p, p < Elf.wordLimit → image.WindowsFit p) ↔
      ∀ s ∈ image.allocated, s.WindowsEndInRange := by
  constructor
  · intro h s hs
    exact (forall_windowFits_iff s).1 fun p hp => h p hp s hs
  · intro h p hp s hs
    exact (forall_windowFits_iff s).2 (h s hs) p hp

theorem TablesFit.offsetFits (h : image.TablesFit) (address : Nat) : image.OffsetFits address := by
  intro s hs
  obtain ⟨hmem, hbacked, hcontains⟩ := backingSection?_mem hs
  have hrange := h.contents s hmem hbacked
  have hin := Section.contains_iff.1 hcontains
  omega

theorem TablesFit.loadFits (h : image.TablesFit) (address : Nat) : image.LoadFits address := by
  intro s hs
  obtain ⟨hmem, hload, hcontains⟩ := loadSegment?_mem hs
  have hrange := h.loads s hmem hload
  have hin := Elf.Segment.contains_iff.1 hcontains
  omega

theorem Narrow.tablesFit (h : image.Narrow) : image.TablesFit where
  contents s hs _ := by
    obtain ⟨-, hoffset, hsize⟩ := h.sections s hs
    exact Nat.le_of_lt (add_lt_wordLimit hoffset hsize)
  loads s hs _ := by
    obtain ⟨-, hphysical, hmemory⟩ := h.segments s hs
    exact Nat.le_of_lt (add_lt_wordLimit hphysical hmemory)
  windows s hs := by
    obtain ⟨-, -, hsize⟩ := h.sections s (List.mem_filter.1 hs).1
    exact .inl (Nat.le_of_lt (add_lt_wordLimit hsize (by decide)))

/-- **Where sums overflow.**  An image that was read gives for an address an offset and a load
address, or the error that it has none, exactly if the sums behind them are words, and an ID exactly
if no value window leaves the range of a word.  All this is so for every address if the ranges of
the tables are in range, and those of a 32-bit file are. -/
theorem parse_inRange_iff {path : String} {b : Bytes} (h : parse path b = .ok image)
    {address : Nat} (haddress : address < Elf.wordLimit) :
    (InRange (image.fileOffset address) ↔ image.OffsetFits address) ∧
    (InRange (image.loadAddress address) ↔ image.LoadFits address) ∧
    (InRange (image.buildId address) ↔ image.WindowsFit address) ∧
    (InRange (image.buildId address) → ∃ id, image.buildId address = .ok id) ∧
    ((∀ p, p < Elf.wordLimit → InRange (image.buildId p)) ↔
      ∀ s ∈ image.allocated, s.WindowsEndInRange) ∧
    (image.TablesFit → InRange (image.fileOffset address) ∧
      InRange (image.loadAddress address) ∧ InRange (image.buildId address)) ∧
    (Elf.IsNarrow b → image.TablesFit) := by
  refine ⟨inRange_fileOffset_iff, inRange_loadAddress_iff, inRange_buildId_iff, ?_, ?_, ?_, ?_⟩
  · intro hid
    exact exists_buildId_of_windowsFit (inRange_buildId_iff.1 hid)
  · simp only [inRange_buildId_iff]
    exact forall_windowsFit_iff
  · intro htables
    exact ⟨inRange_fileOffset_iff.2 (htables.offsetFits address),
      inRange_loadAddress_iff.2 (htables.loadFits address),
      inRange_buildId_iff.2 (forall_windowsFit_iff.2 htables.windows address haddress)⟩
  · intro hnarrow
    exact (narrow_of_parse hnarrow h).tablesFit

/-- An image of 64 bits with a section and a segment over all addresses but the last, and the symbol
of a placeholder 16 bytes before the end. -/
def wideElf : Bytes :=
  [0x7f, 0x45, 0x4c, 0x46, 2, 1, 1] ++ List.replicate 9 0 ++
    [2, 40].flatMap (Bytes.little 2) ++ Bytes.little 4 1 ++ [0, 64, 156].flatMap (Bytes.little 8) ++
    Bytes.little 4 0 ++ [64, 56, 1, 64, 4, 3].flatMap (Bytes.little 2) ++
    -- the program header, the contents, the symbol and its name
    [1, 4].flatMap (Bytes.little 4) ++
    [120, 0, 0x1000, 8, 0xffffffffffffffff, 4].flatMap (Bytes.little 8) ++
    [1, 2, 3, 4, 5, 6, 7, 8] ++
    [1, 0].flatMap (Bytes.little 4) ++ [0xfffffffffffffff0, 24].flatMap (Bytes.little 8) ++
    [0, 0x69, 0x64, 0] ++
    -- the headers: none, the contents, the symbols and the names
    List.replicate 64 0 ++
    [0, 1].flatMap (Bytes.little 4) ++ [2, 0, 120, 0xffffffffffffffff].flatMap (Bytes.little 8) ++
    [0, 0].flatMap (Bytes.little 4) ++ [0, 0].flatMap (Bytes.little 8) ++
    [0, 2].flatMap (Bytes.little 4) ++ [0, 0, 128, 24].flatMap (Bytes.little 8) ++
    [3, 0].flatMap (Bytes.little 4) ++ [0, 24].flatMap (Bytes.little 8) ++
    [0, 3].flatMap (Bytes.little 4) ++ [0, 0, 152, 4].flatMap (Bytes.little 8) ++
    [0, 0].flatMap (Bytes.little 4) ++ [0, 0].flatMap (Bytes.little 8)

/-- What is read from it. -/
def wideImage : Image where
  path := "fw.elf"
  bytes := wideElf
  sections := [⟨"", 0, 0, 0, false, false⟩, ⟨"", 0, 0xffffffffffffffff, 120, true, false⟩,
    ⟨"", 0, 24, 128, false, false⟩, ⟨"", 0, 4, 152, false, false⟩]
  segments := [⟨1, 0, 0x1000, 120, 8, 0xffffffffffffffff, 4⟩]
  staticSymbols := some [⟨"id", 0xfffffffffffffff0, 24⟩]
  dynamicSymbols := none

/-- Low addresses of that image have offsets, load addresses and IDs. -/
theorem inRange_wideImage :
    parse "fw.elf" wideElf = .ok wideImage ∧ 0x1000 < Elf.wordLimit ∧
      InRange (wideImage.fileOffset 0x1000) ∧ InRange (wideImage.loadAddress 0x1000) ∧
      (∃ id, wideImage.buildId 0x1000 = .ok id) ∧
      ¬ ∀ p, p < Elf.wordLimit → InRange (wideImage.buildId p) := by
  have hparse : parse "fw.elf" wideElf = .ok wideImage := by decide +kernel
  have hlow : 0x1000 < Elf.wordLimit := by decide
  obtain ⟨hoffset, hload, hwindows, hid, hall, -⟩ := parse_inRange_iff hparse hlow
  have hfits : wideImage.WindowsFit 0x1000 := by
    unfold WindowsFit
    decide +kernel
  refine ⟨hparse, hlow, hoffset.2 ?_, hload.2 ?_, hid (hwindows.2 hfits), fun h => ?_⟩
  · unfold OffsetFits
    decide +kernel
  · unfold LoadFits
    decide +kernel
  · exact absurd (hall.1 h) (by decide +kernel)

/-- The image is read, and at the address of its placeholder the offset, the load address and the ID
overflow. -/
theorem parse_wideElf :
    parse "fw.elf" wideElf = .ok wideImage ∧
      wideImage.placeholder ⟨"id", .standard⟩ = .ok 0xfffffffffffffff0 ∧
      wideImage.fileOffset 0xfffffffffffffff0 = .error .overflow ∧
      wideImage.loadAddress 0xfffffffffffffff0 = .error .overflow ∧
      wideImage.buildId 0xfffffffffffffff0 = .error .overflow := by
  decide +kernel

end Image

end FirmwareStamp
