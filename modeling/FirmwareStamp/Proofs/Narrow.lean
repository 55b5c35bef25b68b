import FirmwareStamp.Proofs.HashStream
import FirmwareStamp.Proofs.Session
import FirmwareStamp.AddressMap

/-!
# Images of 32 bits

The words of a 32-bit file are numbers below 2^32, whatever its tables say, so that every address,
offset and size of its sections and segments is (`narrow_of_parse`).  Sums of two of them are words
of 64 bits: an image of 32 bits gives offsets, load addresses and an ID without overflow.
-/

namespace FirmwareStamp

/-- Whether a computation does not fail because a number left the range of its word. -/
def InRange {α : Type} (r : Except Error α) : Prop :=
  r ≠ .error .overflow

namespace Elf

/-- Numbers below this fit the words of a 32-bit file. -/
def narrowLimit : Nat := UInt32.size

/-- Whether a file, if it is an ELF file, is one of 32 bits. -/
def IsNarrow (b : Bytes) : Prop :=
  ∀ tables e, Tables.parse b = .ok tables → Header.encoding? b = .ok e → e.width = .bits32

/-! ## Records -/

/-- Whether whatever is read has a property. -/
def Reader.Yields {α : Type} (r : Reader α) (P : α → Prop) : Prop :=
  ∀ c a c', r c = .ok (a, c') → P a

namespace Reader.Yields

variable {α β : Type} {r : Reader α} {P : α → Prop} {Q : β → Prop}

theorem any (r : Reader α) : r.Yields fun _ => True := fun _ _ _ _ => trivial

theorem pure {a : α} (h : P a) : (pure a : Reader α).Yields P := by
  intro c b c' hread
  cases hread
  exact h

theorem bind {f : α → Reader β} (hr : r.Yields P) (hf : ∀ a, P a → (f a).Yields Q) :
    (r >>= f).Yields Q := by
  intro c b c' hread
  obtain ⟨⟨a, mid⟩, ha, hb⟩ := bind_eq_ok.1 hread
  exact hf a (hr c a mid ha) mid b c' hb

/-- What is read past without a look at it is no matter. -/
theorem skip {f : α → Reader β} (hf : ∀ a, (f a).Yields Q) : (r >>= f).Yields Q :=
  (any r).bind fun a _ => hf a

theorem of_runAt (h : r.Yields P) {b : Bytes} {offset : Nat} {a : α}
    (hread : r.runAt b offset = .ok a) : P a := by
  unfold runAt at hread
  split at hread
  · contradiction
  · obtain ⟨⟨a', c'⟩, ha, rfl⟩ := map_eq_ok.1 hread
    exact h _ a' c' ha

end Reader.Yields

theorem capacity_four : Bytes.capacity 4 = narrowLimit := rfl

theorem decode_lt_capacity (order : ByteOrder) (b : Bytes) :
    order.decode b < Bytes.capacity b.length := by
  cases order with
  | little => exact Bytes.ofLittle_lt b
  | big =>
    show Bytes.ofBig b < _
    rw [← List.reverse_reverse b, Bytes.ofBig_reverse, List.length_reverse]
    exact Bytes.ofLittle_lt _

theorem decode_lt (order : ByteOrder) {b : Bytes} (h : b.length = 4) :
    order.decode b < narrowLimit := by
  rw [← capacity_four, ← h]
  exact decode_lt_capacity order b

theorem yields_take (length : Nat) : (Reader.take length).Yields fun b => b.length = length := by
  intro c b c' hread
  unfold Reader.take at hread
  split at hread
  · contradiction
  · dsimp only at hread
    split at hread
    · contradiction
    · next hlong =>
      injection hread with hread
      injection hread with hread
      rw [← hread]
      have := List.length_take_le length c.rest
      omega

/-- A word of a 32-bit file. -/
theorem yields_word {e : Encoding} (he : e.width = .bits32) :
    (Reader.word e).Yields fun w => w.toNat < narrowLimit := by
  refine (yields_take _).bind fun b hb => .pure ?_
  rw [he] at hb
  have hlt := decode_lt e.order hb
  rwa [UInt64.toNat_ofNat_of_lt' (Nat.lt_trans hlt (by decide))]

namespace SectionHeader

/-- Whether the numbers of a section header fit a 32-bit file. -/
structure Narrow (h : SectionHeader) : Prop where
  address_lt : h.address.toNat < narrowLimit
  offset_lt : h.offset.toNat < narrowLimit
  size_lt : h.size.toNat < narrowLimit

theorem yields_reader {e : Encoding} (he : e.width = .bits32) : (reader e).Yields Narrow := by
  unfold reader
  refine .skip fun name => .skip fun type => .skip fun flags => ?_
  refine (yields_word he).bind fun address haddress => ?_
  refine (yields_word he).bind fun offset hoffset => ?_
  refine (yields_word he).bind fun size hsize => ?_
  refine .skip fun link => .skip fun info => .skip fun alignment => .skip fun entrySize => ?_
  exact .pure ⟨haddress, hoffset, hsize⟩

theorem narrow_of_table {b : Bytes} {h : Header} {sections : List SectionHeader}
    (hwidth : h.encoding.width = .bits32) (htable : table b h = .ok sections) :
    ∀ s ∈ sections, s.Narrow := by
  unfold table at htable
  split at htable
  · cases htable
    simp
  · obtain ⟨first, hfirst, htable⟩ := bind_eq_ok.1 htable
    dsimp only at htable
    generalize (if h.sectionHeaderCount = 0 then first.size.toNat
      else h.sectionHeaderCount.toNat) = count at htable
    split at htable
    · contradiction
    · obtain ⟨rest, hrest, htable⟩ := bind_eq_ok.1 htable
      cases htable
      intro s hs
      rcases List.mem_cons.1 hs with rfl | hs
      · exact (yields_reader hwidth).of_runAt hfirst
      · obtain ⟨i, -, hread⟩ := exists_of_mem_mapM hrest hs
        exact (yields_reader hwidth).of_runAt hread

end SectionHeader

namespace Segment

/-- Whether the numbers of a segment fit a 32-bit file. -/
structure Narrow (s : Segment) : Prop where
  virtualAddress_lt : s.virtualAddress.toNat < narrowLimit
  physicalAddress_lt : s.physicalAddress.toNat < narrowLimit
  memorySize_lt : s.memorySize.toNat < narrowLimit

theorem yields_reader {e : Encoding} (he : e.width = .bits32) : (reader e).Yields Narrow := by
  unfold reader
  rw [he]
  dsimp only
  refine .skip fun type => .skip fun offset => ?_
  refine (yields_word he).bind fun virtualAddress hvirtual => ?_
  refine (yields_word he).bind fun physicalAddress hphysical => ?_
  refine .skip fun fileSize => ?_
  refine (yields_word he).bind fun memorySize hmemory => ?_
  refine .skip fun flags => .skip fun alignment => ?_
  exact .pure ⟨hvirtual, hphysical, hmemory⟩

theorem narrow_of_table {b : Bytes} {h : Header} {segments : List Segment}
    (hwidth : h.encoding.width = .bits32) (htable : table b h = .ok segments) :
    ∀ s ∈ segments, s.Narrow := by
  unfold table at htable
  dsimp only at htable
  split at htable
  · contradiction
  · intro s hs
    obtain ⟨i, -, hread⟩ := exists_of_mem_mapM htable hs
    exact (yields_reader hwidth).of_runAt hread

end Segment

theorem encoding?_of_parse {b : Bytes} {h : Header} (hparse : Header.parse b = .ok h) :
    Header.encoding? b = .ok h.encoding := by
  obtain ⟨e, he, hread⟩ := bind_eq_ok.1 hparse
  have hyields : (Header.reader e).Yields fun h => h.encoding = e := by
    unfold Header.reader
    iterate 14 refine .skip fun _ => ?_
    exact .pure rfl
  rw [he, hyields.of_runAt hread]

/-- The tables of a 32-bit file. -/
theorem narrow_of_tables {b : Bytes} {tables : Tables} (hnarrow : IsNarrow b)
    (hparse : Tables.parse b = .ok tables) :
    (∀ s ∈ tables.sections, s.Narrow) ∧ ∀ s ∈ tables.segments, s.Narrow := by
  obtain ⟨header, hheader, h⟩ := bind_eq_ok.1 hparse
  have hwidth := hnarrow tables _ hparse (encoding?_of_parse hheader)
  obtain ⟨segments, hsegments, h⟩ := bind_eq_ok.1 h
  obtain ⟨sections, hsections, h⟩ := bind_eq_ok.1 h
  obtain ⟨names, -, h⟩ := bind_eq_ok.1 h
  obtain ⟨_, -, h⟩ := bind_eq_ok.1 h
  obtain ⟨_, -, h⟩ := bind_eq_ok.1 h
  obtain ⟨_, -, h⟩ := bind_eq_ok.1 h
  obtain ⟨_, -, h⟩ := bind_eq_ok.1 h
  obtain ⟨_, -, h⟩ := bind_eq_ok.1 h
  obtain ⟨_, -, h⟩ := bind_eq_ok.1 h
  cases h
  exact ⟨SectionHeader.narrow_of_table hwidth hsections,
    Segment.narrow_of_table hwidth hsegments⟩

end Elf

/-! ## Images -/

/-- Whether the numbers of a section fit a 32-bit file. -/
structure Section.Narrow (s : Section) : Prop where
  address_lt : s.address.toNat < Elf.narrowLimit
  offset_lt : s.offset.toNat < Elf.narrowLimit
  size_lt : s.size.toNat < Elf.narrowLimit

namespace Image

/-- Whether the numbers of an image fit a 32-bit file. -/
structure Narrow (image : Image) : Prop where
  sections : ∀ s ∈ image.sections, s.Narrow
  segments : ∀ s ∈ image.segments, s.Narrow

/-- **A 32-bit file** makes an image whose numbers fit one. -/
theorem narrow_of_parse {path : String} {b : Bytes} {image : Image} (hnarrow : Elf.IsNarrow b)
    (h : parse path b = .ok image) : image.Narrow := by
  unfold parse at h
  split at h
  · contradiction
  · next tables htables =>
    obtain ⟨hsections, hsegments⟩ := Elf.narrow_of_tables hnarrow htables
    cases h
    refine ⟨?_, hsegments⟩
    intro s hs
    obtain ⟨header, hheader, rfl⟩ := List.mem_map.1 hs
    obtain ⟨haddress, hoffset, hsize⟩ := hsections header hheader
    exact ⟨haddress, hoffset, hsize⟩

end Image

theorem inRange_checkWord_iff {n : Nat} : InRange (checkWord n) ↔ n < Elf.wordLimit := by
  unfold InRange checkWord
  split
  · next hfit => simp [hfit]
  · next hfit => simp [hfit]

/-- The sum of two numbers of a 32-bit file is a word. -/
theorem add_lt_wordLimit {m n : Nat} (hm : m < Elf.narrowLimit) (hn : n < Elf.narrowLimit) :
    m + n < Elf.wordLimit := by
  have htwice : Elf.narrowLimit + Elf.narrowLimit ≤ Elf.wordLimit := by decide
  omega

namespace Image

variable {image : Image}

/-- Whether the offset in the file of an address is a word, if there is one. -/
def OffsetFits (image : Image) (address : Nat) : Prop :=
  ∀ s ∈ image.backingSection? address,
    address - s.address.toNat + s.offset.toNat < Elf.wordLimit

/-- Whether the load address of an address is a word, if there is one. -/
def LoadFits (image : Image) (address : Nat) : Prop :=
  ∀ s ∈ image.loadSegment? address,
    s.physicalAddress.toNat + (address - s.virtualAddress.toNat) < Elf.wordLimit

theorem inRange_fileOffset_iff {address : Nat} :
    InRange (image.fileOffset address) ↔ image.OffsetFits address := by
  unfold fileOffset OffsetFits
  cases image.backingSection? address with
  | none => simp [InRange]
  | some s =>
    rw [inRange_checkWord_iff]
    simp

theorem inRange_loadAddress_iff {address : Nat} :
    InRange (image.loadAddress address) ↔ image.LoadFits address := by
  unfold loadAddress LoadFits
  cases image.loadSegment? address with
  | none => simp [InRange]
  | some s =>
    rw [inRange_checkWord_iff]
    simp

/-- The offset of an address in a 32-bit file is a word. -/
theorem Narrow.inRange_fileOffset (h : image.Narrow) (address : Nat) :
    InRange (image.fileOffset address) := by
  refine inRange_fileOffset_iff.2 fun s hs => ?_
  obtain ⟨hmem, -, hcontains⟩ := backingSection?_mem hs
  obtain ⟨-, hoffset, hsize⟩ := h.sections s hmem
  have hin := Section.contains_iff.1 hcontains
  exact add_lt_wordLimit (by omega) hoffset

/-- The load address of an address of a 32-bit image is a word. -/
theorem Narrow.inRange_loadAddress (h : image.Narrow) (address : Nat) :
    InRange (image.loadAddress address) := by
  refine inRange_loadAddress_iff.2 fun s hs => ?_
  obtain ⟨hmem, -, hcontains⟩ := loadSegment?_mem hs
  obtain ⟨-, hphysical, hmemory⟩ := h.segments s hmem
  have hin := Elf.Segment.contains_iff.1 hcontains
  exact add_lt_wordLimit hphysical (by omega)

theorem Narrow.windowsFit (h : image.Narrow) (placeholder : Nat) :
    image.WindowsFit placeholder := by
  intro s hs hcontains
  obtain ⟨-, -, hsize⟩ := h.sections s (List.mem_filter.1 hs).1
  have hin := Section.contains_iff.1 hcontains
  exact add_lt_wordLimit (by omega) (by decide)

/-- A 32-bit image has an ID, wherever its placeholder is. -/
theorem Narrow.exists_buildId (h : image.Narrow) (placeholder : Nat) :
    ∃ id, image.buildId placeholder = .ok id :=
  exists_buildId_of_windowsFit (h.windowsFit placeholder)

end Image

end FirmwareStamp
