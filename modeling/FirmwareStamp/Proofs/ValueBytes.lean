import FirmwareStamp.AddressMap
import FirmwareStamp.Proofs.HashStream
import FirmwareStamp.Proofs.Session
import FirmwareStamp.Proofs.Windows

/-!
# Value bytes that are written are not hashed

The value bytes are hashed by address and written by file offset.  If no other section takes its
contents from where they are written, both are the same bytes, so that writing them leaves the ID
as it was:

    image.ValueApart p → { image with bytes := stamped }.buildId p = image.buildId p
                                                                            (buildId_overwrite)
-/

namespace FirmwareStamp

/-- Whether a byte of the file is in the range of a section's contents. -/
def Section.Occupies (s : Section) (i : Nat) : Prop :=
  s.offset.toNat ≤ i ∧ i < s.offset.toNat + s.size.toNat

namespace Image

/-- Whether the value bytes are, by their place in the file, in the contents of no other backed
section than the one they are placed by. -/
def ValueApart (image : Image) (placeholder : Nat) : Prop :=
  ∀ s offset, image.backingSection? placeholder = some s →
    image.fileOffset placeholder = .ok offset →
    ∀ t ∈ image.sections, t.isBacked = true → t ≠ s →
      ∀ i, offset + Magic.length ≤ i → i < offset + placeholderLength → ¬ t.Occupies i

/-- The same sections with the same pieces have the same ID. -/
theorem buildId_congr {a b : Image} {p : Nat} (hsections : a.allocated = b.allocated)
    (h : ∀ s ∈ a.allocated, a.hashPiece p s = b.hashPiece p s) : a.buildId p = b.buildId p := by
  rw [buildId_eq_hashInput, buildId_eq_hashInput, hashInput, hashInput, ← hsections]
  have hpart : ∀ s ∈ a.allocated, a.hashPart p s = b.hashPart p s := by
    intro s hs
    rw [hashPart_eq, hashPart_eq, h s hs]
  rw [mapM_congr hpart]

/-- A write to the value bytes shows in no piece of what is hashed. -/
theorem hashPiece_overwrite {image : Image} {p offset : Nat}
    (hoffset : image.fileOffset p = .ok offset) (hapart : image.ValueApart p) {new : Bytes}
    (hnew : new.length = BuildId.length)
    (hfits : offset + placeholderLength ≤ image.bytes.length) {t : Section}
    (ht : t ∈ image.sections) (halloc : t.isAlloc = true) :
    { image with bytes := image.bytes.overwrite (offset + Magic.length) new }.hashPiece p t =
      image.hashPiece p t := by
  obtain ⟨s, hs, hplace, -⟩ := fileOffset_eq_ok_iff.1 hoffset
  have hin : offset + Magic.length + new.length ≤ image.bytes.length := by
    rw [hnew]
    exact hfits
  unfold hashPiece loaded
  by_cases hno : t.isNoBits = true
  · rw [if_pos hno, if_pos hno]
  rw [if_neg hno, if_neg hno]
  unfold stored
  congr 1
  have hlength := Bytes.length_overwrite image.bytes (offset + Magic.length) new hin
  rw [without_eq_iff (by rw [Bytes.length_slice, Bytes.length_slice, hlength])]
  intro i hi
  rw [Bytes.getElem?_slice, Bytes.getElem?_slice]
  split
  · next hsize =>
    rw [Bytes.getElem?_overwrite _ _ _ hin, hnew, if_neg]
    intro hvalue
    -- the byte is written, so it is one of this section's own value bytes
    by_cases hts : t = s
    · subst hts
      have hcontains := (backingSection?_mem hs).2.2
      refine hi ⟨hcontains, ?_, ?_⟩
      · omega
      · unfold placeholderLength
        omega
    · have hbacked : t.isBacked = true := by simp [Section.isBacked, halloc, hno]
      refine hapart s offset hs hoffset t ht hbacked hts (t.offset.toNat + i) hvalue.1 ?_ ?_
      · unfold placeholderLength
        omega
      · unfold Section.Occupies
        omega
  · rfl

/-- **Stamping keeps the ID.**  An image with an ID written over its value bytes has the ID it had
before. -/
theorem buildId_overwrite {image : Image} {p offset : Nat}
    (hoffset : image.fileOffset p = .ok offset) (hapart : image.ValueApart p) (id : BuildId)
    (hfits : offset + placeholderLength ≤ image.bytes.length) :
    { image with bytes := image.bytes.overwrite (offset + Magic.length) id.bytes }.buildId p =
      image.buildId p := by
  refine buildId_congr rfl ?_
  intro t ht
  have hmem : t ∈ image.sections ∧ t.isAlloc = true := by
    simpa [allocated, List.mem_filter] using ht
  exact hashPiece_overwrite hoffset hapart id.length_eq hfits hmem.1 hmem.2

end Image

end FirmwareStamp
