import FirmwareStamp.AddressMap
import FirmwareStamp.Proofs.Windows
import Mathlib.Data.List.Pairwise

/-!
# What an image puts into flash

`flash` puts what the file holds of each load segment at its physical address, counted from the
lowest one, and a filler between them.  If the segments lie in the file and are apart, every byte
of a segment is found at its address, and every other byte is filler:

    g.Loads a → (image.flash fill b)[a - image.flashStart]? = b[g.offset + (a - g.physicalAddress)]?
                                                                               (getElem?_flash)

A write to the file inside a segment is a write to the flash at the address of the segment
(`flash_overwrite`).
-/

namespace FirmwareStamp

namespace Elf.Segment

/-- Whether the file has a byte for a physical address. -/
def Loads (g : Segment) (a : Nat) : Prop :=
  g.physicalAddress.toNat ≤ a ∧ a < g.physicalAddress.toNat + g.fileSize.toNat

instance (g : Segment) (a : Nat) : Decidable (g.Loads a) :=
  inferInstanceAs (Decidable (_ ∧ _))

/-- Whether a byte of the file is one of the segment. -/
def Stores (g : Segment) (i : Nat) : Prop :=
  g.offset.toNat ≤ i ∧ i < g.offset.toNat + g.fileSize.toNat

/-- Whether segments share no byte of memory and no byte of the file. -/
def Apart (g h : Segment) : Prop :=
  (∀ a, g.Loads a → ¬ h.Loads a) ∧ ∀ i, g.Stores i → ¬ h.Stores i

instance : Std.Symm Apart where
  symm _ _ h := ⟨fun a hb ha => h.1 a ha hb, fun i hb ha => h.2 i ha hb⟩

end Elf.Segment

namespace Image

/-- The load segments that have contents in the file. -/
def backedSegments (image : Image) : List Elf.Segment :=
  image.segments.filter fun g => g.isLoad && g.fileSize != 0

/-- The lowest physical address with a byte in the file. -/
def flashStart (image : Image) : Nat :=
  ((image.backedSegments.map (·.physicalAddress.toNat)).min?).getD 0

/-- The end of the highest segment with contents in the file. -/
def flashStop (image : Image) : Nat :=
  ((image.backedSegments.map fun g => g.physicalAddress.toNat + g.fileSize.toNat).max?).getD 0

/-- Puts what a file holds of a segment into memory that starts at an address. -/
def place (start : Nat) (b memory : Bytes) (g : Elf.Segment) : Bytes :=
  memory.overwrite (g.physicalAddress.toNat - start) (b.slice g.offset.toNat g.fileSize.toNat)

/-- What the segments of an image load from a file, one after the other. -/
def flash (image : Image) (fill : UInt8) (b : Bytes) : Bytes :=
  image.backedSegments.foldl (place image.flashStart b)
    (List.replicate (image.flashStop - image.flashStart) fill)

/-- Whether what the image loads lies in its file and in the address space and no two segments
share any of it. -/
structure Renderable (image : Image) : Prop where
  inFile : ∀ g ∈ image.backedSegments, g.offset.toNat + g.fileSize.toNat ≤ image.bytes.length
  noWrap : ∀ g ∈ image.backedSegments,
    g.physicalAddress.toNat + g.fileSize.toNat ≤ Elf.wordLimit
  apart : image.backedSegments.Pairwise Elf.Segment.Apart

variable {image : Image} {start : Nat} {b memory : Bytes} {g : Elf.Segment}
  {segments : List Elf.Segment}

/-! ## Placing segments -/

/-- Whether a segment lies in a file and in memory that starts at an address. -/
structure Fits (start : Nat) (b memory : Bytes) (g : Elf.Segment) : Prop where
  start_le : start ≤ g.physicalAddress.toNat
  stop_le : g.physicalAddress.toNat + g.fileSize.toNat ≤ start + memory.length
  inFile : g.offset.toNat + g.fileSize.toNat ≤ b.length

theorem Fits.length_slice (h : Fits start b memory g) :
    (b.slice g.offset.toNat g.fileSize.toNat).length = g.fileSize.toNat := by
  have := h.inFile
  rw [Bytes.length_slice]
  omega

theorem length_place (h : Fits start b memory g) :
    (place start b memory g).length = memory.length := by
  have := h.start_le
  have := h.stop_le
  refine Bytes.length_overwrite _ _ _ ?_
  rw [h.length_slice]
  omega

/-- A segment is found where it was placed, and what was there before everywhere else. -/
theorem getElem?_place (h : Fits start b memory g) (i : Nat) :
    (place start b memory g)[i]? = if g.Loads (start + i) then
      b[g.offset.toNat + (start + i - g.physicalAddress.toNat)]? else memory[i]? := by
  have hstart := h.start_le
  have hstop := h.stop_le
  have hlength := h.length_slice
  unfold place
  rw [Bytes.getElem?_overwrite _ _ _ (by rw [hlength]; omega), hlength]
  by_cases hin : g.Loads (start + i)
  · have hlow : g.physicalAddress.toNat ≤ start + i := hin.1
    have hhigh : start + i < g.physicalAddress.toNat + g.fileSize.toNat := hin.2
    rw [if_pos (by omega), if_pos hin, Bytes.getElem?_slice, if_pos (by omega)]
    congr 1
    omega
  · rw [if_neg hin, if_neg]
    rintro ⟨hlow, hhigh⟩
    exact hin ⟨by omega, by omega⟩

theorem Fits.place {h : Elf.Segment} (hg : Fits start b memory g) (hh : Fits start b memory h) :
    Fits start b (place start b memory h) g where
  start_le := hg.start_le
  stop_le := by rw [length_place hh]; exact hg.stop_le
  inFile := hg.inFile

theorem length_foldl_place (hfits : ∀ g ∈ segments, Fits start b memory g) :
    (segments.foldl (place start b) memory).length = memory.length := by
  induction segments generalizing memory with
  | nil => rfl
  | cons h rest ih =>
    have hh := hfits h List.mem_cons_self
    rw [List.foldl_cons, ih, length_place hh]
    intro g hg
    exact (hfits g (List.mem_cons_of_mem _ hg)).place hh

/-- Where no segment is loaded memory stays as it was. -/
theorem getElem?_foldl_place_of_gap (hfits : ∀ g ∈ segments, Fits start b memory g) {i : Nat}
    (hgap : ∀ g ∈ segments, ¬ g.Loads (start + i)) :
    (segments.foldl (place start b) memory)[i]? = memory[i]? := by
  induction segments generalizing memory with
  | nil => rfl
  | cons h rest ih =>
    have hh := hfits h List.mem_cons_self
    rw [List.foldl_cons, ih, getElem?_place hh, if_neg (hgap h List.mem_cons_self)]
    · intro g hg
      exact (hfits g (List.mem_cons_of_mem _ hg)).place hh
    · intro g hg
      exact hgap g (List.mem_cons_of_mem _ hg)

/-- A segment that no other shares memory with is found, whatever is placed after it. -/
theorem getElem?_foldl_place (hfits : ∀ g ∈ segments, Fits start b memory g)
    (hapart : segments.Pairwise Elf.Segment.Apart) (hg : g ∈ segments) {i : Nat}
    (hi : g.Loads (start + i)) :
    (segments.foldl (place start b) memory)[i]? =
      b[g.offset.toNat + (start + i - g.physicalAddress.toNat)]? := by
  induction segments generalizing memory with
  | nil => contradiction
  | cons h rest ih =>
    have hh := hfits h List.mem_cons_self
    have hrest : ∀ k ∈ rest, Fits start b (place start b memory h) k := fun k hk =>
      (hfits k (List.mem_cons_of_mem _ hk)).place hh
    rw [List.pairwise_cons] at hapart
    rw [List.foldl_cons]
    rcases List.mem_cons.1 hg with rfl | hg
    · rw [getElem?_foldl_place_of_gap hrest, getElem?_place hh, if_pos hi]
      intro k hk
      exact (hapart.1 k hk).1 _ hi
    · exact ih hrest hapart.2 hg

/-! ## The flash of an image -/

theorem flashStart_le (hg : g ∈ image.backedSegments) :
    image.flashStart ≤ g.physicalAddress.toNat :=
  List.min?_getD_le_of_mem (List.mem_map_of_mem hg)

theorem le_flashStop (hg : g ∈ image.backedSegments) :
    g.physicalAddress.toNat + g.fileSize.toNat ≤ image.flashStop :=
  List.le_max?_getD_of_mem (List.mem_map_of_mem (f := fun g : Elf.Segment =>
    g.physicalAddress.toNat + g.fileSize.toNat) hg)

/-- A raw binary starts where the flash does. -/
theorem baseAddress_eq_flashStart (hg : g ∈ image.backedSegments) :
    image.baseAddress = .ok image.flashStart := by
  unfold baseAddress flashStart backedSegments
  unfold backedSegments at hg
  have hsome := List.isSome_min?_of_mem
    (List.mem_map_of_mem (f := fun g : Elf.Segment => g.physicalAddress.toNat) hg)
  obtain ⟨base, hbase⟩ := Option.isSome_iff_exists.1 hsome
  rw [hbase]
  rfl

theorem Renderable.fits (h : image.Renderable) (hlength : b.length = image.bytes.length)
    (fill : UInt8) (hg : g ∈ image.backedSegments) :
    Fits image.flashStart b (List.replicate (image.flashStop - image.flashStart) fill) g where
  start_le := flashStart_le hg
  stop_le := by
    have := flashStart_le hg
    have := le_flashStop hg
    rw [List.length_replicate]
    omega
  inFile := by rw [hlength]; exact h.inFile g hg

/-- **The flash at an address.**  What the file holds for an address is found there. -/
theorem getElem?_flash (h : image.Renderable) (hlength : b.length = image.bytes.length)
    (fill : UInt8) (hg : g ∈ image.backedSegments) {a : Nat} (ha : g.Loads a) :
    (image.flash fill b)[a - image.flashStart]? =
      b[g.offset.toNat + (a - g.physicalAddress.toNat)]? := by
  have hle := flashStart_le hg
  have hsum : image.flashStart + (a - image.flashStart) = a := by
    have := ha.1
    omega
  unfold flash
  rw [getElem?_foldl_place (fun g hg => h.fits hlength fill hg) h.apart hg (by rwa [hsum]), hsum]

/-- Between the segments the flash does not depend on the file. -/
theorem getElem?_flash_of_gap (h : image.Renderable) (hlength : b.length = image.bytes.length)
    (fill : UInt8) {i : Nat}
    (hgap : ∀ g ∈ image.backedSegments, ¬ g.Loads (image.flashStart + i)) :
    (image.flash fill b)[i]? =
      (List.replicate (image.flashStop - image.flashStart) fill)[i]? :=
  getElem?_foldl_place_of_gap (fun _ hg => h.fits hlength fill hg) hgap

theorem length_flash (h : image.Renderable) (hlength : b.length = image.bytes.length)
    (fill : UInt8) : (image.flash fill b).length = image.flashStop - image.flashStart := by
  unfold flash
  rw [length_foldl_place fun _ hg => h.fits hlength fill hg, List.length_replicate]

/-! ## Windows of a segment -/

/-- A window of a segment is read at the same distance into its memory. -/
theorem slice_flash (h : image.Renderable) (fill : UInt8) (hg : g ∈ image.backedSegments)
    (distance length : Nat) (hd : distance + length ≤ g.fileSize.toNat) :
    (image.flash fill image.bytes).slice
        (g.physicalAddress.toNat + distance - image.flashStart) length =
      image.bytes.slice (g.offset.toNat + distance) length := by
  have hle := flashStart_le hg
  apply List.ext_getElem?
  intro k
  rw [Bytes.getElem?_slice, Bytes.getElem?_slice]
  split
  · next hk =>
    have ha : g.Loads (g.physicalAddress.toNat + distance + k) := ⟨by omega, by omega⟩
    rw [show g.physicalAddress.toNat + distance - image.flashStart + k =
        g.physicalAddress.toNat + distance + k - image.flashStart by omega,
      getElem?_flash h rfl fill hg ha]
    congr 1
    omega
  · rfl

/-- **A write inside a segment.**  It shows in the flash at the same distance into the memory of
the segment, and nowhere else. -/
theorem flash_overwrite (h : image.Renderable) (fill : UInt8) (hg : g ∈ image.backedSegments)
    (distance : Nat) (new : Bytes) (hd : distance + new.length ≤ g.fileSize.toNat) :
    image.flash fill (image.bytes.overwrite (g.offset.toNat + distance) new) =
      (image.flash fill image.bytes).overwrite
        (g.physicalAddress.toNat + distance - image.flashStart) new := by
  have hstart := flashStart_le hg
  have hstop := le_flashStop hg
  have hfile := h.inFile g hg
  have hfits : g.offset.toNat + distance + new.length ≤ image.bytes.length := by omega
  have hlength := Bytes.length_overwrite image.bytes _ new hfits
  apply List.ext_getElem?
  intro i
  rw [Bytes.getElem?_overwrite (image.flash fill image.bytes) _ _
    (by rw [length_flash h rfl]; omega)]
  by_cases hcovered : ∃ k ∈ image.backedSegments, k.Loads (image.flashStart + i)
  · obtain ⟨k, hk, hloads⟩ := hcovered
    have hlow : k.physicalAddress.toNat ≤ image.flashStart + i := hloads.1
    have hhigh : image.flashStart + i < k.physicalAddress.toNat + k.fileSize.toNat := hloads.2
    have hnew := getElem?_flash h hlength fill hk hloads
    have hold := getElem?_flash h rfl fill hk hloads
    rw [Nat.add_sub_cancel_left] at hnew hold
    rw [hnew, hold, Bytes.getElem?_overwrite _ _ _ hfits]
    by_cases hkg : k = g
    · subst hkg
      by_cases hin : k.offset.toNat + distance ≤
            k.offset.toNat + (image.flashStart + i - k.physicalAddress.toNat) ∧
          k.offset.toNat + (image.flashStart + i - k.physicalAddress.toNat) <
            k.offset.toNat + distance + new.length
      · rw [if_pos hin, if_pos (by omega)]
        congr 1
        omega
      · rw [if_neg hin, if_neg (by omega)]
    · -- another segment shares neither the bytes of the file nor the memory that are written
      have hapart : k.Apart g := h.apart.forall hk hg hkg
      rw [if_neg, if_neg]
      · rintro ⟨hin, hin'⟩
        exact hapart.1 _ hloads ⟨by omega, by omega⟩
      · rintro ⟨hin, hin'⟩
        exact hapart.2 (k.offset.toNat + (image.flashStart + i - k.physicalAddress.toNat))
          ⟨by omega, by omega⟩ ⟨by omega, by omega⟩
  · have hgap : ∀ k ∈ image.backedSegments, ¬ k.Loads (image.flashStart + i) := fun k hk hloads =>
      hcovered ⟨k, hk, hloads⟩
    rw [getElem?_flash_of_gap h hlength fill hgap, getElem?_flash_of_gap h rfl fill hgap, if_neg]
    rintro ⟨hin, hin'⟩
    exact hgap g hg ⟨by omega, by omega⟩

end Image

end FirmwareStamp
