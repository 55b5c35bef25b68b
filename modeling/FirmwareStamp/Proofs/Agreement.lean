import FirmwareStamp.Proofs.Flash
import FirmwareStamp.Proofs.ReadBack

/-!
# The formats of a build agree

The three formats find the placeholder in three ways: by section and file offset, by load address,
and by distance from the base address.  Where a section and a segment give its bytes one place in
the file, all three lead to the same bytes, so that stamping a file that was rendered from the
executable gives what is rendered from the stamped executable (`stampImage_flash`).
-/

namespace FirmwareStamp

/-- Whether a section and a segment are those of an address, and give it one place in the file,
where the segment has contents for a whole placeholder. -/
structure Image.Aligned (image : Image) (address : Nat) (s : Section) (g : Elf.Segment) : Prop where
  backing : image.backingSection? address = some s
  loading : image.loadSegment? address = some g
  inSegment : address + placeholderLength ≤ g.virtualAddress.toNat + g.fileSize.toNat
  sameOffset : s.offset.toNat + g.virtualAddress.toNat = g.offset.toNat + s.address.toNat

/-- Whether an Intel HEX file has what the flash holds at every address that the image has
contents for. -/
def IntelHex.Listing.Agrees (l : IntelHex.Listing) (image : Image) (fill : UInt8) (b : Bytes) :
    Prop :=
  ∀ g ∈ image.backedSegments, ∀ a, g.Loads a →
    l.get? a = (image.flash fill b)[a - image.flashStart]?

namespace Image.Aligned

variable {image : Image} {p : Nat} {s : Section} {g : Elf.Segment}

/-! ## One placeholder, three coordinates -/

theorem mem_segments (h : image.Aligned p s g) :
    g ∈ image.segments ∧ g.isLoad = true ∧ g.virtualAddress.toNat ≤ p := by
  obtain ⟨hmem, hload, hcontains⟩ := loadSegment?_mem h.loading
  exact ⟨hmem, hload, (Elf.Segment.contains_iff.1 hcontains).1⟩

theorem mem_backedSegments (h : image.Aligned p s g) : g ∈ image.backedSegments := by
  obtain ⟨hmem, hload, hle⟩ := h.mem_segments
  have hin := h.inSegment
  unfold backedSegments
  rw [List.mem_filter]
  refine ⟨hmem, ?_⟩
  have hsize : g.fileSize ≠ 0 := by
    intro hzero
    rw [hzero] at hin
    simp only [placeholderLength, Magic.length, BuildId.length, UInt64.toNat_zero] at hin
    omega
  simp [hload, hsize]

theorem fileOffset_eq (h : image.Aligned p s g) {offset : Nat}
    (hoffset : image.fileOffset p = .ok offset) :
    offset = g.offset.toNat + (p - g.virtualAddress.toNat) := by
  obtain ⟨s', hs', rfl, -⟩ := fileOffset_eq_ok_iff.1 hoffset
  rw [h.backing] at hs'
  injection hs' with hs'
  subst hs'
  have hsection := (Section.contains_iff.1 (backingSection?_mem h.backing).2.2).1
  have hsegment := h.mem_segments.2.2
  have := h.sameOffset
  omega

theorem loadAddress_eq (h : image.Aligned p s g) (hrender : image.Renderable) :
    image.loadAddress p = .ok (g.physicalAddress.toNat + (p - g.virtualAddress.toNat)) := by
  have hwrap := hrender.noWrap g h.mem_backedSegments
  have hsegment := h.mem_segments.2.2
  have hin := h.inSegment
  unfold loadAddress
  rw [h.loading]
  dsimp only
  unfold checkWord
  rw [if_pos]
  simp only [placeholderLength, Magic.length, BuildId.length] at hin
  omega

end Image.Aligned

namespace Target

variable {t : Target} {id : BuildId} {s : Section} {g : Elf.Segment} {e : Edit}

/-- The placeholder that stamping finds in the file stands in the flash at its load address, and the
edit of the file is an edit of the flash there. -/
theorem flash_editImage (hrender : t.image.Renderable) (haligned : t.image.Aligned t.address s g)
    (hedit : t.editImage id t.image.bytes = .ok e) (fill : UInt8) :
    ∃ address, ∃ old : BuildId, t.image.loadAddress t.address = .ok address ∧
      t.image.baseAddress = .ok t.image.flashStart ∧ t.image.flashStart ≤ address ∧
      (∀ k, k < placeholderLength → g.Loads (address + k)) ∧
      (t.image.flash fill t.image.bytes).slice (address - t.image.flashStart) placeholderLength =
        t.descriptor.magic.bytes ++ old.bytes ∧
      t.image.flash fill e.contents = (t.image.flash fill t.image.bytes).overwrite
        (address - t.image.flashStart + Magic.length) id.bytes := by
  obtain ⟨offset, old, hoffset, -, hslice, rfl⟩ := editImage_eq_ok_iff.1 hedit
  have hg := haligned.mem_backedSegments
  have hstart := Image.flashStart_le hg
  have hin := haligned.inSegment
  have hsegment := haligned.mem_segments.2.2
  obtain ⟨distance, hdistance⟩ : ∃ d, d = t.address - g.virtualAddress.toNat := ⟨_, rfl⟩
  have hroom : distance + placeholderLength ≤ g.fileSize.toNat := by omega
  have haddress := haligned.loadAddress_eq hrender
  rw [← hdistance] at haddress
  have hplace := haligned.fileOffset_eq hoffset
  rw [← hdistance] at hplace
  subst hplace
  refine ⟨_, old, haddress, Image.baseAddress_eq_flashStart hg, by omega, ?_, ?_, ?_⟩
  · intro k hk
    exact ⟨by omega, by omega⟩
  · rw [Image.slice_flash hrender fill hg distance placeholderLength hroom, hslice]
  · have hvalue : distance + Magic.length + id.bytes.length ≤ g.fileSize.toNat := by
      rw [id.length_eq]
      exact hroom
    have hwrite := Image.flash_overwrite hrender fill hg _ id.bytes hvalue
    rw [show g.physicalAddress.toNat + distance - t.image.flashStart + Magic.length =
        g.physicalAddress.toNat + (distance + Magic.length) - t.image.flashStart by omega]
    exact hwrite

/-! ## Raw binaries -/

/-- The raw binary of an image is stamped where its image loads the placeholder, and is then the
raw binary of the stamped image. -/
theorem editRawBinary_flash (hrender : t.image.Renderable)
    (haligned : t.image.Aligned t.address s g) (hedit : t.editImage id t.image.bytes = .ok e)
    (fill : UInt8) (hsize : (t.image.flash fill t.image.bytes).length < Store.offsetLimit)
    {address : Nat} (haddress : t.image.loadAddress t.address = .ok address) (path : String) :
    t.editRawBinary path id (t.image.flash fill t.image.bytes) = .ok (some
      ⟨address - t.image.flashStart + Magic.length, t.image.flash fill e.contents⟩) := by
  obtain ⟨address', old, haddress', hbase, hstart, -, hslice, hwrite⟩ :=
    flash_editImage hrender haligned hedit fill
  rw [haddress] at haddress'
  injection haddress' with haddress'
  subst haddress'
  have hle := Magic.le_length_of_slice hslice
  refine editRawBinary_eq_some_iff.2 ⟨address - t.image.flashStart, ?_, by omega, ?_⟩
  · exact rawOffset?_eq_some_iff.2 ⟨address, _, haddress, hbase,
      .inl ⟨hstart, rfl, Magic.standsAt_iff.2 ⟨old, hslice⟩⟩⟩
  · rw [hwrite]

/-! ## Intel HEX files -/

/-- An Intel HEX file that agrees with an image is stamped where its image loads the placeholder,
and then agrees with the stamped image. -/
theorem editIntelHex_flash (hrender : t.image.Renderable)
    (haligned : t.image.Aligned t.address s g) (hedit : t.editImage id t.image.bytes = .ok e)
    (fill : UInt8) {address : Nat} (haddress : t.image.loadAddress t.address = .ok address)
    {path : String} {b : Bytes} {listing : IntelHex.Listing}
    (hlisting : listingOf path b = .ok listing) (hend : .endOfFile ∈ listing.records)
    (hagrees : listing.Agrees t.image fill t.image.bytes) :
    ∃ b' stamped, t.editIntelHex path id b = .ok ⟨address + Magic.length, b'⟩ ∧
      listingOf path b' = .ok stamped ∧ stamped.Agrees t.image fill e.contents := by
  obtain ⟨address', old, haddress', -, hstart, hloads, hslice, hwrite⟩ :=
    flash_editImage hrender haligned hedit fill
  rw [haddress] at haddress'
  injection haddress' with haddress'
  subst haddress'
  have hlength := placeholderLength_eq t.descriptor.magic old
  have hholds : listing.Holds address (t.descriptor.magic.bytes ++ old.bytes) := by
    intro k hk
    rw [hlength] at hk
    rw [hagrees g haligned.mem_backedSegments _ (hloads k hk), ← hslice, Bytes.getElem?_slice,
      if_pos hk]
    congr 1
    omega
  have hhex : t.hexAddress path = .ok address := hexAddress_of_holds hholds haddress
  obtain ⟨hlimit, hcovered⟩ := writable_of_holds hholds id
  obtain ⟨stamped, text, hstamped, htext⟩ :=
    (wellFormed_of_listingOf hlisting).exists_write? hend hcovered
  refine ⟨Bytes.ofText text, stamped, ?_, listingOf_render hlisting hstamped htext, ?_⟩
  · exact editIntelHex_eq_ok_iff.2 ⟨address, listing, stamped, text, old, hhex, hlisting, hholds,
      hlimit, hstamped, htext, rfl⟩
  · intro k hk x hx
    have hlow := Image.flashStart_le hk
    have hxlow : k.physicalAddress.toNat ≤ x := hx.1
    have hfits := Magic.le_length_of_slice hslice
    rw [hwrite, Bytes.getElem?_overwrite _ _ _ (by rw [id.length_eq]; exact hfits),
      IntelHex.Listing.get?_write? hstamped, ← hagrees k hk x hx]
    by_cases hin : address + Magic.length ≤ x ∧ x < address + Magic.length + id.bytes.length
    · rw [if_pos hin, if_pos (by omega)]
      congr 1
      omega
    · rw [if_neg hin, if_neg (by omega)]

/-! ## Stamping -/

/-- **The formats agree.**  If the executable is stamped, every raw binary and every Intel HEX file
rendered from it is stamped at the load address of the placeholder, and what comes out is rendered
from the stamped executable. -/
theorem stampImage_flash {w w' : Workspace} {o : Outcome} {loc : Location}
    (hrender : t.image.Renderable) (haligned : t.image.Aligned t.address s g)
    (hfile : w.store.file t.image.path = .ok (loc, t.image.bytes))
    (hrun : (t.stampImage id).run w = .ok o w') (fill : UInt8) :
    ∃ new address base, w'.store.file t.image.path = .ok (loc, new) ∧
      t.image.loadAddress t.address = .ok address ∧ t.image.baseAddress = .ok base ∧
      base ≤ address ∧
      (∀ v path l, v.store.file path = .ok (l, t.image.flash fill t.image.bytes) →
        (t.image.flash fill t.image.bytes).length < Store.offsetLimit →
        ∃ v', (t.stampRawBinary path id).run v = .ok (.stamped (address - base + Magic.length)) v' ∧
          v'.store.file path = .ok (l, t.image.flash fill new)) ∧
      ∀ v path l b listing, v.store.file path = .ok (l, b) → listingOf path b = .ok listing →
        .endOfFile ∈ listing.records → listing.Agrees t.image fill t.image.bytes →
        ∃ v' b' stamped,
          (t.stampIntelHex path id).run v = .ok (.stamped (address + Magic.length)) v' ∧
          v'.store.file path = .ok (l, b') ∧ listingOf path b' = .ok stamped ∧
          stamped.Agrees t.image fill new := by
  obtain ⟨e, hedit, -, hstore⟩ := stampImage_eq_ok hfile hrun
  obtain ⟨address, _, haddress, hbase, hstart, -⟩ := flash_editImage hrender haligned hedit fill
  refine ⟨e.contents, address, _, ?_, haddress, hbase, hstart, ?_, ?_⟩
  · rw [hstore]
    exact Store.file_replace_self hfile _
  · intro v path l hbinary hsize
    have hraw := editRawBinary_flash hrender haligned hedit fill hsize haddress path
    obtain ⟨v', hrun', hstore'⟩ := (edits_stamp t .rawBinary path id).run_of_ok hbinary hraw
    refine ⟨v', hrun', ?_⟩
    rw [hstore']
    exact Store.file_replace_self hbinary _
  · intro v path l c listing hhex hlisting hend hagrees
    obtain ⟨c', stamped, hedit', hlisting', hagrees'⟩ :=
      editIntelHex_flash hrender haligned hedit fill haddress hlisting hend hagrees
    obtain ⟨v', hrun', hstore'⟩ := (edits_stamp t .intelHex path id).run_of_ok hhex
      (map_eq_ok.2 ⟨_, hedit', rfl⟩)
    refine ⟨v', c', stamped, hrun', ?_, hlisting', hagrees'⟩
    rw [hstore']
    exact Store.file_replace_self hhex _

/-- An image with memory that is not loaded below its code, and a placeholder in data that are
loaded behind the code and moved elsewhere. -/
def dataSample : Target where
  image := {
    path := "fw.elf"
    bytes := [1, 2, 3, 4, 9] ++ Magic.standard.bytes ++ List.replicate 20 0 ++ [5]
    sections := [⟨"text", 0x8000, 4, 0, true, false⟩, ⟨"data", 0x2000, 26, 4, true, false⟩,
      ⟨"bss", 0x201a, 8, 30, true, true⟩]
    segments := [⟨1, 0x3000, 0x3000, 0, 0, 64, 6⟩, ⟨1, 0x8000, 0x8000, 0, 4, 4, 5⟩,
      ⟨1, 0x2000, 0x8008, 4, 26, 34, 6⟩]
    staticSymbols := none
    dynamicSymbols := none }
  address := 0x2001
  descriptor := .standard

/-- The Intel HEX file of the sample. -/
def dataText : Bytes :=
  Bytes.ofText (":048000000102030472\n" ++
    ":1A80080009F025140000000000000000000000000000000000000000000527\n:00000001FF\n")

/-- The image of the sample and what was rendered from it. -/
def dataBuild : Workspace where
  store := ⟨[(["fw.elf"], .file dataSample.image.bytes),
    (["fw.bin"], .file (dataSample.image.flash 0xff dataSample.image.bytes)),
    (["fw.hex"], .file dataText)]⟩
  notices := []

def dataId : BuildId := ⟨List.replicate 20 7, rfl⟩

/-- The records in the Intel HEX file of the sample. -/
def dataListing : IntelHex.Listing where
  records := [.data 0x8000 [1, 2, 3, 4],
    .data 0x8008 ([9] ++ Magic.standard.bytes ++ List.replicate 20 0 ++ [5]), .endOfFile]

theorem renderable_dataSample : dataSample.image.Renderable where
  inFile := by decide +kernel
  noWrap := by decide +kernel
  apart := by
    have hsegments : dataSample.image.backedSegments =
        [⟨1, 0x8000, 0x8000, 0, 4, 4, 5⟩, ⟨1, 0x2000, 0x8008, 4, 26, 34, 6⟩] := by
      decide +kernel
    rw [hsegments, List.pairwise_pair]
    constructor
    · rintro a ⟨-, hbefore⟩ ⟨hafter, -⟩
      simp only [UInt64.reduceToNat] at hbefore hafter
      omega
    · rintro i ⟨-, hbefore⟩ ⟨hafter, -⟩
      simp only [UInt64.reduceToNat] at hbefore hafter
      omega

theorem agrees_dataListing :
    dataListing.Agrees dataSample.image 0xff dataSample.image.bytes := by
  have hall : ∀ g ∈ dataSample.image.backedSegments, ∀ k, k < g.fileSize.toNat →
      dataListing.get? (g.physicalAddress.toNat + k) =
        (dataSample.image.flash 0xff dataSample.image.bytes)[g.physicalAddress.toNat + k -
          dataSample.image.flashStart]? := by
    decide +kernel
  intro g hg a ha
  have hlow : g.physicalAddress.toNat ≤ a := ha.1
  have hhigh : a < g.physicalAddress.toNat + g.fileSize.toNat := ha.2
  have := hall g hg (a - g.physicalAddress.toNat) (by omega)
  rwa [Nat.add_sub_cancel' hlow] at this

theorem stampImage_dataSample :
    ∃ w' new, (dataSample.stampImage dataId).run dataBuild = .ok (.stamped 9) w' ∧
      w'.store.file "fw.elf" = .ok (["fw.elf"], new) ∧
      (∃ v', (dataSample.stampRawBinary "fw.bin" dataId).run dataBuild = .ok (.stamped 13) v' ∧
        v'.store.file "fw.bin" = .ok (["fw.bin"], dataSample.image.flash 0xff new)) ∧
      ∃ v' b' stamped,
        (dataSample.stampIntelHex "fw.hex" dataId).run dataBuild = .ok (.stamped 0x800d) v' ∧
        v'.store.file "fw.hex" = .ok (["fw.hex"], b') ∧ listingOf "fw.hex" b' = .ok stamped ∧
        stamped.Agrees dataSample.image 0xff new := by
  have haligned : dataSample.image.Aligned dataSample.address
      ⟨"data", 0x2000, 26, 4, true, false⟩ ⟨1, 0x2000, 0x8008, 4, 26, 34, 6⟩ :=
    ⟨by decide +kernel, by decide +kernel, by decide +kernel, by decide +kernel⟩
  have hfile : dataBuild.store.file "fw.elf" = .ok (["fw.elf"], dataSample.image.bytes) := by
    decide +kernel
  have hedit : dataSample.editImage dataId dataSample.image.bytes =
      .ok ⟨9, dataSample.image.bytes.overwrite 9 dataId.bytes⟩ := by
    decide +kernel
  obtain ⟨w', hrun, -⟩ := (edits_stampImage dataSample dataId).run_of_ok hfile
    (map_eq_ok.2 ⟨_, hedit, rfl⟩)
  obtain ⟨new, address, base, hnew, haddress, hbase, -, hbinary, hhex⟩ :=
    stampImage_flash renderable_dataSample haligned hfile hrun 0xff
  have haddress' : dataSample.image.loadAddress dataSample.address = .ok 0x8009 := by
    decide +kernel
  have hbase' : dataSample.image.baseAddress = .ok 0x8000 := by decide +kernel
  rw [haddress'] at haddress
  rw [hbase'] at hbase
  cases haddress
  cases hbase
  refine ⟨w', new, hrun, hnew, ?_, ?_⟩
  · exact hbinary dataBuild "fw.bin" ["fw.bin"] (by decide +kernel) (by decide +kernel)
  · exact hhex dataBuild "fw.hex" ["fw.hex"] dataText dataListing (by decide +kernel)
      (by decide +kernel) (by decide +kernel) agrees_dataListing

end Target

end FirmwareStamp
