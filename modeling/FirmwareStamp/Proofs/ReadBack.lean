import FirmwareStamp.Proofs.Edit
import FirmwareStamp.Proofs.HexMemory

/-!
# Reading back what was stamped

What an edit leaves is read as the ID that was written, from where it was written, and the same
edit made again changes nothing (`edit_again`).  An Intel HEX file needs nothing for that; an
executable must be read with the tables it had, and the placeholder of a raw binary must not be
mistaken for another (`FindsAgain`).
-/

namespace FirmwareStamp

/-- Whether an image is read from its stamped file with the tables it had. -/
def Image.KeepsTables (image : Image) (e : Edit) : Prop :=
  Image.parse image.path e.contents = .ok { image with bytes := e.contents }

namespace Target

/-- Whether the placeholder of a stamped raw binary stands where its load address puts it, or is
the only one. -/
def IsLocated (t : Target) (e : Edit) : Prop :=
  (∃ address base, t.image.loadAddress t.address = .ok address ∧ t.image.baseAddress = .ok base ∧
    base ≤ address ∧ e.place = address - base + Magic.length) ∨
  ∀ o, t.descriptor.magic.standsAt e.contents o = true → e.place = o + Magic.length

/-- Whether a format finds the placeholder again in contents `b` after an edit. -/
def FindsAgain (t : Target) (format : FileFormat) (path : String) (b : Bytes) (e : Edit) : Prop :=
  match format with
  | .executable => ∀ image, Image.parse path b = .ok image → image.KeepsTables e
  | .intelHex => True
  | .rawBinary => t.IsLocated e

variable {t : Target} {path : String} {id found : BuildId} {place : Nat} {b : Bytes} {e : Edit}

/-! ## Executables -/

theorem editImage_eq_ok_iff :
    t.editImage id b = .ok e ↔ ∃ offset, ∃ old : BuildId,
      t.image.fileOffset t.address = .ok offset ∧
      offset + placeholderLength < Store.offsetLimit ∧
      b.slice offset placeholderLength = t.descriptor.magic.bytes ++ old.bytes ∧
      e = ⟨offset + Magic.length, b.overwrite (offset + Magic.length) id.bytes⟩ := by
  unfold editImage
  constructor
  · intro h
    obtain ⟨offset, hoffset, h⟩ := bind_eq_ok.1 h
    split at h
    · next hlimit =>
      obtain ⟨old, hcheck, h⟩ := bind_eq_ok.1 h
      injection h with h
      exact ⟨offset, old, hoffset, hlimit, Descriptor.check_eq_ok_iff.1 hcheck, h.symm⟩
    · contradiction
  · rintro ⟨offset, old, hoffset, hlimit, hslice, rfl⟩
    rw [hoffset, ok_bind, if_pos hlimit, Descriptor.check_eq_ok_iff.2 hslice]
    rfl

theorem edit_executable_eq_some_iff :
    t.edit .executable path id b = .ok (some e) ↔ ∃ image offset, ∃ old : BuildId,
      Image.parse path b = .ok image ∧ image.fileOffset t.address = .ok offset ∧
      offset + placeholderLength < Store.offsetLimit ∧
      b.slice offset placeholderLength = t.descriptor.magic.bytes ++ old.bytes ∧
      e = ⟨offset + Magic.length, b.overwrite (offset + Magic.length) id.bytes⟩ := by
  unfold edit
  constructor
  · intro h
    obtain ⟨image, himage, h⟩ := bind_eq_ok.1 h
    obtain ⟨_, hedit, ⟨⟩⟩ := map_eq_ok.1 h
    obtain ⟨offset, old, h⟩ := editImage_eq_ok_iff.1 hedit
    exact ⟨image, offset, old, himage, h⟩
  · rintro ⟨image, offset, old, himage, h⟩
    dsimp only
    rw [himage, ok_bind]
    exact map_eq_ok.2 ⟨e, editImage_eq_ok_iff.2 ⟨offset, old, h⟩, rfl⟩

theorem readImage_eq_ok_iff :
    t.readImage = .ok (place, found) ↔ ∃ offset, t.image.fileOffset t.address = .ok offset ∧
      t.image.bytes.slice offset placeholderLength = t.descriptor.magic.bytes ++ found.bytes ∧
      place = offset + Magic.length := by
  unfold readImage
  constructor
  · intro h
    obtain ⟨offset, hoffset, h⟩ := bind_eq_ok.1 h
    obtain ⟨id, hcheck, h⟩ := bind_eq_ok.1 h
    injection h with h
    injection h with hplace hfound
    subst hfound
    exact ⟨offset, hoffset, Descriptor.check_eq_ok_iff.1 hcheck, hplace.symm⟩
  · rintro ⟨offset, hoffset, hslice, rfl⟩
    rw [hoffset, ok_bind, Descriptor.check_eq_ok_iff.2 hslice]
    rfl

theorem readBytes_executable_eq_ok_iff :
    t.readBytes .executable path b = .ok (place, found) ↔ ∃ image offset,
      Image.parse path b = .ok image ∧ image.fileOffset t.address = .ok offset ∧
      b.slice offset placeholderLength = t.descriptor.magic.bytes ++ found.bytes ∧
      place = offset + Magic.length := by
  unfold readBytes
  constructor
  · intro h
    obtain ⟨image, himage, h⟩ := bind_eq_ok.1 h
    obtain ⟨offset, hoffset, hslice, hplace⟩ := readImage_eq_ok_iff.1 h
    rw [Image.bytes_of_parse himage] at hslice
    exact ⟨image, offset, himage, hoffset, hslice, hplace⟩
  · rintro ⟨image, offset, himage, hoffset, hslice, hplace⟩
    dsimp only
    rw [himage, ok_bind, readImage_eq_ok_iff]
    refine ⟨offset, hoffset, ?_, hplace⟩
    rw [Image.bytes_of_parse himage]
    exact hslice

/-- An image whose file was stamped is read as stamped, and stamped once more stays as it is. -/
theorem editImage_again (h : t.editImage id b = .ok e) :
    t.editImage id e.contents = .ok e ∧
      { t with image := { t.image with bytes := e.contents } }.readImage = .ok (e.place, id) := by
  obtain ⟨offset, old, hoffset, hlimit, hslice, rfl⟩ := editImage_eq_ok_iff.1 h
  have hstamped := Magic.slice_overwrite_value hslice id
  have hle := Magic.le_length_of_slice hslice
  constructor
  · refine editImage_eq_ok_iff.2 ⟨offset, id, hoffset, hlimit, hstamped, ?_⟩
    rw [Bytes.overwrite_overwrite b _ _ _ rfl]
    rw [id.length_eq]
    exact hle
  · exact readImage_eq_ok_iff.2 ⟨offset, hoffset, hstamped, rfl⟩

/-! ## Intel HEX files -/

theorem check_read_eq_ok_iff {d : Descriptor} {listing : IntelHex.Listing} {address : Nat}
    {old : BuildId} :
    d.check path address (listing.read address placeholderLength) = .ok old ↔
      listing.Holds address (d.magic.bytes ++ old.bytes) := by
  have hlen := placeholderLength_eq d.magic old
  rw [Descriptor.check_eq_ok_iff, ← IntelHex.Listing.read_eq_iff (by rw [hlen]; decide), hlen]

/-- Where a placeholder is read in a listing every value byte has an address and is covered. -/
theorem writable_of_holds {listing : IntelHex.Listing} {m : Magic} {address : Nat}
    (h : listing.Holds address (m.bytes ++ found.bytes)) (id : BuildId) :
    address + Magic.length < IntelHex.addressLimit ∧ ∀ k, k < id.bytes.length →
      (listing.get? (address + Magic.length + k)).isSome = true := by
  have hlength := placeholderLength_eq m found
  refine ⟨h.lt_addressLimit (by rw [hlength]; decide), ?_⟩
  intro k hk
  rw [id.length_eq] at hk
  rw [Nat.add_assoc]
  refine h.get?_isSome ?_
  rw [hlength]
  simp only [placeholderLength, BuildId.length]
  omega

theorem loadAddress_of_hexAddress {address : Nat} (h : t.hexAddress path = .ok address) :
    t.image.loadAddress t.address = .ok address := by
  unfold hexAddress at h
  obtain ⟨a, ha, h⟩ := bind_eq_ok.1 h
  split at h
  · injection h with h
    rw [ha, h]
  · contradiction

/-- A load address at which a placeholder is read in a listing is one of an Intel HEX file. -/
theorem hexAddress_of_holds {listing : IntelHex.Listing} {m : Magic} {address : Nat}
    (h : listing.Holds address (m.bytes ++ found.bytes))
    (haddress : t.image.loadAddress t.address = .ok address) :
    t.hexAddress path = .ok address := by
  have hlow : address + 0 < IntelHex.addressLimit :=
    h.lt_addressLimit (by rw [placeholderLength_eq]; decide)
  rw [Nat.add_zero] at hlow
  unfold hexAddress
  rw [haddress, ok_bind, if_pos hlow]
  rfl

theorem editIntelHex_eq_ok_iff :
    t.editIntelHex path id b = .ok e ↔ ∃ address listing stamped text, ∃ old : BuildId,
      t.hexAddress path = .ok address ∧ listingOf path b = .ok listing ∧
      listing.Holds address (t.descriptor.magic.bytes ++ old.bytes) ∧
      address + Magic.length < IntelHex.addressLimit ∧
      listing.write? (address + Magic.length) id.bytes = some stamped ∧
      stamped.render = .ok text ∧ e = ⟨address + Magic.length, Bytes.ofText text⟩ := by
  unfold editIntelHex
  constructor
  · intro h
    obtain ⟨address, haddress, h⟩ := bind_eq_ok.1 h
    obtain ⟨listing, hlisting, h⟩ := bind_eq_ok.1 h
    obtain ⟨old, hcheck, h⟩ := bind_eq_ok.1 h
    dsimp only at h
    split at h
    · contradiction
    · next hlimit =>
      split at h
      · contradiction
      · next stamped hwrite =>
        obtain ⟨text, htext, h⟩ := bind_eq_ok.1 h
        injection h with h
        refine ⟨address, listing, stamped, text, old, haddress, hlisting,
          check_read_eq_ok_iff.1 hcheck, by omega, hwrite, ?_, h.symm⟩
        cases hrender : stamped.render with
        | error fault =>
          rw [hrender] at htext
          contradiction
        | ok text' =>
          rw [hrender] at htext
          injection htext with htext
          rw [htext]
  · rintro ⟨address, listing, stamped, text, old, haddress, hlisting, hholds, hlimit, hwrite,
      hrender, rfl⟩
    rw [haddress, ok_bind, hlisting, ok_bind, check_read_eq_ok_iff.2 hholds, ok_bind]
    dsimp only
    rw [if_neg (by omega), hwrite]
    dsimp only
    rw [hrender]
    rfl

theorem edit_intelHex_eq_some_iff :
    t.edit .intelHex path id b = .ok (some e) ↔ t.editIntelHex path id b = .ok e := by
  unfold edit
  simp [map_eq_ok]

theorem readBytes_intelHex_eq_ok_iff :
    t.readBytes .intelHex path b = .ok (place, found) ↔ ∃ address listing,
      t.hexAddress path = .ok address ∧ listingOf path b = .ok listing ∧
      listing.Holds address (t.descriptor.magic.bytes ++ found.bytes) ∧
      place = address + Magic.length := by
  unfold readBytes
  constructor
  · intro h
    obtain ⟨address, haddress, h⟩ := bind_eq_ok.1 h
    obtain ⟨listing, hlisting, h⟩ := bind_eq_ok.1 h
    obtain ⟨id, hcheck, h⟩ := bind_eq_ok.1 h
    injection h with h
    injection h with hplace hfound
    subst hfound
    exact ⟨address, listing, haddress, hlisting, check_read_eq_ok_iff.1 hcheck, hplace.symm⟩
  · rintro ⟨address, listing, haddress, hlisting, hholds, rfl⟩
    dsimp only
    rw [haddress, ok_bind, hlisting, ok_bind, check_read_eq_ok_iff.2 hholds]
    rfl

theorem wellFormed_of_listingOf {listing : IntelHex.Listing} (h : listingOf path b = .ok listing) :
    listing.WellFormed := by
  unfold listingOf at h
  split at h
  · next text _ =>
    cases hparse : IntelHex.Listing.parse text with
    | error fault =>
      rw [hparse] at h
      contradiction
    | ok l =>
      rw [hparse] at h
      injection h with h
      rw [← h]
      exact IntelHex.Listing.wellFormed_of_parse hparse
  · contradiction

/-- The text of a listing that was changed is read as the changed listing. -/
theorem listingOf_render {listing stamped : IntelHex.Listing} {place : Nat} {new : Bytes}
    {text : String} (hlisting : listingOf path b = .ok listing)
    (hwrite : listing.write? place new = some stamped) (hrender : stamped.render = .ok text) :
    listingOf path (Bytes.ofText text) = .ok stamped := by
  have hwell := wellFormed_of_listingOf hlisting
  unfold listingOf
  rw [Bytes.text?_ofText]
  dsimp only
  rw [IntelHex.Listing.parse_render (hwell.write? hwrite) hrender]
  rfl

/-- The magic that stood before the value bytes stands before the new ones. -/
theorem holds_stamped {listing stamped : IntelHex.Listing} {m : Magic} {address : Nat}
    {old : BuildId} (h : listing.Holds address (m.bytes ++ old.bytes))
    (hwrite : listing.write? (address + Magic.length) id.bytes = some stamped) :
    stamped.Holds address (m.bytes ++ id.bytes) := by
  intro k hk
  rw [placeholderLength_eq, placeholderLength] at hk
  have hmagic : m.bytes.length = Magic.length := m.length_eq
  have hid : id.bytes.length = BuildId.length := id.length_eq
  rw [IntelHex.Listing.get?_write? hwrite, hid]
  by_cases hvalue : Magic.length ≤ k
  · rw [if_pos (by omega), List.getElem?_append_right (by omega), hmagic,
      show address + k - (address + Magic.length) = k - Magic.length by omega]
  · rw [if_neg (by omega), h k (by rw [placeholderLength_eq, placeholderLength]; omega),
      List.getElem?_append_left (by omega), List.getElem?_append_left (by omega)]

theorem editIntelHex_again (h : t.editIntelHex path id b = .ok e) :
    t.editIntelHex path id e.contents = .ok e ∧
      t.readBytes .intelHex path e.contents = .ok (e.place, id) := by
  obtain ⟨address, listing, stamped, text, old, haddress, hlisting, hholds, hlimit, hwrite,
    hrender, rfl⟩ := editIntelHex_eq_ok_iff.1 h
  have hstamped := listingOf_render hlisting hwrite hrender
  have hnew := holds_stamped hholds hwrite
  constructor
  · refine editIntelHex_eq_ok_iff.2 ⟨address, stamped, stamped, text, id, haddress, hstamped, hnew,
      hlimit, ?_, hrender, rfl⟩
    exact IntelHex.Listing.write?_eq_self (IntelHex.Listing.holds_of_write? hwrite)
  · exact readBytes_intelHex_eq_ok_iff.2 ⟨address, stamped, haddress, hstamped, hnew, rfl⟩

/-! ## Raw binaries -/

theorem editRawBinary_eq_some_iff :
    t.editRawBinary path id b = .ok (some e) ↔ ∃ offset, t.rawOffset? b = .ok (some offset) ∧
      offset + placeholderLength < Store.offsetLimit ∧
      e = ⟨offset + Magic.length, b.overwrite (offset + Magic.length) id.bytes⟩ := by
  unfold editRawBinary
  constructor
  · intro h
    obtain ⟨found, hfound, h⟩ := bind_eq_ok.1 h
    cases found with
    | none => cases h
    | some offset =>
      dsimp only at h
      split at h
      · next hlimit =>
        injection h with h
        injection h with h
        exact ⟨offset, hfound, hlimit, h.symm⟩
      · contradiction
  · rintro ⟨offset, hfound, hlimit, rfl⟩
    rw [hfound, ok_bind]
    dsimp only
    rw [if_pos hlimit]
    rfl

theorem readBytes_rawBinary_eq_ok_iff :
    t.readBytes .rawBinary path b = .ok (place, found) ↔ ∃ offset,
      t.rawOffset? b = .ok (some offset) ∧
      b.slice offset placeholderLength = t.descriptor.magic.bytes ++ found.bytes ∧
      place = offset + Magic.length := by
  unfold readBytes
  constructor
  · intro h
    obtain ⟨offset?, hoffset, h⟩ := bind_eq_ok.1 h
    cases offset? with
    | none =>
      obtain ⟨_, -, h⟩ := bind_eq_ok.1 h
      obtain ⟨_, -, h⟩ := bind_eq_ok.1 h
      contradiction
    | some offset =>
      obtain ⟨id, hcheck, h⟩ := bind_eq_ok.1 h
      injection h with h
      injection h with hplace hfound
      subst hfound
      exact ⟨offset, hoffset, Descriptor.check_eq_ok_iff.1 hcheck, hplace.symm⟩
  · rintro ⟨offset, hoffset, hslice, rfl⟩
    dsimp only
    rw [hoffset, ok_bind]
    dsimp only
    rw [Descriptor.check_eq_ok_iff.2 hslice]
    rfl

/-- A search that comes to an end has both addresses it starts from. -/
theorem addresses_of_rawOffset? {offset? : Option Nat} (h : t.rawOffset? b = .ok offset?) :
    ∃ address base, t.image.loadAddress t.address = .ok address ∧
      t.image.baseAddress = .ok base := by
  obtain ⟨address, haddress, h⟩ := bind_eq_ok.1 h
  obtain ⟨base, hbase, -⟩ := bind_eq_ok.1 h
  exact ⟨address, base, haddress, hbase⟩

/-- Where no placeholder is located a raw binary is read to have the wrong header, at the offset that
its load address comes to. -/
theorem readBytes_of_nothing_located {address base : Nat}
    (haddress : t.image.loadAddress t.address = .ok address)
    (hbase : t.image.baseAddress = .ok base) (h : t.rawOffset? b = .ok none) :
    t.readBytes .rawBinary path b = .error (.headerMismatch path (address - base)
      t.descriptor.magic.bytes (b.slice (address - base) Magic.length)) := by
  unfold readBytes
  dsimp only
  rw [h, ok_bind]
  dsimp only
  rw [haddress, hbase]
  rfl

theorem readBytes_of_rawOffset?_eq_none (h : t.rawOffset? b = .ok none) :
    ∃ offset expected found,
      t.readBytes .rawBinary path b = .error (.headerMismatch path offset expected found) := by
  obtain ⟨address, base, haddress, hbase⟩ := addresses_of_rawOffset? h
  exact ⟨_, _, _, readBytes_of_nothing_located haddress hbase h⟩

/-- A placeholder that stands in stamped contents where it is looked for first, or alone, is found
where it was. -/
theorem rawOffset?_again {offset : Nat} (h : t.rawOffset? b = .ok (some offset))
    (hstands : t.descriptor.magic.standsAt e.contents offset = true)
    (hplace : e.place = offset + Magic.length) (hlocated : t.IsLocated e) :
    t.rawOffset? e.contents = .ok (some offset) := by
  obtain ⟨address, base, haddress, hbase, -⟩ := rawOffset?_eq_some_iff.1 h
  refine rawOffset?_eq_some_iff.2 ⟨address, base, haddress, hbase, ?_⟩
  rcases hlocated with ⟨address', base', haddress', hbase', hle, hexpected⟩ | honly
  · rw [haddress] at haddress'
    rw [hbase] at hbase'
    injection haddress' with haddress'
    injection hbase' with hbase'
    exact .inl ⟨by omega, by omega, hstands⟩
  · by_cases hhere : base ≤ address ∧
        t.descriptor.magic.standsAt e.contents (address - base) = true
    · have := honly _ hhere.2
      exact .inl ⟨hhere.1, by omega, hstands⟩
    · refine .inr ⟨hhere, Magic.hits_eq_singleton_iff.2 fun o => ⟨fun ho => ?_, ?_⟩⟩
      · have := honly o ho
        omega
      · rintro rfl
        exact hstands

theorem editRawBinary_again (h : t.editRawBinary path id b = .ok (some e))
    (hlocated : t.IsLocated e) :
    t.editRawBinary path id e.contents = .ok (some e) ∧
      t.readBytes .rawBinary path e.contents = .ok (e.place, id) := by
  obtain ⟨offset, hfound, hlimit, rfl⟩ := editRawBinary_eq_some_iff.1 h
  obtain ⟨old, hslice⟩ := Magic.standsAt_iff.1 (standsAt_of_rawOffset? hfound)
  have hle := Magic.le_length_of_slice hslice
  have hstamped := Magic.slice_overwrite_value hslice id
  have hagain := rawOffset?_again hfound (Magic.standsAt_iff.2 ⟨id, hstamped⟩) rfl hlocated
  constructor
  · refine editRawBinary_eq_some_iff.2 ⟨offset, hagain, hlimit, ?_⟩
    rw [Bytes.overwrite_overwrite b _ _ _ rfl]
    rw [id.length_eq]
    exact hle
  · exact readBytes_rawBinary_eq_ok_iff.2 ⟨offset, hagain, hstamped, rfl⟩

/-! ## Any format -/

/-- **Stamped contents.**  If the placeholder is found again, the ID is read where it was written,
and the same edit changes nothing. -/
theorem edit_again {format : FileFormat} (h : t.edit format path id b = .ok (some e))
    (hfind : t.FindsAgain format path b e) :
    t.edit format path id e.contents = .ok (some e) ∧
      t.readBytes format path e.contents = .ok (e.place, id) := by
  cases format with
  | executable =>
    obtain ⟨image, himage, h⟩ := bind_eq_ok.1 h
    obtain ⟨e', hedit, h⟩ := map_eq_ok.1 h
    injection h with h
    subst h
    obtain rfl := Image.path_of_parse himage
    have hparse : Image.parse image.path e'.contents = _ := hfind image himage
    obtain ⟨hedit', hread⟩ := editImage_again hedit
    constructor
    · unfold edit
      dsimp only
      rw [hparse, ok_bind]
      show some <$> { t with image }.editImage id e'.contents = _
      rw [hedit']
      rfl
    · unfold readBytes
      dsimp only
      rw [hparse, ok_bind]
      exact hread
  | intelHex =>
    obtain ⟨e', hedit, h⟩ := map_eq_ok.1 h
    injection h with h
    subst h
    obtain ⟨hedit', hread⟩ := editIntelHex_again hedit
    exact ⟨map_eq_ok.2 ⟨e', hedit', rfl⟩, hread⟩
  | rawBinary => exact editRawBinary_again h hfind

/-- Only a raw binary is left alone, and then reading it says that there is no placeholder. -/
theorem readBytes_of_edit_eq_none {format : FileFormat} (h : t.edit format path id b = .ok none) :
    format = .rawBinary ∧ ∃ offset expected found,
      t.readBytes format path b = .error (.headerMismatch path offset expected found) := by
  cases format with
  | executable =>
    obtain ⟨_, _, h⟩ := bind_eq_ok.1 h
    obtain ⟨_, _, ⟨⟩⟩ := map_eq_ok.1 h
  | intelHex => obtain ⟨_, _, ⟨⟩⟩ := map_eq_ok.1 h
  | rawBinary =>
    obtain ⟨found, hfound, h⟩ := bind_eq_ok.1 h
    cases found with
    | some offset =>
      dsimp only at h
      split at h
      · injection h with h
        contradiction
      · contradiction
    | none => exact ⟨rfl, readBytes_of_rawOffset?_eq_none hfound⟩

end Target

end FirmwareStamp
