import FirmwareStamp.Proofs.HexSlots
import FirmwareStamp.Proofs.OneFile
import FirmwareStamp.Proofs.Rerun

/-!
# Stamping, reading and stamping again

An Intel HEX file and an executable that were stamped are read with the ID and the place they were
stamped with, and forget it when they are stamped with another ID: that gives the contents it would
have given without the first (`Target.StampsAlike`).

    (t.stampIntelHex path id).run w = .ok (.stamped place) w' →
      t.readIntelHex w'.store path = .ok (place, id) ∧ t.StampsAlike .intelHex path place w w'
                                                                    (readIntelHex_stampIntelHex)

An executable is placed by its own section table, so the stamped one has to be read with the
section table it had (`readExecutable_stampExecutable`).  An Intel HEX file needs nothing: its
records keep their outline, and every address keeps its slot.
-/

namespace FirmwareStamp

/-- Whether contents are read as an executable with the section table that other contents have. -/
def KeepsSections (path : String) (old new : Bytes) : Prop :=
  ∃ image again, Image.parse path old = .ok image ∧ Image.parse path new = .ok again ∧
    again.sections = image.sections

namespace IntelHex

namespace Listing

/-- Listings of one outline can be rendered alike. -/
theorem exists_render_of_outline {l m : Listing} {text : String} (h : m.outline = l.outline)
    (hl : l.render = .ok text) : ∃ text', m.render = .ok text' := by
  unfold render at hl ⊢
  split at hl
  · next hlast => exact ⟨_, if_pos ((getLast?_eq_endOfFile_iff h).2 hlast)⟩
  · contradiction

end Listing

end IntelHex

namespace Image

/-- An offset in the file is one of the section table. -/
theorem fileOffset_congr {image again : Image} (h : again.sections = image.sections)
    {address offset : Nat} (hoffset : image.fileOffset address = .ok offset) :
    again.fileOffset address = .ok offset := by
  obtain ⟨s, hs, hsum, hlt⟩ := fileOffset_eq_ok_iff.1 hoffset
  refine fileOffset_eq_ok_iff.2 ⟨s, ?_, hsum, hlt⟩
  unfold backingSection? at hs ⊢
  rw [h]
  exact hs

end Image

namespace Target

/-- Whether any ID is stamped into a file of two workspaces in the same place, and gives the file
the same contents in both. -/
def StampsAlike (t : Target) (format : FileFormat) (path : String) (place : Nat)
    (w w' : Workspace) : Prop :=
  ∀ id, ∃ u u' loc contents,
    (t.stamp format path id).run w = .ok (.stamped place) u ∧
    (t.stamp format path id).run w' = .ok (.stamped place) u' ∧
    u.store.file path = .ok (loc, contents) ∧ u'.store.file path = .ok (loc, contents)

variable {t : Target} {format : FileFormat} {path : String} {id : BuildId} {place : Nat}
  {b new : Bytes} {e : Edit} {w w' : Workspace} {loc : Location}

/-- Files are stamped alike if their edits are the same. -/
theorem stampsAlike_of_edit (hfile : w.store.file path = .ok (loc, b))
    (hfile' : w'.store.file path = .ok (loc, new))
    (h : ∀ id, ∃ e, e.place = place ∧ t.edit format path id b = .ok (some e) ∧
      t.edit format path id new = .ok (some e)) :
    t.StampsAlike format path place w w' := by
  intro id
  obtain ⟨e, rfl, hedit, hedit'⟩ := h id
  obtain ⟨u, hrun, hstore⟩ := (edits_stamp t format path id).run_of_ok hfile hedit
  obtain ⟨u', hrun', hstore'⟩ := (edits_stamp t format path id).run_of_ok hfile' hedit'
  refine ⟨u, u', loc, e.contents, hrun, hrun', ?_, ?_⟩
  · rw [hstore]
    exact Store.file_replace_self hfile _
  · rw [hstore']
    exact Store.file_replace_self hfile' _

/-! ## Intel HEX files -/

/-- A second edit of an Intel HEX file is the edit there is without the first. -/
theorem editIntelHex_editIntelHex (h : t.editIntelHex path id b = .ok e) (id' : BuildId) :
    ∃ e', e'.place = e.place ∧ t.editIntelHex path id' b = .ok e' ∧
      t.editIntelHex path id' e.contents = .ok e' := by
  obtain ⟨address, listing, stamped, text, old, haddress, hlisting, hholds, hlimit, hwrite,
    hrender, rfl⟩ := editIntelHex_eq_ok_iff.1 h
  have hlength : id.bytes.length = id'.bytes.length := by rw [id.length_eq, id'.length_eq]
  obtain ⟨last, hlast⟩ := Option.isSome_iff_exists.1
    (IntelHex.Listing.write?_isSome (writable_of_holds hholds id').2)
  have hover : stamped.write? (address + Magic.length) id'.bytes = some last := by
    rw [IntelHex.Listing.write?_write? hwrite hlength, hlast]
  have houtline : last.outline = stamped.outline := IntelHex.Listing.outline_write? hover
  obtain ⟨lastText, hlastText⟩ := IntelHex.Listing.exists_render_of_outline houtline hrender
  refine ⟨⟨address + Magic.length, Bytes.ofText lastText⟩, rfl, ?_, ?_⟩
  · exact editIntelHex_eq_ok_iff.2 ⟨address, listing, last, lastText, old, haddress, hlisting,
      hholds, hlimit, hlast, hlastText, rfl⟩
  · exact editIntelHex_eq_ok_iff.2 ⟨address, stamped, last, lastText, id, haddress,
      listingOf_render hlisting hwrite hrender, holds_stamped hholds hwrite, hlimit, hover,
      hlastText, rfl⟩

/-- **Intel HEX files.**  One that is stamped has the ID at the load address of the placeholder,
after the magic.  What is rendered reads as a listing with the records it had, their kinds, places
and lengths, that differs at the addresses of the ID alone.  The ID is read where it was written,
and is forgotten when another one is written. -/
theorem readIntelHex_stampIntelHex (h : (t.stampIntelHex path id).run w = .ok (.stamped place) w') :
    ∃ address before after,
      t.image.loadAddress t.address = .ok address ∧ place = address + Magic.length ∧
      w.store.listing path = .ok before ∧ w'.store.listing path = .ok after ∧
      after.outline = before.outline ∧ id.ReplacesAt place before after ∧
      t.readIntelHex w'.store path = .ok (place, id) ∧
      t.StampsAlike .intelHex path place w w' := by
  obtain ⟨loc, b, contents, hfile, hedit?, -, hfile'⟩ := edit_of_stamp .intelHex h
  have hedit := edit_intelHex_eq_some_iff.1 hedit?
  obtain ⟨address, listing, stamped, text, old, haddress, hlisting, -, -, hwrite, hrender, heq⟩ :=
    editIntelHex_eq_ok_iff.1 hedit
  cases heq
  refine ⟨address, listing, stamped, loadAddress_of_hexAddress haddress, rfl, ?_, ?_,
    IntelHex.Listing.outline_write? hwrite, ?_, ?_, ?_⟩
  · rw [Store.listing_eq_listingOf hfile, hlisting]
  · rw [Store.listing_eq_listingOf hfile', listingOf_render hlisting hwrite hrender]
  · intro a
    rw [IntelHex.Listing.get?_write? hwrite, id.length_eq]
    rfl
  · have hread : t.readIntelHex w'.store path = t.readBytes .intelHex path _ :=
      read_eq_readBytes .intelHex hfile'
    rw [hread]
    exact (editIntelHex_again hedit).2
  · refine stampsAlike_of_edit hfile hfile' fun id' => ?_
    obtain ⟨e', hplace, hfirst, hsecond⟩ := editIntelHex_editIntelHex hedit id'
    exact ⟨e', hplace, edit_intelHex_eq_some_iff.2 hfirst, edit_intelHex_eq_some_iff.2 hsecond⟩

/-- An image whose placeholder is loaded where the upper half of the address changes. -/
def straddlingHexTarget : Target where
  image := { loneTarget.image with segments := [⟨1, 0x1000, 0x0800fffa, 0, 24, 24, 4⟩] }
  address := 0x1000
  descriptor := .standard

/-- An Intel HEX file of the image.  The ID begins in one record and goes on in two, of which the
first hides the beginning of the second. -/
def straddlingHexBuild : Workspace where
  store := ⟨[(["fw.hex"], .file (Bytes.ofText
    (":020000040800F2\n:08FFF8000102F02514000000D5\n:020000040801F1\n" ++
      ":0A00000000000000000000000000F6\n:0C000800AABB0000000000000000070878\n" ++
      ":0400000508000000EF\n:00000001FF\n")))]⟩
  notices := []

/-- The build with its Intel HEX file stamped. -/
def straddlingHexEnd : Workspace where
  store := ⟨[(["fw.hex"], .file (Bytes.ofText
    (":020000040800F2\n:08FFF8000102F02514000909C3\n:020000040801F1\n" ++
      ":0A000000090909090909090909099C\n:0C000800AABB0909090909090909070830\n" ++
      ":0400000508000000EF\n:00000001FF\n")))]⟩
  notices := [.stamping .intelHex "fw.hex" loneId 0x0800fffe]

theorem readIntelHex_straddlingHexEnd :
    (straddlingHexTarget.stampIntelHex "fw.hex" loneId).run straddlingHexBuild =
        .ok (.stamped 0x0800fffe) straddlingHexEnd ∧
      straddlingHexTarget.readIntelHex straddlingHexEnd.store "fw.hex" =
        .ok (0x0800fffe, loneId) ∧
      straddlingHexTarget.StampsAlike .intelHex "fw.hex" 0x0800fffe straddlingHexBuild
        straddlingHexEnd := by
  have hrun : (straddlingHexTarget.stampIntelHex "fw.hex" loneId).run straddlingHexBuild =
      .ok (.stamped 0x0800fffe) straddlingHexEnd := by
    decide +kernel
  obtain ⟨_, _, _, -, -, -, -, -, -, hread, halike⟩ := readIntelHex_stampIntelHex hrun
  exact ⟨hrun, hread, halike⟩

/-! ## Executables -/

/-- A second edit of an executable with the section table it had is the edit there is without the
first. -/
theorem edit_executable_again (h : t.edit .executable path id b = .ok (some e))
    (hkeeps : KeepsSections path b e.contents) :
    t.readBytes .executable path e.contents = .ok (e.place, id) ∧
      ∀ id', ∃ e', e'.place = e.place ∧ t.edit .executable path id' b = .ok (some e') ∧
        t.edit .executable path id' e.contents = .ok (some e') := by
  obtain ⟨image, offset, old, himage, hoffset, hlimit, hslice, rfl⟩ :=
    edit_executable_eq_some_iff.1 h
  obtain ⟨image', again, himage', hagain, hsections⟩ := hkeeps
  rw [himage] at himage'
  injection himage' with himage'
  subst himage'
  have hoffset' : again.fileOffset t.address = .ok offset :=
    Image.fileOffset_congr hsections hoffset
  have hstamped := Magic.slice_overwrite_value hslice id
  constructor
  · exact readBytes_executable_eq_ok_iff.2 ⟨again, offset, hagain, hoffset', hstamped, rfl⟩
  · intro id'
    refine ⟨⟨offset + Magic.length, b.overwrite (offset + Magic.length) id'.bytes⟩, rfl, ?_, ?_⟩
    · exact edit_executable_eq_some_iff.2 ⟨image, offset, old, himage, hoffset, hlimit, hslice, rfl⟩
    · refine edit_executable_eq_some_iff.2
        ⟨again, offset, id, hagain, hoffset', hlimit, hstamped, ?_⟩
      rw [Bytes.overwrite_overwrite]
      · rw [id.length_eq, id'.length_eq]
      · rw [id'.length_eq]
        exact Magic.le_length_of_slice hslice

/-- **Executables.**  One that is stamped has the ID, after the magic, where its own section table
puts the placeholder, in the stead of the bytes there, and all within the file.  If it is then read
with the section table it had, the ID is read where it was written, and is forgotten when another
one is written. -/
theorem readExecutable_stampExecutable
    (h : (t.stampExecutable path id).run w = .ok (.stamped place) w') :
    ∃ loc old new image offset, w.store.file path = .ok (loc, old) ∧
      w'.store = w.store.replace loc new ∧ w'.store.file path = .ok (loc, new) ∧
      Image.parse path old = .ok image ∧ image.fileOffset t.address = .ok offset ∧
      place = offset + Magic.length ∧ place + BuildId.length ≤ old.length ∧
      id.Replaces place old new ∧
      (KeepsSections path old new →
        t.readExecutable w'.store path = .ok (place, id) ∧
        t.StampsAlike .executable path place w w') := by
  obtain ⟨loc, b, new, hfile, hedit, hstore, hfile'⟩ := edit_of_stamp .executable h
  have hagain := edit_executable_again hedit
  obtain ⟨image, offset, old, himage, hoffset, -, hslice, heq⟩ := edit_executable_eq_some_iff.1 hedit
  cases heq
  have hfits := Magic.le_length_of_slice hslice
  refine ⟨loc, b, _, image, offset, hfile, hstore, hfile', himage, hoffset, rfl, hfits,
    id.replaces_overwrite hfits, fun hkeeps => ?_⟩
  obtain ⟨hread, halike⟩ := hagain hkeeps
  refine ⟨?_, stampsAlike_of_edit hfile hfile' halike⟩
  have hread' : t.readExecutable w'.store path = t.readBytes .executable path _ :=
    read_eq_readBytes .executable hfile'
  rw [hread']
  exact hread

/-- A linked image without sections, whose placeholder a copy of another layout holds. -/
def siblingTarget : Target where
  image := loneTarget.image
  address := 0x1002
  descriptor := ⟨"id", .standard⟩

def siblingBuild : Workspace where
  store := ⟨[(["a.strip"], .file sampleElf)]⟩
  notices := []

def siblingEnd : Workspace where
  store := ⟨[(["a.strip"], .file (sampleElf.overwrite 90 loneId.bytes))]⟩
  notices := [.stamping .executable "a.strip" loneId 90]

theorem readExecutable_siblingEnd :
    (siblingTarget.stampExecutable "a.strip" loneId).run siblingBuild =
        .ok (.stamped 90) siblingEnd ∧
      KeepsSections "a.strip" sampleElf (sampleElf.overwrite 90 loneId.bytes) ∧
      siblingTarget.readExecutable siblingEnd.store "a.strip" = .ok (90, loneId) ∧
      siblingTarget.StampsAlike .executable "a.strip" 90 siblingBuild siblingEnd := by
  have hrun : (siblingTarget.stampExecutable "a.strip" loneId).run siblingBuild =
      .ok (.stamped 90) siblingEnd := by
    decide +kernel
  have hold : siblingBuild.store.file "a.strip" = .ok (["a.strip"], sampleElf) := by decide +kernel
  have hnew : siblingEnd.store.file "a.strip" =
      .ok (["a.strip"], sampleElf.overwrite 90 loneId.bytes) := by
    decide +kernel
  have hkeeps : KeepsSections "a.strip" sampleElf (sampleElf.overwrite 90 loneId.bytes) :=
    ⟨{ sampleTarget.image with path := "a.strip" },
      { sampleTarget.image with
        path := "a.strip"
        bytes := sampleElf.overwrite 90 loneId.bytes },
      by decide +kernel, by decide +kernel, rfl⟩
  obtain ⟨loc, old, new, _, _, hfile, -, hfile', -, -, -, -, -, hread⟩ :=
    readExecutable_stampExecutable hrun
  rw [hold] at hfile
  cases hfile
  rw [hnew] at hfile'
  cases hfile'
  exact ⟨hrun, hkeeps, hread hkeeps⟩

end Target

end FirmwareStamp
