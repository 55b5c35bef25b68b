import FirmwareStamp.Proofs.ReadBack

/-!
# One file: all or nothing, and where it is read

Stamping a file replaces the value bytes of its placeholder and nothing else (`stamps_of_edit`), or
it leaves all files as they were; once the ID is written nothing fails any more
(`stamp_all_or_nothing`).

Stamping and reading find the placeholder by themselves.  They find it in the same place, and what
stops one stops the other (`stamp_read_agreement`):

    t.read format s path = .ok (place, found)  ⟷  stamping has the outcome .stamped place

The one exception is an Intel HEX file without its end-of-file record, which can be read but not
written.
-/

namespace FirmwareStamp

/-! ## What stamping makes of a file -/

/-- Whether contents `new` are contents `old` with an ID in the stead of the bytes from `place`
on. -/
structure BuildId.Replaces (id : BuildId) (place : Nat) (old new : Bytes) : Prop where
  length_eq : new.length = old.length
  getElem?_eq : ∀ i, new[i]? =
    if place ≤ i ∧ i < place + BuildId.length then id.bytes[i - place]? else old[i]?

/-- Whether a listing `new` has an ID from an address on, and what the listing `old` has
everywhere else. -/
def BuildId.ReplacesAt (id : BuildId) (address : Nat) (old new : IntelHex.Listing) : Prop :=
  ∀ a, new.get? a =
    if address ≤ a ∧ a < address + BuildId.length then id.bytes[a - address]? else old.get? a

/-- Whether contents `new` are contents `old` of a file of a format, stamped with an ID from `place`
on. -/
def FileFormat.Stamps (format : FileFormat) (path : String) (m : Magic) (id : BuildId) (place : Nat)
    (old new : Bytes) : Prop :=
  match format with
  | .intelHex => ∃ before after, listingOf path old = .ok before ∧ listingOf path new = .ok after ∧
      id.ReplacesAt place before after
  | .executable | .rawBinary => ∃ offset, place = offset + Magic.length ∧
      old.slice offset Magic.length = m.bytes ∧ id.Replaces place old new

/-- Whether an Intel HEX file does not end with an end-of-file record. -/
def Store.LacksEnd (s : Store) (format : FileFormat) (path : String) : Prop :=
  format = .intelHex ∧ ∃ l, s.listing path = .ok l ∧ l.records.getLast? ≠ some .endOfFile

/-- Whether an error is about what stands in the place of a placeholder. -/
def Error.isAboutPlaceholder : Error → Bool
  | .headerMismatch .. | .truncated .. | .idMismatch .. => true
  | _ => false

/-! ## Edits -/

theorem BuildId.replaces_overwrite (id : BuildId) {b : Bytes} {offset : Nat}
    (h : offset + placeholderLength ≤ b.length) :
    id.Replaces (offset + Magic.length) b (b.overwrite (offset + Magic.length) id.bytes) := by
  have hid : id.bytes.length = BuildId.length := id.length_eq
  have hfits : offset + Magic.length + id.bytes.length ≤ b.length := by
    rw [hid]
    exact h
  refine ⟨Bytes.length_overwrite b _ _ hfits, ?_⟩
  intro i
  rw [Bytes.getElem?_overwrite b _ _ hfits, hid]

/-- A listing and what it was changed into end alike. -/
theorem IntelHex.Listing.getLast?_eq_endOfFile_iff {l m : Listing} (h : m.outline = l.outline) :
    m.records.getLast? = some .endOfFile ↔ l.records.getLast? = some .endOfFile := by
  have hlast := congrArg List.getLast? h
  unfold outline at hlast
  rw [List.getLast?_map, List.getLast?_map] at hlast
  constructor
  · intro hm
    rw [hm] at hlast
    obtain ⟨r, hr, hout⟩ := Option.map_eq_some_iff.1 hlast.symm
    rw [hr, (outline_eq_endOfFile_iff r).1 hout]
  · intro hl
    rw [hl] at hlast
    obtain ⟨r, hr, hout⟩ := Option.map_eq_some_iff.1 hlast
    rw [hr, (outline_eq_endOfFile_iff r).1 hout]

namespace Target

variable {t : Target} {format : FileFormat} {path : String} {id found : BuildId} {place : Nat}
  {b : Bytes} {e : Edit} {w w' : Workspace}

/-- A placeholder is read with the magic before the ID. -/
theorem slice_of_readBytes (h : t.readBytes format path b = .ok (place, found))
    (hformat : format ≠ .intelHex) : ∃ offset, place = offset + Magic.length ∧
      b.slice offset placeholderLength = t.descriptor.magic.bytes ++ found.bytes := by
  cases format with
  | executable =>
    obtain ⟨_, offset, -, -, hslice, hplace⟩ := readBytes_executable_eq_ok_iff.1 h
    exact ⟨offset, hplace, hslice⟩
  | intelHex => contradiction
  | rawBinary =>
    obtain ⟨offset, -, hslice, hplace⟩ := readBytes_rawBinary_eq_ok_iff.1 h
    exact ⟨offset, hplace, hslice⟩

/-- An executable or a raw binary has an edit exactly where an ID is read in it, unless it is too
long to be written into. -/
theorem edit_eq_some_iff (hformat : format ≠ .intelHex) :
    t.edit format path id b = .ok (some e) ↔ ∃ place found,
      t.readBytes format path b = .ok (place, found) ∧
      place + BuildId.length < Store.offsetLimit ∧ e = ⟨place, b.overwrite place id.bytes⟩ := by
  have hlength : ∀ offset, offset + Magic.length + BuildId.length = offset + placeholderLength :=
    fun offset => Nat.add_assoc _ _ _
  cases format with
  | executable =>
    rw [edit_executable_eq_some_iff]
    constructor
    · rintro ⟨image, offset, old, himage, hoffset, hlimit, hslice, rfl⟩
      refine ⟨_, old, readBytes_executable_eq_ok_iff.2
        ⟨image, offset, himage, hoffset, hslice, rfl⟩, ?_, rfl⟩
      rwa [hlength]
    · rintro ⟨place, old, hread, hlimit, rfl⟩
      obtain ⟨image, offset, himage, hoffset, hslice, rfl⟩ := readBytes_executable_eq_ok_iff.1 hread
      rw [hlength] at hlimit
      exact ⟨image, offset, old, himage, hoffset, hlimit, hslice, rfl⟩
  | intelHex => contradiction
  | rawBinary =>
    show t.editRawBinary path id b = _ ↔ _
    rw [editRawBinary_eq_some_iff]
    constructor
    · rintro ⟨offset, hoffset, hlimit, rfl⟩
      obtain ⟨old, hslice⟩ := Magic.standsAt_iff.1 (standsAt_of_rawOffset? hoffset)
      refine ⟨_, old, readBytes_rawBinary_eq_ok_iff.2 ⟨offset, hoffset, hslice, rfl⟩, ?_, rfl⟩
      rwa [hlength]
    · rintro ⟨place, old, hread, hlimit, rfl⟩
      obtain ⟨offset, hoffset, -, rfl⟩ := readBytes_rawBinary_eq_ok_iff.1 hread
      rw [hlength] at hlimit
      exact ⟨offset, hoffset, hlimit, rfl⟩

/-- An executable or a raw binary that is read and is not too long is stamped where it was read. -/
theorem edit_of_readBytes (h : t.readBytes format path b = .ok (place, found))
    (hformat : format ≠ .intelHex) (hsize : b.length < Store.offsetLimit) :
    t.edit format path id b = .ok (some ⟨place, b.overwrite place id.bytes⟩) := by
  refine (edit_eq_some_iff hformat).2 ⟨place, found, h, ?_, rfl⟩
  obtain ⟨offset, rfl, hslice⟩ := slice_of_readBytes h hformat
  have hfits := Magic.le_length_of_slice hslice
  unfold placeholderLength at hfits
  omega

/-- An Intel HEX file has an edit exactly where an ID is read in it, if it can be written. -/
theorem edit_intelHex_eq_some_iff_readBytes :
    t.edit .intelHex path id b = .ok (some e) ↔ ∃ place found listing stamped text,
      t.readBytes .intelHex path b = .ok (place, found) ∧ listingOf path b = .ok listing ∧
      listing.write? place id.bytes = some stamped ∧ stamped.render = .ok text ∧
      e = ⟨place, Bytes.ofText text⟩ := by
  rw [edit_intelHex_eq_some_iff, editIntelHex_eq_ok_iff]
  constructor
  · rintro ⟨address, listing, stamped, text, old, haddress, hlisting, hholds, -, hwrite, hrender,
      rfl⟩
    exact ⟨_, old, listing, stamped, text, readBytes_intelHex_eq_ok_iff.2 ⟨address, listing,
      haddress, hlisting, hholds, rfl⟩, hlisting, hwrite, hrender, rfl⟩
  · rintro ⟨place, old, listing, stamped, text, hread, hlisting, hwrite, hrender, rfl⟩
    obtain ⟨address, listing', haddress, hlisting', hholds, rfl⟩ :=
      readBytes_intelHex_eq_ok_iff.1 hread
    rw [hlisting] at hlisting'
    cases hlisting'
    exact ⟨address, listing, stamped, text, old, haddress, hlisting, hholds,
      (writable_of_holds hholds id).1, hwrite, hrender, rfl⟩

/-- An edit replaces the value bytes of a placeholder. -/
theorem stamps_of_edit (h : t.edit format path id b = .ok (some e)) :
    format.Stamps path t.descriptor.magic id e.place b e.contents := by
  have hbytes : format ≠ .intelHex → ∃ offset, e.place = offset + Magic.length ∧
      b.slice offset Magic.length = t.descriptor.magic.bytes ∧
      id.Replaces e.place b e.contents := by
    intro hformat
    obtain ⟨place, old, hread, -, rfl⟩ := (edit_eq_some_iff hformat).1 h
    obtain ⟨offset, rfl, hslice⟩ := slice_of_readBytes hread hformat
    exact ⟨offset, rfl, Magic.slice_magic hslice,
      id.replaces_overwrite (Magic.le_length_of_slice hslice)⟩
  cases format with
  | executable => exact hbytes (by decide)
  | intelHex =>
    obtain ⟨place, old, listing, stamped, text, -, hlisting, hwrite, hrender, rfl⟩ :=
      edit_intelHex_eq_some_iff_readBytes.1 h
    refine ⟨listing, stamped, hlisting, listingOf_render hlisting hwrite hrender, ?_⟩
    intro a
    have hid : id.bytes.length = BuildId.length := id.length_eq
    rw [IntelHex.Listing.get?_write? hwrite, hid]
  | rawBinary => exact hbytes (by decide)

/-- Where an edit puts the ID there is one to be read. -/
theorem readBytes_of_edit (h : t.edit format path id b = .ok (some e)) :
    ∃ found, t.readBytes format path b = .ok (e.place, found) := by
  by_cases hformat : format = .intelHex
  · subst hformat
    obtain ⟨place, old, _, _, _, hread, -, -, -, rfl⟩ := edit_intelHex_eq_some_iff_readBytes.1 h
    exact ⟨old, hread⟩
  · obtain ⟨place, old, hread, -, rfl⟩ := (edit_eq_some_iff hformat).1 h
    exact ⟨old, hread⟩

/-- An Intel HEX file that is read and ends with its end-of-file record is stamped where it was
read; without that record at its end it cannot be rendered. -/
theorem edit_intelHex_of_readBytes (id : BuildId)
    (h : t.readBytes .intelHex path b = .ok (place, found)) :
    ∃ listing, listingOf path b = .ok listing ∧
      (listing.records.getLast? = some .endOfFile →
        ∃ contents, t.edit .intelHex path id b = .ok (some ⟨place, contents⟩)) ∧
      (listing.records.getLast? ≠ some .endOfFile →
        t.edit .intelHex path id b = .error (.hex path .missingEndOfFile)) := by
  obtain ⟨address, listing, haddress, hlisting, hholds, rfl⟩ := readBytes_intelHex_eq_ok_iff.1 h
  obtain ⟨hlimit, hcovered⟩ := writable_of_holds hholds id
  obtain ⟨stamped, hwrite⟩ :=
    Option.isSome_iff_exists.1 (IntelHex.Listing.write?_isSome hcovered)
  have hend : stamped.records.getLast? = some .endOfFile ↔
      listing.records.getLast? = some .endOfFile :=
    IntelHex.Listing.getLast?_eq_endOfFile_iff (IntelHex.Listing.outline_write? hwrite)
  refine ⟨listing, hlisting, ?_, ?_⟩
  · intro hlast
    have hrender : stamped.render = .ok _ := if_pos (hend.2 hlast)
    exact ⟨_, edit_intelHex_eq_some_iff_readBytes.2 ⟨_, found, listing, stamped, _, h, hlisting,
      hwrite, hrender, rfl⟩⟩
  · intro hlast
    have hrender : stamped.render = .error .missingEndOfFile := if_neg fun k => hlast (hend.1 k)
    unfold edit editIntelHex
    dsimp only
    rw [haddress, ok_bind, hlisting, ok_bind, check_read_eq_ok_iff.2 hholds, ok_bind,
      if_neg (by omega), hwrite]
    dsimp only
    rw [hrender]
    rfl

/-! ## Raw binaries -/

theorem isAboutPlaceholder_of_loadAddress {image : Image} {address : Nat} {e : Error}
    (h : image.loadAddress address = .error e) : e.isAboutPlaceholder = false := by
  unfold Image.loadAddress checkWord at h
  split at h
  · split at h
    · contradiction
    · injection h with h
      rw [← h]
      rfl
  · injection h with h
    rw [← h]
    rfl

theorem isAboutPlaceholder_of_baseAddress {image : Image} {e : Error}
    (h : image.baseAddress = .error e) : e.isAboutPlaceholder = false := by
  unfold Image.baseAddress at h
  split at h
  · contradiction
  · injection h with h
    rw [← h]
    rfl

/-- What stops the search for a placeholder is never what stands in its place. -/
theorem isAboutPlaceholder_of_rawOffset? {e : Error} (h : t.rawOffset? b = .error e) :
    e.isAboutPlaceholder = false := by
  unfold rawOffset? at h
  cases haddress : t.image.loadAddress t.address with
  | error e' =>
    rw [haddress] at h
    injection h with h
    rw [← h]
    exact isAboutPlaceholder_of_loadAddress haddress
  | ok address =>
    cases hbase : t.image.baseAddress with
    | error e' =>
      rw [haddress, hbase] at h
      injection h with h
      rw [← h]
      exact isAboutPlaceholder_of_baseAddress hbase
    | ok base =>
      rw [haddress, ok_bind, hbase, ok_bind] at h
      split at h
      · contradiction
      · split at h <;> contradiction

/-- Reading a raw binary comes of the search: both fail alike, or there is no placeholder and the
header does not match, or the ID of the one that was found is read. -/
theorem readBytes_rawBinary_cases (t : Target) (path : String) (b : Bytes) :
    (∃ e, t.rawOffset? b = .error e ∧ t.readBytes .rawBinary path b = .error e ∧
      e.isAboutPlaceholder = false) ∨
    (t.rawOffset? b = .ok none ∧ ∃ offset expected found,
      t.readBytes .rawBinary path b = .error (.headerMismatch path offset expected found)) ∨
    ∃ offset old, t.rawOffset? b = .ok (some offset) ∧
      t.readBytes .rawBinary path b = .ok (offset + Magic.length, old) := by
  cases hraw : t.rawOffset? b with
  | error e =>
    refine .inl ⟨e, rfl, ?_, isAboutPlaceholder_of_rawOffset? hraw⟩
    unfold readBytes
    dsimp only
    rw [hraw]
    rfl
  | ok offset? =>
    cases offset? with
    | none => exact .inr (.inl ⟨rfl, readBytes_of_rawOffset?_eq_none hraw⟩)
    | some offset =>
      obtain ⟨old, hslice⟩ := Magic.standsAt_iff.1 (standsAt_of_rawOffset? hraw)
      exact .inr (.inr ⟨offset, old, rfl,
        readBytes_rawBinary_eq_ok_iff.2 ⟨offset, hraw, hslice, rfl⟩⟩)

theorem readRawBinary_of_fault {s : Store} {fault : Store.Fault} (h : s.file path = .error fault) :
    t.readRawBinary s path = .error (.io path fault) := by
  simp only [readRawBinary, Store.fetch, Store.read_eq_error h]
  rfl

/-- **Raw binaries.**  Stamping a raw binary and reading it come of one search: both fail alike
before it is through, or there is no placeholder, or both find the same one. -/
theorem stampRawBinary_readRawBinary (t : Target) (id : BuildId)
    (hsize : ∀ loc b, w.store.file path = .ok (loc, b) → b.length < Store.offsetLimit) :
    (∃ e w', (t.stampRawBinary path id).run w = .error e w' ∧
      t.readRawBinary w.store path = .error e ∧ e.isAboutPlaceholder = false) ∨
    (∃ offset expected found w', (t.stampRawBinary path id).run w = .ok .leftAlone w' ∧
      t.readRawBinary w.store path = .error (.headerMismatch path offset expected found)) ∨
    ∃ place found w', (t.stampRawBinary path id).run w = .ok (.stamped place) w' ∧
      t.readRawBinary w.store path = .ok (place, found) := by
  cases hfile : w.store.file path with
  | error fault =>
    have hread := Store.read_eq_error hfile
    refine .inl ⟨.io path fault, w, ?_, readRawBinary_of_fault hfile, rfl⟩
    simp only [stampRawBinary, EStateM.run_bind, Session.run_store, Store.fetch, hread]
    rfl
  | ok entry =>
    obtain ⟨loc, b⟩ := entry
    obtain ⟨notices, hrun⟩ : ∃ notices, (t.stampRawBinary path id).run w =
        w.edited loc notices (t.edit .rawBinary path id b) :=
      run_stampRawBinary hfile
    have hread : t.readRawBinary w.store path = t.readBytes .rawBinary path b :=
      read_eq_readBytes .rawBinary hfile
    rw [hrun, hread]
    rcases t.readBytes_rawBinary_cases path b with ⟨e, hraw, hfails, habout⟩ |
      ⟨hraw, offset, expected, found, hnone⟩ | ⟨offset, old, -, hold⟩
    · have hedit : t.edit .rawBinary path id b = .error e := by
        unfold edit editRawBinary
        dsimp only
        rw [hraw]
        rfl
      rw [hedit]
      exact .inl ⟨e, _, rfl, hfails, habout⟩
    · have hedit : t.edit .rawBinary path id b = .ok none := by
        unfold edit editRawBinary
        dsimp only
        rw [hraw]
        rfl
      rw [hedit]
      exact .inr (.inl ⟨offset, expected, found, _, rfl, hnone⟩)
    · rw [edit_of_readBytes hold (by decide) (hsize loc b hfile)]
      exact .inr (.inr ⟨_, old, _, rfl, hold⟩)

/-! ## Any format -/

/-- Where there is no file nothing is read. -/
theorem exists_file_of_read {s : Store} (h : t.read format s path = .ok (place, found)) :
    ∃ loc b, s.file path = .ok (loc, b) := by
  cases hfile : s.file path with
  | ok entry => exact ⟨entry.1, entry.2, rfl⟩
  | error fault =>
    have hread := Store.read_eq_error hfile
    cases format with
    | executable =>
      simp only [read, readExecutable, Image.load, hread] at h
      contradiction
    | intelHex =>
      obtain ⟨_, -, h⟩ := bind_eq_ok.1 h
      simp only [Store.listing, Store.readText, hread] at h
      contradiction
    | rawBinary =>
      rw [read, readRawBinary_of_fault hfile] at h
      contradiction

theorem read_of_stamp (h : (t.stamp format path id).run w = .ok (.stamped place) w') :
    ∃ found, t.read format w.store path = .ok (place, found) := by
  obtain ⟨loc, b, contents, hfile, hedit, -, -⟩ := edit_of_stamp format h
  rw [read_eq_readBytes format hfile]
  exact readBytes_of_edit hedit

theorem stamp_of_read
    (hsize : ∀ loc b, w.store.file path = .ok (loc, b) → b.length < Store.offsetLimit)
    (h : t.read format w.store path = .ok (place, found)) (hend : ¬ w.store.LacksEnd format path) :
    ∃ w', (t.stamp format path id).run w = .ok (.stamped place) w' := by
  obtain ⟨loc, b, hfile⟩ := exists_file_of_read h
  rw [read_eq_readBytes format hfile] at h
  have hedit : ∃ contents, t.edit format path id b = .ok (some ⟨place, contents⟩) := by
    by_cases hformat : format = .intelHex
    · subst hformat
      obtain ⟨listing, hlisting, hlast, -⟩ := edit_intelHex_of_readBytes id h
      apply hlast
      by_contra hno
      exact hend ⟨rfl, listing, by rw [Store.listing_eq_listingOf hfile, hlisting], hno⟩
    · exact ⟨_, edit_of_readBytes h hformat (hsize loc b hfile)⟩
  obtain ⟨contents, hedit⟩ := hedit
  obtain ⟨w', hrun, -⟩ := (edits_stamp t format path id).run_of_ok hfile hedit
  exact ⟨w', hrun⟩

theorem stamp_of_lacksEnd (h : t.read format w.store path = .ok (place, found))
    (hend : w.store.LacksEnd format path) :
    ∃ w', (t.stamp format path id).run w = .error (.hex path .missingEndOfFile) w' := by
  obtain ⟨rfl, l, hl, hlast⟩ := hend
  obtain ⟨loc, b, hfile⟩ := exists_file_of_read h
  rw [read_eq_readBytes _ hfile] at h
  obtain ⟨listing, hlisting, -, hedit⟩ := edit_intelHex_of_readBytes id h
  rw [Store.listing_eq_listingOf hfile, hlisting] at hl
  cases hl
  obtain ⟨notices, hrun⟩ := (edits_stamp t .intelHex path id).run_of_file hfile
  rw [hedit hlast] at hrun
  exact ⟨_, hrun⟩

/-! ## The main results -/

/-- **All or nothing.**  A file that fails to be stamped, or is left alone, leaves the store as it
was, and one that is stamped has its value bytes replaced.  In a raw binary, once the ID is written,
the checks that follow pass, and the file is stamped. -/
theorem stamp_all_or_nothing (t : Target) (format : FileFormat) (path : String) (id : BuildId)
    (w : Workspace) :
    (∀ e w', (t.stamp format path id).run w = .error e w' → w'.store = w.store) ∧
    (∀ w', (t.stamp format path id).run w = .ok .leftAlone w' → w'.store = w.store) ∧
    (∀ place w', (t.stamp format path id).run w = .ok (.stamped place) w' →
      ∃ loc old new, w.store.file path = .ok (loc, old) ∧ w'.store = w.store.replace loc new ∧
        format.Stamps path t.descriptor.magic id place old new) ∧
    ∀ b offset s', w.store.fetch path = .ok b → t.rawOffset? b = .ok (some offset) →
      w.store.writeAt path (offset + Magic.length) id.bytes = .ok s' →
      ∃ written w', s'.fetch path = .ok written ∧
        t.descriptor.check path offset (written.slice offset placeholderLength) = .ok id ∧
        (t.stampRawBinary path id).run w = .ok (.stamped (offset + Magic.length)) w' ∧
        w'.store = s' := by
  have hedits := edits_stamp t format path id
  refine ⟨fun e w' h => hedits.store_of_error h, ?_, ?_, ?_⟩
  · intro w' h
    obtain ⟨loc, b, e?, -, -, ho, hstore⟩ := hedits.of_ok h
    cases e? with
    | none => exact hstore
    | some e => cases ho
  · intro place w' h
    obtain ⟨loc, b, e?, hfile, hedit, ho, hstore⟩ := hedits.of_ok h
    cases e? with
    | none => cases ho
    | some e =>
      injection ho with ho
      rw [ho]
      exact ⟨loc, b, e.contents, hfile, hstore, stamps_of_edit hedit⟩
  · intro b offset s' hfetch hraw hwrite
    obtain ⟨loc, hfile⟩ := Store.exists_file_of_fetch hfetch
    obtain ⟨old, hslice⟩ := Magic.standsAt_iff.1 (standsAt_of_rawOffset? hraw)
    rw [Store.writeAt_eq hfile] at hwrite
    split at hwrite
    · next hlimit =>
      injection hwrite with hwrite
      subst hwrite
      rw [id.length_eq] at hlimit
      obtain ⟨w', hrun, hstore⟩ := (edits_stamp t .rawBinary path id).run_of_ok hfile
        (editRawBinary_eq_some_iff.2 ⟨offset, hraw, hlimit, rfl⟩)
      exact ⟨_, w', Store.fetch_eq_ok (Store.file_replace_self hfile _),
        Descriptor.check_eq_ok_iff.2 (Magic.slice_overwrite_value hslice id), hrun, hstore⟩
    · contradiction

/-- An image that starts with its placeholder and is loaded at 0x8000. -/
def loneTarget : Target where
  image := {
    path := "fw.elf"
    bytes := []
    sections := []
    segments := [⟨1, 0x1000, 0x8000, 0, 24, 24, 4⟩]
    staticSymbols := none
    dynamicSymbols := none }
  address := 0x1000
  descriptor := .standard

/-- The raw binary of the image. -/
def loneContents : Bytes :=
  Magic.standard.bytes ++ List.replicate 20 0

/-- The Intel HEX file of the image, without an end-of-file record. -/
def loneText : Bytes :=
  Bytes.ofText ":18800000F025140000000000000000000000000000000000000000003F\n"

/-- The files of the image, and a raw binary without its placeholder. -/
def loneBuild : Workspace where
  store := ⟨[(["fw.bin"], .file loneContents), (["rest.bin"], .file [1, 2]),
    (["fw.hex"], .file loneText)]⟩
  notices := []

def loneId : BuildId := ⟨List.replicate 20 9, rfl⟩

def blankId : BuildId := ⟨List.replicate 20 0, rfl⟩

theorem stamp_loneBuild :
    (∃ e w', (loneTarget.stamp .intelHex "fw.hex" loneId).run loneBuild = .error e w' ∧
      w'.store = loneBuild.store) ∧
    (∃ w', (loneTarget.stamp .rawBinary "rest.bin" loneId).run loneBuild = .ok .leftAlone w' ∧
      w'.store = loneBuild.store) ∧
    (∃ w' loc old new, (loneTarget.stamp .rawBinary "fw.bin" loneId).run loneBuild =
        .ok (.stamped 4) w' ∧ loneBuild.store.file "fw.bin" = .ok (loc, old) ∧
      w'.store = loneBuild.store.replace loc new ∧
      FileFormat.rawBinary.Stamps "fw.bin" .standard loneId 4 old new) ∧
    ∃ s' written w', loneBuild.store.writeAt "fw.bin" 4 loneId.bytes = .ok s' ∧
      s'.fetch "fw.bin" = .ok written ∧
      Descriptor.standard.check "fw.bin" 0 (written.slice 0 placeholderLength) = .ok loneId ∧
      (loneTarget.stampRawBinary "fw.bin" loneId).run loneBuild = .ok (.stamped 4) w' ∧
      w'.store = s' := by
  have hhex : (loneTarget.stamp .intelHex "fw.hex" loneId).run loneBuild =
      .error (.hex "fw.hex" .missingEndOfFile)
        ⟨loneBuild.store, [.stamping .intelHex "fw.hex" loneId 0x8004]⟩ := by
    decide +kernel
  have hrest : (loneTarget.stamp .rawBinary "rest.bin" loneId).run loneBuild =
      .ok .leftAlone ⟨loneBuild.store, [.leftAlone "rest.bin"]⟩ := by
    decide +kernel
  have hfetch : loneBuild.store.fetch "fw.bin" = .ok loneContents := by decide +kernel
  have hraw : loneTarget.rawOffset? loneContents = .ok (some 0) := by decide +kernel
  have hwrite : loneBuild.store.writeAt "fw.bin" 4 loneId.bytes =
      .ok (loneBuild.store.replace ["fw.bin"] (Magic.standard.bytes ++ loneId.bytes)) := by
    decide +kernel
  obtain ⟨-, -, hstamped, hchecks⟩ :=
    stamp_all_or_nothing loneTarget .rawBinary "fw.bin" loneId loneBuild
  obtain ⟨written, w', hwritten, hcheck, hrun, hstore⟩ := hchecks _ 0 _ hfetch hraw hwrite
  obtain ⟨loc, old, new, hfile, hreplaced, hbytes⟩ := hstamped _ _ hrun
  refine ⟨⟨_, _, hhex, ?_⟩, ⟨_, hrest, ?_⟩, ⟨w', loc, old, new, hrun, hfile, hreplaced, hbytes⟩,
    _, written, w', hwrite, hwritten, hcheck, hrun, hstore⟩
  · exact (stamp_all_or_nothing loneTarget .intelHex "fw.hex" loneId loneBuild).1 _ _ hhex
  · exact (stamp_all_or_nothing loneTarget .rawBinary "rest.bin" loneId loneBuild).2.1 _ hrest

/-- **Stamping and reading agree.**  A file is stamped where an ID is read in it, and is read where
it is stamped; an Intel HEX file that does not end with its end-of-file record is read and not
stamped.  Of a raw binary that is left alone it is read that its header does not match, and in all
else that fails the two fail alike; no stamping fails for what stands in a placeholder.  No file is
so long that an offset cannot tell its end. -/
theorem stamp_read_agreement (t : Target) (format : FileFormat) (path : String) (id : BuildId)
    (w : Workspace)
    (hsize : ∀ loc b, w.store.file path = .ok (loc, b) → b.length < Store.offsetLimit) :
    (∀ place w', (t.stamp format path id).run w = .ok (.stamped place) w' →
      ∃ found, t.read format w.store path = .ok (place, found)) ∧
    (∀ place found, t.read format w.store path = .ok (place, found) →
      ¬ w.store.LacksEnd format path →
      ∃ w', (t.stamp format path id).run w = .ok (.stamped place) w') ∧
    (∀ place found, t.read format w.store path = .ok (place, found) →
      w.store.LacksEnd format path →
      ∃ w', (t.stamp format path id).run w = .error (.hex path .missingEndOfFile) w') ∧
    (format ≠ .rawBinary → ∀ w', (t.stamp format path id).run w ≠ .ok .leftAlone w') ∧
    ((∃ w', (t.stampRawBinary path id).run w = .ok .leftAlone w') ↔
      ∃ offset expected found,
        t.readRawBinary w.store path = .error (.headerMismatch path offset expected found)) ∧
    (∀ e, (∃ w', (t.stampRawBinary path id).run w = .error e w') ↔
      t.readRawBinary w.store path = .error e ∧
        ∀ offset expected found, e ≠ .headerMismatch path offset expected found) ∧
    ∀ e w', (t.stampRawBinary path id).run w = .error e w' → e.isAboutPlaceholder = false := by
  refine ⟨fun place w' h => read_of_stamp h, fun place found h => stamp_of_read hsize h,
    fun place found h => stamp_of_lacksEnd h, ?_, ?_⟩
  · intro hformat w' h
    obtain ⟨_, b, e?, -, hedit, ho, -⟩ := (edits_stamp t format path id).of_ok h
    cases e? with
    | none => exact hformat (readBytes_of_edit_eq_none hedit).1
    | some e => cases ho
  rcases stampRawBinary_readRawBinary t id hsize with
    ⟨e, w', hrun, hread, habout⟩ | ⟨offset, expected, found, w', hrun, hread⟩ |
    ⟨place, found, w', hrun, hread⟩
  · rw [hrun, hread]
    refine ⟨⟨?_, ?_⟩, ?_, ?_⟩
    · rintro ⟨_, ⟨⟩⟩
    · rintro ⟨_, _, _, ⟨⟩⟩
      contradiction
    · intro e'
      constructor
      · rintro ⟨_, ⟨⟩⟩
        refine ⟨rfl, ?_⟩
        rintro _ _ _ rfl
        contradiction
      · rintro ⟨⟨⟩, -⟩
        exact ⟨w', rfl⟩
    · rintro _ _ ⟨⟩
      exact habout
  · rw [hrun, hread]
    refine ⟨⟨fun _ => ⟨_, _, _, rfl⟩, fun _ => ⟨w', rfl⟩⟩, ?_, ?_⟩
    · intro e
      constructor
      · rintro ⟨_, ⟨⟩⟩
      · rintro ⟨⟨⟩, hother⟩
        exact absurd rfl (hother _ _ _)
    · rintro _ _ ⟨⟩
  · rw [hrun, hread]
    refine ⟨⟨?_, ?_⟩, ?_, ?_⟩
    · rintro ⟨_, ⟨⟩⟩
    · rintro ⟨_, _, _, ⟨⟩⟩
    · intro e
      constructor
      · rintro ⟨_, ⟨⟩⟩
      · rintro ⟨⟨⟩, -⟩
    · rintro _ _ ⟨⟩

/-- The Intel HEX file of the sample is read and cannot be stamped; the raw binary is read, stamped,
and without its placeholder left alone. -/
theorem read_loneBuild :
    (∀ loc b, loneBuild.store.file "fw.hex" = .ok (loc, b) → b.length < Store.offsetLimit) ∧
    loneTarget.read .intelHex loneBuild.store "fw.hex" = .ok (0x8004, blankId) ∧
    loneBuild.store.LacksEnd .intelHex "fw.hex" ∧
    (∃ w', (loneTarget.stamp .intelHex "fw.hex" loneId).run loneBuild =
      .error (.hex "fw.hex" .missingEndOfFile) w') ∧
    (∀ loc b, loneBuild.store.file "fw.bin" = .ok (loc, b) → b.length < Store.offsetLimit) ∧
    loneTarget.read .rawBinary loneBuild.store "fw.bin" = .ok (4, blankId) ∧
    ∃ w', (loneTarget.stamp .rawBinary "fw.bin" loneId).run loneBuild = .ok (.stamped 4) w' := by
  have hhex : loneBuild.store.file "fw.hex" = .ok (["fw.hex"], loneText) := by decide +kernel
  have hbin : loneBuild.store.file "fw.bin" = .ok (["fw.bin"], loneContents) := by decide +kernel
  have hhexSize : ∀ loc b, loneBuild.store.file "fw.hex" = .ok (loc, b) →
      b.length < Store.offsetLimit := by
    intro loc b h
    rw [hhex] at h
    cases h
    decide +kernel
  have hbinSize : ∀ loc b, loneBuild.store.file "fw.bin" = .ok (loc, b) →
      b.length < Store.offsetLimit := by
    intro loc b h
    rw [hbin] at h
    cases h
    decide +kernel
  have hhexRead : loneTarget.read .intelHex loneBuild.store "fw.hex" = .ok (0x8004, blankId) := by
    decide +kernel
  have hbinRead : loneTarget.read .rawBinary loneBuild.store "fw.bin" = .ok (4, blankId) := by
    decide +kernel
  have hlacks : loneBuild.store.LacksEnd .intelHex "fw.hex" :=
    ⟨rfl, ⟨[.data 0x8000 loneContents]⟩, by decide +kernel, by decide⟩
  refine ⟨hhexSize, hhexRead, hlacks, ?_, hbinSize, hbinRead, ?_⟩
  · exact (stamp_read_agreement loneTarget .intelHex "fw.hex" loneId loneBuild hhexSize).2.2.1 _ _
      hhexRead hlacks
  · refine (stamp_read_agreement loneTarget .rawBinary "fw.bin" loneId loneBuild hbinSize).2.1 _ _
      hbinRead ?_
    rintro ⟨⟨⟩, -⟩

end Target

end FirmwareStamp
