import FirmwareStamp.Proofs.CoveredRun
import FirmwareStamp.Proofs.RawSearch
import FirmwareStamp.Proofs.Verified

/-!
# What header errors tell

Two errors are about the header of a placeholder: it is not the magic, or it is and the value bytes
after it are cut short.  Both point at a place, and the file bears them out there: the header that
is reported is what the file holds and differs from the magic, or the magic is there with fewer
bytes than a placeholder has (`reportsOnly_check`).

Stamping fails with no other header errors.  Reading does in raw binaries, where a placeholder that
is cut short is not found.  Then the header is reported to differ from the magic though it is the
magic:

    t.readBytes .rawBinary path b = .error (.headerMismatch path o magic magic) ↔ t.Misreports b o
                                                                  (readBytes_eq_mismatch_iff)
-/

namespace FirmwareStamp

/-! ## True errors -/

/-- Whether a file of a format holds the bytes `held`: an Intel HEX file at its addresses, any other
at its offsets. -/
def FileFormat.Holds (format : FileFormat) (path : String) (b : Bytes)
    (held : Nat → Option UInt8) : Prop :=
  match format with
  | .intelHex => ∃ l, listingOf path b = .ok l ∧ held = l.memory
  | .executable | .rawBinary => held = fun i => b[i]?

/-- Whether an error about a header is true of a file that holds the bytes `held`. -/
inductive Error.IsTrueOf (path : String) (m : Magic) (held : Nat → Option UInt8) :
    Error → Prop where
  /-- The bytes of the header are some others. -/
  | mismatch {place : Nat} {found : Bytes} (hfound : found.IsRunOf held place Magic.length)
      (hother : found ≠ m.bytes) :
      IsTrueOf path m held (.headerMismatch path place m.bytes found)
  /-- The header is right, and the file holds less than a placeholder. -/
  | truncated {place : Nat} {found : Bytes} (hfound : found.IsRunOf held place placeholderLength)
      (hmagic : found.take Magic.length = m.bytes) (hshort : found.length < placeholderLength) :
      IsTrueOf path m held (.truncated path place found.length)

/-- Whether contents of a file bear an error out. -/
def FileFormat.BearsOut (format : FileFormat) (path : String) (b : Bytes) (m : Magic)
    (e : Error) : Prop :=
  ∃ held, format.Holds path b held ∧ e.IsTrueOf path m held

/-- Whether no placeholder is found in a raw binary though the magic is where one is expected, or at
the start of the file if one is expected before it. -/
structure Target.Misreports (t : Target) (b : Bytes) (offset : Nat) : Prop where
  header : b.slice offset Magic.length = t.descriptor.magic.bytes
  expected : ∃ address base, t.image.loadAddress t.address = .ok address ∧
    t.image.baseAddress = .ok base ∧ offset = address - base ∧
    (b.length < offset + placeholderLength ∨ address < base)
  notAlone : ∀ o, t.descriptor.magic.places b ≠ {o}

/-! ## What computations report -/

/-- Whether all that a computation reports about a placeholder has a property. -/
def ReportsOnly {α : Type} (P : Error → Prop) (r : Except Error α) : Prop :=
  ∀ e, r = .error e → e.isAboutPlaceholder = true → P e

namespace ReportsOnly

variable {ε α β : Type} {P Q : Error → Prop} {r : Except Error α}

theorem ok (a : α) : ReportsOnly P (.ok a : Except Error α) := by
  intro e h
  cases h

theorem error {e : Error} (h : P e) : ReportsOnly P (.error e : Except Error α) := by
  intro e' he _
  injection he with he
  rw [← he]
  exact h

theorem other {e : Error} (h : e.isAboutPlaceholder = false) :
    ReportsOnly P (.error e : Except Error α) := by
  intro e' he habout
  injection he with he
  rw [← he, h] at habout
  contradiction

theorem bind {f : α → Except Error β} (hr : ReportsOnly P r)
    (hf : ∀ a, r = .ok a → ReportsOnly P (f a)) : ReportsOnly P (r >>= f) := by
  cases r with
  | ok a => exact hf a rfl
  | error e =>
    intro e' he habout
    injection he with he
    exact hr e' (congrArg _ he) habout

theorem map {f : α → β} (hr : ReportsOnly P r) : ReportsOnly P (f <$> r) := by
  rw [map_eq_pure_bind]
  exact hr.bind fun a _ => ok (f a)

theorem mapError {x : Except ε α} {f : ε → Error} (hf : ∀ e, (f e).isAboutPlaceholder = false) :
    ReportsOnly P (x.mapError f) := by
  cases x with
  | ok a => exact ok a
  | error e => exact other (hf e)

theorem mono (hr : ReportsOnly P r) (h : ∀ e, P e → Q e) : ReportsOnly Q r :=
  fun e he habout => h e (hr e he habout)

end ReportsOnly

variable {P : Error → Prop} {path : String} {b : Bytes}

theorem reportsOnly_parse : ReportsOnly P (Image.parse path b) := by
  unfold Image.parse
  split
  · exact .other rfl
  · exact .ok _

theorem reportsOnly_fileOffset (image : Image) (address : Nat) :
    ReportsOnly P (image.fileOffset address) := by
  unfold Image.fileOffset checkWord
  split
  · split
    · exact .ok _
    · exact .other rfl
  · exact .other rfl

theorem reportsOnly_hexAddress (t : Target) : ReportsOnly P (t.hexAddress path) := by
  unfold Target.hexAddress
  refine .bind ?_ fun address _ => ?_
  · intro e he habout
    rw [Target.isAboutPlaceholder_of_loadAddress he] at habout
    contradiction
  · split
    · exact .ok _
    · exact .other rfl

theorem reportsOnly_listingOf : ReportsOnly P (listingOf path b) := by
  unfold listingOf
  split
  · exact .mapError fun _ => rfl
  · exact .other rfl

/-- What is checked is what stands in a file from a place on, so that the errors are true. -/
theorem reportsOnly_check {d : Descriptor} {place : Nat} {found : Bytes}
    {held : Nat → Option UInt8} (hfound : found.IsRunOf held place placeholderLength) :
    ReportsOnly (Error.IsTrueOf path d.magic held) (d.check path place found) := by
  have hheader : Bytes.IsRunOf (found.take Magic.length) held place Magic.length :=
    hfound.take (by decide)
  unfold Descriptor.check
  dsimp only
  by_cases hmagic : found.take Magic.length = d.magic.bytes
  · rw [if_neg (not_not_intro hmagic)]
    cases hid : BuildId.ofBytes? (found.drop Magic.length) with
    | some id => exact .ok id
    | none =>
      refine .error (.truncated hfound hmagic ?_)
      have hvalue := BuildId.ofBytes?_eq_none_iff.1 hid
      have hle := hfound.length_le
      rw [List.length_drop] at hvalue
      simp only [placeholderLength] at hle ⊢
      omega
  · rw [if_pos hmagic]
    exact .error (.mismatch hheader hmagic)

namespace Target

variable {t : Target} {format : FileFormat} {id : BuildId} {s : Store} {w w' : Workspace}
  {loc : Location} {address base offset : Nat}

/-! ## Contents -/

/-- An executable is checked at an offset of its own. -/
theorem reportsOnly_checkImage {d : Descriptor} {image : Image}
    (himage : Image.parse path b = .ok image) (offset : Nat) :
    ReportsOnly (FileFormat.executable.BearsOut path b d.magic)
      (d.check image.path offset (b.slice offset placeholderLength)) := by
  rw [Image.path_of_parse himage]
  exact (reportsOnly_check (b.isRunOf_slice offset placeholderLength)).mono
    fun e he => ⟨_, rfl, he⟩

/-- An Intel HEX file is checked at an address. -/
theorem reportsOnly_checkListing {d : Descriptor} {listing : IntelHex.Listing}
    (hlisting : listingOf path b = .ok listing) (address : Nat) :
    ReportsOnly (FileFormat.intelHex.BearsOut path b d.magic)
      (d.check path address (listing.read address placeholderLength)) := by
  have hfound : (listing.read address placeholderLength).IsRunOf listing.memory address
      placeholderLength :=
    listing.isRunOf_run placeholderLength address
  exact (reportsOnly_check hfound).mono fun e he => ⟨_, ⟨listing, hlisting, rfl⟩, he⟩

theorem reportsOnly_readBytes (hformat : format ≠ .rawBinary) :
    ReportsOnly (format.BearsOut path b t.descriptor.magic) (t.readBytes format path b) := by
  unfold readBytes
  cases format with
  | executable =>
    refine .bind reportsOnly_parse fun image himage => ?_
    refine .bind (reportsOnly_fileOffset image t.address) fun offset _ => ?_
    dsimp only
    rw [Image.bytes_of_parse himage]
    exact .bind (reportsOnly_checkImage himage offset) fun _ _ => .ok _
  | intelHex =>
    refine .bind (reportsOnly_hexAddress t) fun address _ => ?_
    refine .bind reportsOnly_listingOf fun listing hlisting => ?_
    exact .bind (reportsOnly_checkListing hlisting address) fun _ _ => .ok _
  | rawBinary => contradiction

/-- Stamping a raw binary reports nothing: a placeholder is whole or is left alone. -/
theorem reportsOnly_editRawBinary : ReportsOnly P (t.editRawBinary path id b) := by
  unfold editRawBinary
  refine .bind ?_ fun offset? _ => ?_
  · intro e he habout
    rw [isAboutPlaceholder_of_rawOffset? he] at habout
    contradiction
  · split
    · exact .ok _
    · dsimp only
      split
      · exact .ok _
      · exact .other rfl

theorem reportsOnly_edit :
    ReportsOnly (format.BearsOut path b t.descriptor.magic) (t.edit format path id b) := by
  unfold edit
  cases format with
  | executable =>
    refine .bind reportsOnly_parse fun image himage => .map ?_
    refine .bind (reportsOnly_fileOffset image t.address) fun offset _ => ?_
    split
    · exact .bind (reportsOnly_checkImage himage offset) fun _ _ => .ok _
    · exact .other rfl
  | intelHex =>
    refine .map (.bind (reportsOnly_hexAddress t) fun address _ => ?_)
    refine .bind reportsOnly_listingOf fun listing hlisting => ?_
    refine .bind (reportsOnly_checkListing hlisting address) fun _ _ => ?_
    dsimp only
    split
    · exact .other rfl
    · split
      · exact .other rfl
      · exact .bind (.mapError fun _ => rfl) fun _ _ => .ok _
  | rawBinary => exact reportsOnly_editRawBinary

/-! ## Raw binaries in which nothing is found -/

/-- A placeholder that is cut short is no place, and neither is one before the start of the file. -/
theorem Misreports.nothing_located (h : t.Misreports b offset) : t.rawOffset? b = .ok none := by
  obtain ⟨address, base, haddress, hbase, rfl, hcause⟩ := h.expected
  have hnot : ¬ (base ≤ address ∧ address - base ∈ t.descriptor.magic.places b) := by
    rintro ⟨hle, hroom, -⟩
    omega
  obtain ⟨offset?, hanswer⟩ := exists_rawOffset? haddress hbase b
  cases offset? with
  | none => exact hanswer
  | some o =>
    have honly := (rawOffset?_eq_some_iff_places haddress hbase hnot).1 hanswer
    exact absurd honly (h.notAlone o)

theorem misreports_of_nothing_located (haddress : t.image.loadAddress t.address = .ok address)
    (hbase : t.image.baseAddress = .ok base) (h : t.rawOffset? b = .ok none)
    (hheader : b.slice (address - base) Magic.length = t.descriptor.magic.bytes) :
    t.Misreports b (address - base) where
  header := hheader
  expected := by
    refine ⟨address, base, haddress, hbase, rfl, ?_⟩
    by_contra hroom
    rw [not_or] at hroom
    have hfound := rawOffset?_of_mem_places haddress hbase (by omega) ⟨by omega, hheader⟩
    rw [h] at hfound
    cases hfound
  notAlone o hplaces := by
    have hfound := rawOffset?_of_places_eq haddress hbase hplaces
    rw [h] at hfound
    cases hfound

/-- A raw binary is read not to have the header it has exactly if its contents are misreported. -/
theorem readBytes_eq_mismatch_iff :
    t.readBytes .rawBinary path b = .error (.headerMismatch path offset t.descriptor.magic.bytes
      t.descriptor.magic.bytes) ↔ t.Misreports b offset := by
  constructor
  · intro h
    have hnothing := rawOffset?_of_headerMismatch h
    obtain ⟨address, base, haddress, hbase⟩ := addresses_of_rawOffset? hnothing
    rw [readBytes_of_nothing_located haddress hbase hnothing] at h
    injection h with h
    injection h with _ hoffset _ hheader
    subst hoffset
    exact misreports_of_nothing_located haddress hbase hnothing hheader
  · intro h
    obtain ⟨address, base, haddress, hbase, rfl, -⟩ := h.expected
    rw [readBytes_of_nothing_located haddress hbase h.nothing_located, h.header]

theorem reportsOnly_readBytes_rawBinary :
    ReportsOnly (fun e => FileFormat.rawBinary.BearsOut path b t.descriptor.magic e ∨
        ∃ offset, t.Misreports b offset ∧ e = .headerMismatch path offset
          t.descriptor.magic.bytes t.descriptor.magic.bytes)
      (t.readBytes .rawBinary path b) := by
  intro e he habout
  rcases t.readBytes_rawBinary_cases path b with ⟨e', -, hread, hother⟩ | ⟨hnothing, -⟩ |
    ⟨_, _, -, hread⟩
  · rw [hread] at he
    cases he
    rw [hother] at habout
    contradiction
  · obtain ⟨address, base, haddress, hbase⟩ := addresses_of_rawOffset? hnothing
    rw [readBytes_of_nothing_located haddress hbase hnothing] at he
    injection he with he
    subst he
    -- nobody has looked at the header that is reported, so it can be the magic
    by_cases hheader : b.slice (address - base) Magic.length = t.descriptor.magic.bytes
    · rw [hheader]
      exact .inr ⟨_, misreports_of_nothing_located haddress hbase hnothing hheader, rfl⟩
    · exact .inl ⟨_, rfl, .mismatch (b.isRunOf_slice _ _) hheader⟩
  · rw [hread] at he
    contradiction

/-! ## Files -/

/-- Where there is no file, nothing is reported about a placeholder. -/
theorem exists_file_of_readError {e : Error} (h : t.read format s path = .error e)
    (habout : e.isAboutPlaceholder = true) : ∃ loc b, s.file path = .ok (loc, b) := by
  cases hfile : s.file path with
  | ok entry => exact ⟨entry.1, entry.2, rfl⟩
  | error fault =>
    have hread := Store.read_eq_error hfile
    have hother : ReportsOnly (fun _ => False) (t.read format s path) := by
      cases format with
      | executable =>
        have hload : Image.load s path = .error (.io path fault) := by
          unfold Image.load
          rw [hread]
        unfold read readExecutable
        rw [hload]
        exact .other rfl
      | intelHex =>
        refine .bind (reportsOnly_hexAddress t) fun address _ => ?_
        unfold Store.listing Store.readText
        rw [hread]
        exact .other rfl
      | rawBinary =>
        rw [read, readRawBinary_of_fault hfile]
        exact .other rfl
    exact (hother e h habout).elim

theorem exists_file_of_stampError {e : Error} (h : (t.stamp format path id).run w = .error e w')
    (habout : e.isAboutPlaceholder = true) : ∃ loc b, w.store.file path = .ok (loc, b) := by
  cases hfile : w.store.file path with
  | ok entry => exact ⟨entry.1, entry.2, rfl⟩
  | error fault =>
    have hread := Store.read_eq_error hfile
    exfalso
    cases format with
    | executable =>
      simp only [stamp, stampExecutable, EStateM.run_bind, Session.run_store, Image.load,
        hread] at h
      injection h with h
      rw [← h] at habout
      contradiction
    | intelHex =>
      unfold stamp stampIntelHex at h
      cases haddress : t.hexAddress path with
      | error e' =>
        rw [haddress] at h
        injection h with h
        rw [← h] at habout
        exact (reportsOnly_hexAddress t : ReportsOnly (fun _ => False) _) e' haddress habout
      | ok address =>
        simp only [haddress, EStateM.run_bind, Session.run_lift_ok, Session.run_store,
          Store.listing, Store.readText, hread] at h
        injection h with h
        rw [← h] at habout
        contradiction
    | rawBinary =>
      simp only [stamp, stampRawBinary, EStateM.run_bind, Session.run_store, Store.fetch,
        hread] at h
      injection h with h
      rw [← h] at habout
      contradiction

/-- **Header errors.**  All that reading or stamping a file reports about its placeholder is a
header that the file holds there and that is not the magic, or the magic with less than a
placeholder.  The exception is a raw binary that is read and in which nothing is found: the header
that does not match is the magic, exactly if the contents are such that they are misreported. -/
theorem headerErrors_isTrueOf (t : Target) (format : FileFormat) (path : String) (id : BuildId) :
    (∀ s e, t.read format s path = .error e → e.isAboutPlaceholder = true →
      ∃ loc b, s.file path = .ok (loc, b) ∧
        (format.BearsOut path b t.descriptor.magic e ∨
          format = .rawBinary ∧ ∃ offset, t.Misreports b offset ∧
            e = .headerMismatch path offset t.descriptor.magic.bytes t.descriptor.magic.bytes)) ∧
    (∀ s loc b offset, s.file path = .ok (loc, b) →
      (t.readRawBinary s path = .error (.headerMismatch path offset t.descriptor.magic.bytes
        t.descriptor.magic.bytes) ↔ t.Misreports b offset)) ∧
    ∀ w w' e, (t.stamp format path id).run w = .error e w' → e.isAboutPlaceholder = true →
      ∃ loc b, w.store.file path = .ok (loc, b) ∧
        format.BearsOut path b t.descriptor.magic e := by
  refine ⟨?_, ?_, ?_⟩
  · intro s e h habout
    obtain ⟨loc, b, hfile⟩ := exists_file_of_readError h habout
    refine ⟨loc, b, hfile, ?_⟩
    rw [read_eq_readBytes format hfile] at h
    by_cases hformat : format = .rawBinary
    · subst hformat
      rcases reportsOnly_readBytes_rawBinary e h habout with htrue | hfalse
      · exact .inl htrue
      · exact .inr ⟨rfl, hfalse⟩
    · exact .inl (reportsOnly_readBytes hformat e h habout)
  · intro s loc b offset hfile
    show t.read .rawBinary s path = _ ↔ _
    rw [read_eq_readBytes .rawBinary hfile]
    exact readBytes_eq_mismatch_iff
  · intro w w' e h habout
    obtain ⟨loc, b, hfile⟩ := exists_file_of_stampError h habout
    refine ⟨loc, b, hfile, ?_⟩
    obtain ⟨notices, hrun⟩ := (edits_stamp t format path id).run_of_file hfile
    rw [hrun] at h
    cases hedit : t.edit format path id b with
    | ok e? =>
      rw [hedit] at h
      contradiction
    | error e' =>
      rw [hedit] at h
      injection h with h
      rw [← h] at habout ⊢
      exact reportsOnly_edit e' hedit habout

/-- The Intel HEX file of an image, six bytes into its placeholder. -/
def shortText : Bytes :=
  Bytes.ofText ":06800000F025140001024E\n:00000001FF\n"

/-- Files that end too soon: two with the header, and one without. -/
def shortBuild : Workspace where
  store := ⟨[(["fw.hex"], .file shortText), (["rest.bin"], .file [1, 2]),
    (["fw.bin"], .file Magic.standard.bytes)]⟩
  notices := []

/-- The Intel HEX file is cut short and said to be.  Of the raw binaries, both are said not to have
the header. -/
theorem headerErrors_shortBuild :
    (∃ w', (loneTarget.stamp .intelHex "fw.hex" loneId).run shortBuild =
      .error (.truncated "fw.hex" 0x8000 6) w') ∧
    FileFormat.intelHex.BearsOut "fw.hex" shortText .standard (.truncated "fw.hex" 0x8000 6) ∧
    FileFormat.rawBinary.BearsOut "rest.bin" [1, 2] .standard
      (.headerMismatch "rest.bin" 0 Magic.standard.bytes [1, 2]) ∧
    loneTarget.Misreports Magic.standard.bytes 0 := by
  have hhex : shortBuild.store.file "fw.hex" = .ok (["fw.hex"], shortText) := by decide +kernel
  have hrest : shortBuild.store.file "rest.bin" = .ok (["rest.bin"], [1, 2]) := by decide +kernel
  have hbin : shortBuild.store.file "fw.bin" = .ok (["fw.bin"], Magic.standard.bytes) := by
    decide +kernel
  have hshort : (loneTarget.stamp .intelHex "fw.hex" loneId).run shortBuild =
      .error (.truncated "fw.hex" 0x8000 6) shortBuild := by
    decide +kernel
  have hother : loneTarget.read .rawBinary shortBuild.store "rest.bin" =
      .error (.headerMismatch "rest.bin" 0 Magic.standard.bytes [1, 2]) := by
    decide +kernel
  have hcut : loneTarget.readRawBinary shortBuild.store "fw.bin" =
      .error (.headerMismatch "fw.bin" 0 Magic.standard.bytes Magic.standard.bytes) := by
    decide +kernel
  refine ⟨⟨_, hshort⟩, ?_, ?_, ?_⟩
  · obtain ⟨loc, b, hfile, htrue⟩ :=
      (headerErrors_isTrueOf loneTarget .intelHex "fw.hex" loneId).2.2 _ _ _ hshort rfl
    rw [hhex] at hfile
    cases hfile
    exact htrue
  · obtain ⟨loc, b, hfile, htrue | ⟨-, offset, -, hsame⟩⟩ :=
      (headerErrors_isTrueOf loneTarget .rawBinary "rest.bin" loneId).1 _ _ hother rfl
    · rw [hrest] at hfile
      cases hfile
      exact htrue
    · injection hsame with _ _ _ hsame
      exact absurd hsame (by decide)
  · exact ((headerErrors_isTrueOf loneTarget .rawBinary "fw.bin" loneId).2.1 _ _ _ 0 hbin).1 hcut

/-- The start of what an image loads, up to the value bytes. -/
def cutBinary : Bytes :=
  echoContents.take 8

def cutBuild : Workspace where
  store := ⟨[(["a.elf"], .file echoElf), (["a.bin"], .file cutBinary)]⟩
  notices := []

/-- The header is read to be another, and is the same; to the check at its offset it is right and
the placeholder cut short. -/
theorem readRawBinary_cutBuild :
    Target.load cutBuild.store "a.elf" ⟨"id", .standard⟩ = .ok (echoTarget, echoId) ∧
      echoTarget.readRawBinary cutBuild.store "a.bin" =
        .error (.headerMismatch "a.bin" 4 Magic.standard.bytes Magic.standard.bytes) ∧
      echoTarget.descriptor.check "a.bin" 4 (cutBinary.slice 4 placeholderLength) =
        .error (.truncated "a.bin" 4 4) := by
  decide +kernel

end Target

end FirmwareStamp
