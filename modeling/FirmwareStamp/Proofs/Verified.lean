import FirmwareStamp.Proofs.OneFile
import FirmwareStamp.Proofs.Rerun

/-!
# What verifying finds

Verifying succeeds with an ID exactly if the image has it and every file of the build carries it
(`verdict_eq_ok_iff`).  The one error that is passed over, a header that does not match in a raw
binary, comes up only where no placeholder can be located.

So a change of value bytes does not go unseen: from a build that is verified, with some of them
changed in one file, verifying fails at that file (`verify_sound_complete`).
-/

namespace FirmwareStamp

/-! ## Builds that are verified -/

namespace Target

/-- Whether the contents of a file carry an ID at the placeholder.  A raw binary in which none is
located carries every ID. -/
def Carries (t : Target) (format : FileFormat) (path : String) (b : Bytes) (id : BuildId) : Prop :=
  match format with
  | .executable => ∃ image offset, Image.parse path b = .ok image ∧
      image.fileOffset t.address = .ok offset ∧
      b.slice offset placeholderLength = t.descriptor.magic.bytes ++ id.bytes
  | .intelHex => ∃ listing address, listingOf path b = .ok listing ∧
      t.image.loadAddress t.address = .ok address ∧
      listing.Holds address (t.descriptor.magic.bytes ++ id.bytes)
  | .rawBinary => ∃ address base, t.image.loadAddress t.address = .ok address ∧
      t.image.baseAddress = .ok base ∧
      (t.rawOffset? b = .ok none ∨ ∃ offset, t.rawOffset? b = .ok (some offset) ∧
        b.slice offset placeholderLength = t.descriptor.magic.bytes ++ id.bytes)

/-- Whether a build has an ID: the target is the image's with that ID, and its own file and every
sibling that exists carry it. -/
structure Verified (t : Target) (id : BuildId) (s : Store) (path : String)
    (siblings : List String) : Prop where
  image : Image.load s path = .ok t.image
  placeholder : t.image.placeholder t.descriptor = .ok t.address
  buildId : t.image.buildId t.address = .ok id
  own : ∃ loc b, s.file path = .ok (loc, b) ∧ t.Carries .executable path b id
  siblings : ∀ p ∈ siblings, s.leadsTo p = true → ∃ format loc b,
    FileFormat.ofPath p = .ok format ∧ s.file p = .ok (loc, b) ∧ t.Carries format p b id

end Target

/-! ## Changes of value bytes -/

/-- Whether one or more of the value bytes from `place` on are other bytes, and all else is as it
was. -/
structure ValueChanged (place : Nat) (before after : Nat → Option UInt8) : Prop where
  covered : ∀ i, (after i).isSome = (before i).isSome
  outside : ∀ i, ¬ (place ≤ i ∧ i < place + BuildId.length) → after i = before i
  changed : after ≠ before

namespace Target

/-- Whether new contents of a file differ from the old ones in value bytes of the placeholder, which
is still found. -/
def Tampered (t : Target) (format : FileFormat) (path : String) (b : Bytes) (e : Edit) : Prop :=
  t.FindsAgain format path b e ∧
  match format with
  | .executable => ∃ image offset, Image.parse path b = .ok image ∧
      image.fileOffset t.address = .ok offset ∧ e.place = offset + Magic.length ∧
      ValueChanged e.place (b[·]?) (e.contents[·]?)
  | .intelHex => ∃ address before after, t.image.loadAddress t.address = .ok address ∧
      e.place = address + Magic.length ∧ listingOf path b = .ok before ∧
      listingOf path e.contents = .ok after ∧ ValueChanged e.place before.get? after.get?
  | .rawBinary => ∃ offset, t.rawOffset? b = .ok (some offset) ∧
      e.place = offset + Magic.length ∧ ValueChanged e.place (b[·]?) (e.contents[·]?)

/-- Whether new contents of the image's own file change neither its tables nor what is hashed. -/
def Undisturbed (t : Target) (e : Edit) : Prop :=
  t.image.KeepsTables e ∧
    (t.withBytes e.contents).image.hashInput t.address = t.image.hashInput t.address

end Target

/-- One of the value bytes that is another byte, with all else as it was, is a change of them. -/
theorem valueChanged_of_byte {place k : Nat} {before after : Nat → Option UInt8} {old new : UInt8}
    (hk : k < BuildId.length) (hold : before (place + k) = some old) (hne : new ≠ old)
    (hafter : ∀ i, after i = if i = place + k then some new else before i) :
    ValueChanged place before after := by
  refine ⟨?_, ?_, ?_⟩
  · intro i
    rw [hafter]
    split
    · next hi =>
      rw [hi, hold]
      rfl
    · rfl
  · intro i hi
    rw [hafter, if_neg (by omega)]
  · intro h
    have hbyte := congrFun h (place + k)
    rw [hafter, if_pos rfl, hold] at hbyte
    injection hbyte with hbyte
    exact hne hbyte

/-- So is one that was set to another. -/
theorem valueChanged_set {place k : Nat} {b : Bytes} {old new : UInt8} (hk : k < BuildId.length)
    (hold : b[place + k]? = some old) (hne : new ≠ old) :
    ValueChanged place (b[·]?) ((b.set (place + k) new)[·]?) := by
  have hlt : place + k < b.length := (List.getElem?_eq_some_iff.1 hold).1
  refine valueChanged_of_byte hk hold hne fun i => ?_
  show (b.set (place + k) new)[i]? = _
  by_cases hi : i = place + k
  · rw [if_pos hi, hi, List.getElem?_set_self hlt]
  · rw [if_neg hi, List.getElem?_set_ne (Ne.symm hi)]

theorem Bytes.slice_placeholder_iff {b : Bytes} {offset : Nat} {m : Magic} {id : BuildId} :
    b.slice offset placeholderLength = m.bytes ++ id.bytes ↔
      ∀ k, k < placeholderLength → b[offset + k]? = (m.bytes ++ id.bytes)[k]? := by
  have hlength := placeholderLength_eq m id
  constructor
  · intro h k hk
    rw [← h, getElem?_slice, if_pos hk]
  · intro h
    apply List.ext_getElem?
    intro k
    rw [getElem?_slice]
    by_cases hk : k < placeholderLength
    · rw [if_pos hk, h k hk]
    · rw [if_neg hk, List.getElem?_eq_none (by omega)]

/-- A placeholder with changed value bytes is one with another ID. -/
theorem ValueChanged.exists_other {offset : Nat} {before after : Nat → Option UInt8} {m : Magic}
    {id : BuildId} (h : ValueChanged (offset + Magic.length) before after)
    (hbefore : ∀ k, k < placeholderLength → before (offset + k) = (m.bytes ++ id.bytes)[k]?) :
    ∃ other : BuildId, other ≠ id ∧
      ∀ k, k < placeholderLength → after (offset + k) = (m.bytes ++ other.bytes)[k]? := by
  have hmagic : m.bytes.length = Magic.length := m.length_eq
  let value := fun k => (after (offset + Magic.length + k)).getD 0
  let other : BuildId := ⟨(List.range BuildId.length).map value, by simp [BuildId.length]⟩
  have hafter : ∀ k, k < placeholderLength →
      after (offset + k) = (m.bytes ++ other.bytes)[k]? := by
    intro k hk
    unfold placeholderLength at hk
    by_cases hvalue : Magic.length ≤ k
    · have hsome : (after (offset + k)).isSome = true := by
        rw [h.covered, hbefore k hk, List.getElem?_eq_getElem
          (by rw [placeholderLength_eq]; exact hk)]
        rfl
      obtain ⟨byte, hbyte⟩ := Option.isSome_iff_exists.1 hsome
      have hplace : offset + Magic.length + (k - Magic.length) = offset + k := by omega
      rw [List.getElem?_append_right (by omega), hmagic, List.getElem?_map,
        List.getElem?_range (by omega), Option.map_some]
      simp only [value, hplace, hbyte, Option.getD_some]
    · rw [h.outside _ (by omega), hbefore k hk, List.getElem?_append_left (by omega),
        List.getElem?_append_left (by omega)]
  refine ⟨other, ?_, hafter⟩
  intro heq
  apply h.changed
  funext i
  by_cases hi : offset + Magic.length ≤ i ∧ i < offset + Magic.length + BuildId.length
  · have hk : i - offset < placeholderLength := by
      unfold placeholderLength
      omega
    have hplace : offset + (i - offset) = i := by omega
    rw [← hplace, hafter _ hk, hbefore _ hk, heq]
  · exact h.outside i hi

theorem ValueChanged.exists_slice {offset : Nat} {old new : Bytes} {m : Magic} {id : BuildId}
    (h : ValueChanged (offset + Magic.length) (old[·]?) (new[·]?))
    (hold : old.slice offset placeholderLength = m.bytes ++ id.bytes) :
    ∃ other : BuildId, other ≠ id ∧
      new.slice offset placeholderLength = m.bytes ++ other.bytes := by
  obtain ⟨other, hne, hother⟩ := h.exists_other (Bytes.slice_placeholder_iff.1 hold)
  exact ⟨other, hne, Bytes.slice_placeholder_iff.2 hother⟩

theorem ValueChanged.exists_holds {address : Nat} {l l' : IntelHex.Listing} {m : Magic}
    {id : BuildId} (h : ValueChanged (address + Magic.length) l.get? l'.get?)
    (hl : l.Holds address (m.bytes ++ id.bytes)) :
    ∃ other : BuildId, other ≠ id ∧ l'.Holds address (m.bytes ++ other.bytes) := by
  unfold IntelHex.Listing.Holds at hl
  rw [placeholderLength_eq] at hl
  obtain ⟨other, hne, hother⟩ := h.exists_other hl
  refine ⟨other, hne, ?_⟩
  intro k hk
  rw [placeholderLength_eq] at hk
  exact hother k hk

namespace Target

variable {t : Target} {format : FileFormat} {path p : String} {id found : BuildId} {place : Nat}
  {b : Bytes} {e : Edit} {s : Store} {loc : Location}

/-! ## One file -/

/-- A raw binary is read to have the wrong header only if no placeholder is located. -/
theorem rawOffset?_of_headerMismatch {q : String} {offset : Nat} {expected actual : Bytes}
    (h : t.readBytes .rawBinary path b = .error (.headerMismatch q offset expected actual)) :
    t.rawOffset? b = .ok none := by
  rcases t.readBytes_rawBinary_cases path b with ⟨e, -, hread, habout⟩ | ⟨hnone, -⟩ |
    ⟨_, _, -, hread⟩
  · rw [h] at hread
    cases hread
    contradiction
  · exact hnone
  · rw [h] at hread
    contradiction

/-- The contents of a file carry the ID that is read from them. -/
theorem carries_iff : t.Carries format path b id ↔
    (∃ place, t.readBytes format path b = .ok (place, id)) ∨
      (format = .rawBinary ∧ t.rawOffset? b = .ok none) := by
  cases format with
  | executable =>
    simp only [readBytes_executable_eq_ok_iff, reduceCtorEq, false_and, or_false]
    constructor
    · rintro ⟨image, offset, himage, hoffset, hslice⟩
      exact ⟨_, image, offset, himage, hoffset, hslice, rfl⟩
    · rintro ⟨_, image, offset, himage, hoffset, hslice, -⟩
      exact ⟨image, offset, himage, hoffset, hslice⟩
  | intelHex =>
    simp only [readBytes_intelHex_eq_ok_iff, reduceCtorEq, false_and, or_false]
    constructor
    · rintro ⟨listing, address, hlisting, haddress, hholds⟩
      exact ⟨_, address, listing, hexAddress_of_holds hholds haddress, hlisting, hholds, rfl⟩
    · rintro ⟨_, address, listing, hhex, hlisting, hholds, -⟩
      exact ⟨listing, address, hlisting, loadAddress_of_hexAddress hhex, hholds⟩
  | rawBinary =>
    simp only [readBytes_rawBinary_eq_ok_iff, true_and]
    constructor
    · rintro ⟨_, _, -, -, hnone | ⟨offset, hoffset, hslice⟩⟩
      · exact .inr hnone
      · exact .inl ⟨_, offset, hoffset, hslice, rfl⟩
    · rintro (⟨_, offset, hoffset, hslice, -⟩ | hnone)
      · obtain ⟨address, base, haddress, hbase⟩ := addresses_of_rawOffset? hoffset
        exact ⟨address, base, haddress, hbase, .inr ⟨offset, hoffset, hslice⟩⟩
      · obtain ⟨address, base, haddress, hbase⟩ := addresses_of_rawOffset? hnone
        exact ⟨address, base, haddress, hbase, .inl hnone⟩

/-- Contents in which one ID is read carry no other. -/
theorem eq_of_carries (h : t.Carries format path b id)
    (hread : t.readBytes format path b = .ok (place, found)) : found = id := by
  rcases carries_iff.1 h with ⟨_, hsame⟩ | ⟨rfl, hnone⟩
  · rw [hread] at hsame
    cases hsame
    rfl
  · obtain ⟨_, _, _, hmismatch⟩ : ∃ offset expected actual, t.readBytes .rawBinary path b =
        .error (.headerMismatch path offset expected actual) :=
      readBytes_of_rawOffset?_eq_none hnone
    rw [hread] at hmismatch
    contradiction

theorem excuse_eq_ok_iff {result : Except Error Unit} :
    format.excuse result = .ok () ↔ result = .ok () ∨ (format = .rawBinary ∧
      ∃ q offset expected actual, result = .error (.headerMismatch q offset expected actual)) := by
  cases result with
  | ok u => cases format <;> simp [FileFormat.excuse]
  | error e => cases format <;> cases e <;> simp [FileFormat.excuse]

theorem checkId_of_file (hpath : FileFormat.ofPath path = .ok format)
    (hfile : s.file path = .ok (loc, b)) :
    t.checkId s path id = t.readBytes format path b >>= fun read =>
      if read.2 ≠ id then .error (.idMismatch path read.1) else .ok () := by
  unfold checkId
  rw [hpath, ok_bind, read_eq_readBytes format hfile]
  rfl

/-- A file passes if its contents carry the ID. -/
theorem passes_eq_ok_iff (hpath : FileFormat.ofPath path = .ok format)
    (hfile : s.file path = .ok (loc, b)) :
    t.passes id s (path, some format) = .ok () ↔ t.Carries format path b id := by
  show format.excuse (t.checkId s path id) = .ok () ↔ _
  rw [excuse_eq_ok_iff, checkId_of_file hpath hfile, carries_iff]
  constructor
  · rintro (hok | ⟨rfl, q, offset, expected, actual, hmismatch⟩)
    · obtain ⟨⟨place, found⟩, hread, hsame⟩ := bind_eq_ok.1 hok
      dsimp only at hsame
      split at hsame
      · contradiction
      · next hfound => exact .inl ⟨place, by rw [hread, Decidable.not_not.1 hfound]⟩
    · refine .inr ⟨rfl, ?_⟩
      cases hread : t.readBytes .rawBinary path b with
      | ok read =>
        rw [hread, ok_bind] at hmismatch
        split at hmismatch <;> cases hmismatch
      | error e =>
        rw [hread, error_bind] at hmismatch
        injection hmismatch with hmismatch
        rw [hmismatch] at hread
        exact rawOffset?_of_headerMismatch hread
  · rintro (⟨place, hread⟩ | ⟨rfl, hnone⟩)
    · rw [hread, ok_bind, if_neg (by simp)]
      exact .inl rfl
    · obtain ⟨offset, expected, actual, hread⟩ := readBytes_of_rawOffset?_eq_none hnone
      rw [hread]
      exact .inr ⟨rfl, _, _, _, _, rfl⟩

/-- A file with another ID does not pass. -/
theorem passes_of_ne (hpath : FileFormat.ofPath path = .ok format)
    (hfile : s.file path = .ok (loc, b)) (hread : t.readBytes format path b = .ok (place, found))
    (hne : found ≠ id) :
    t.passes id s (path, some format) = .error (.idMismatch path place) := by
  show format.excuse (t.checkId s path id) = _
  rw [checkId_of_file hpath hfile, hread, ok_bind, if_pos hne]
  cases format <;> rfl

/-- What leads to no file does not pass. -/
theorem exists_file_of_passes (h : t.passes id s (path, some format) = .ok ())
    (hpath : FileFormat.ofPath path = .ok format) : ∃ loc b, s.file path = .ok (loc, b) := by
  replace h : format.excuse (t.checkId s path id) = .ok () := h
  rcases excuse_eq_ok_iff.1 h with hok | ⟨rfl, q, offset, expected, actual, hmismatch⟩
  · unfold checkId at hok
    rw [hpath, ok_bind] at hok
    obtain ⟨⟨place, found⟩, hread, -⟩ := bind_eq_ok.1 hok
    exact exists_file_of_read hread
  · cases hfile : s.file path with
    | ok entry => exact ⟨entry.1, entry.2, rfl⟩
    | error fault =>
      unfold checkId at hmismatch
      rw [hpath, ok_bind, read, readRawBinary_of_fault hfile] at hmismatch
      cases hmismatch

/-! ## All files -/

/-- All siblings are classified and pass exactly if each that exists is of a format and carries the
ID. -/
theorem passes_siblings_iff {siblings : List String} :
    (∃ files, siblings.mapM (classify s) = .ok files ∧ files.forM (t.passes id s) = .ok ()) ↔
      ∀ p ∈ siblings, s.leadsTo p = true → ∃ format loc b,
        FileFormat.ofPath p = .ok format ∧ s.file p = .ok (loc, b) ∧ t.Carries format p b id := by
  constructor
  · rintro ⟨files, hfiles, hpass⟩ p hp hleads
    obtain ⟨⟨q, format?⟩, hmem, hclass⟩ := exists_of_mapM_eq_ok hfiles hp
    have hfile := forM_eq_ok_iff.1 hpass _ hmem
    obtain ⟨rfl, ⟨-, format, hpath, rfl⟩ | ⟨hno, -⟩⟩ := classify_eq_ok_iff.1 hclass
    · obtain ⟨loc, b, hb⟩ := exists_file_of_passes hfile hpath
      exact ⟨format, loc, b, hpath, hb, (passes_eq_ok_iff hpath hb).1 hfile⟩
    · rw [hleads] at hno
      contradiction
  · intro h
    cases hfiles : siblings.mapM (classify s) with
    | error e =>
      obtain ⟨p, hp, hclass⟩ := exists_of_mapM_eq_error hfiles
      obtain ⟨hleads, hpath⟩ := classify_eq_error_iff.1 hclass
      obtain ⟨format, _, _, hformat, -⟩ := h p hp hleads
      rw [hpath] at hformat
      contradiction
    | ok files =>
      refine ⟨files, rfl, forM_eq_ok_iff.2 ?_⟩
      rintro ⟨q, format?⟩ hmem
      obtain ⟨hq, hclass⟩ := classify_of_mem hfiles hmem
      obtain ⟨-, ⟨hleads, format, hpath, rfl⟩ | ⟨-, rfl⟩⟩ := classify_eq_ok_iff.1 hclass
      · obtain ⟨format', loc, b, hpath', hb, hcarries⟩ := h q hq hleads
        rw [hpath] at hpath'
        cases hpath'
        exact (passes_eq_ok_iff hpath hb).2 hcarries
      · rfl

end Target

/-- Where the image's own file carries the ID the verdict is that on the siblings. -/
theorem verdict_of_carries {t : Target} {path : String} {siblings : List String} {d : Descriptor}
    {s : Store} {id : BuildId} {loc : Location} {b : Bytes}
    {files : List (String × Option FileFormat)} (hload : Target.load s path d = .ok (t, id))
    (hfile : s.file path = .ok (loc, b)) (hown : t.Carries .executable path b id)
    (hfiles : siblings.mapM (classify s) = .ok files) :
    verdict path siblings d s = files.forM (t.passes id s) >>= fun _ => .ok id := by
  rcases Target.carries_iff.1 hown with ⟨place, hread⟩ | ⟨⟨⟩, -⟩
  rw [← Target.read_eq_readBytes .executable hfile] at hread
  replace hread : t.readExecutable s path = .ok (place, id) := hread
  unfold verdict
  rw [hload, ok_bind]
  dsimp only
  rw [hread, ok_bind]
  dsimp only
  rw [if_neg (by simp), hfiles, ok_bind]
  rfl

/-- **Sound and complete.**  There is a verdict with an ID exactly if the build has it. -/
theorem verdict_eq_ok_iff {path : String} {siblings : List String} {d : Descriptor} {s : Store}
    {id : BuildId} : verdict path siblings d s = .ok id ↔
      ∃ t : Target, t.descriptor = d ∧ t.Verified id s path siblings := by
  constructor
  · intro h
    unfold verdict at h
    obtain ⟨⟨t, id'⟩, hload, h⟩ := bind_eq_ok.1 h
    obtain ⟨⟨place, found⟩, hread, h⟩ := bind_eq_ok.1 h
    dsimp only at h
    split at h
    · contradiction
    next hfound =>
    obtain ⟨files, hfiles, h⟩ := bind_eq_ok.1 h
    obtain ⟨⟨⟩, hpass, h⟩ := bind_eq_ok.1 h
    injection h with h
    subst h
    obtain ⟨loc, b, hfile, himage, hplaceholder, hid, rfl⟩ := Target.load_eq_ok_iff.1 hload
    rw [Decidable.not_not.1 hfound] at hread
    refine ⟨t, rfl, ?_, hplaceholder, hid, ⟨loc, b, hfile, ?_⟩,
      Target.passes_siblings_iff.1 ⟨files, hfiles, hpass⟩⟩
    · rw [Store.load_eq_parse hfile, himage]
    · refine Target.carries_iff.2 (.inl ⟨place, ?_⟩)
      rw [← Target.read_eq_readBytes .executable hfile]
      exact hread
  · rintro ⟨t, rfl, himage, hplaceholder, hid, ⟨loc, b, hfile, hown⟩, hsiblings⟩
    rw [Store.load_eq_parse hfile] at himage
    have hload : Target.load s path t.descriptor = .ok (t, id) :=
      Target.load_eq_ok_iff.2 ⟨loc, b, hfile, himage, hplaceholder, hid, rfl⟩
    obtain ⟨files, hfiles, hpass⟩ := Target.passes_siblings_iff.2 hsiblings
    rw [verdict_of_carries hload hfile hown hfiles, hpass]
    rfl

namespace Target

variable {t : Target} {format : FileFormat} {path p : String} {id : BuildId} {b : Bytes} {e : Edit}
  {s : Store} {loc : Location} {siblings : List String}

/-! ## A changed file -/

/-- Where an ID was carried and value bytes were changed another ID is read. -/
theorem Tampered.readBytes (h : t.Tampered format path b e)
    (hcarries : t.Carries format path b id) :
    ∃ other, other ≠ id ∧ t.readBytes format path e.contents = .ok (e.place, other) := by
  obtain ⟨hfind, hchange⟩ := h
  cases format with
  | executable =>
    obtain ⟨image, offset, himage, hoffset, hb⟩ := hcarries
    obtain ⟨image', offset', himage', hoffset', hplace, hvalue⟩ := hchange
    rw [himage] at himage'
    cases himage'
    rw [hoffset] at hoffset'
    cases hoffset'
    rw [hplace] at hvalue
    obtain ⟨other, hne, hother⟩ := hvalue.exists_slice hb
    obtain rfl := Image.path_of_parse himage
    exact ⟨other, hne, readBytes_executable_eq_ok_iff.2
      ⟨_, offset, hfind image himage, hoffset, hother, hplace⟩⟩
  | intelHex =>
    obtain ⟨before, address, hbefore, haddress, hholds⟩ := hcarries
    obtain ⟨address', before', after, haddress', hplace, hbefore', hafter, hvalue⟩ := hchange
    rw [hbefore] at hbefore'
    cases hbefore'
    rw [haddress] at haddress'
    cases haddress'
    rw [hplace] at hvalue
    obtain ⟨other, hne, hother⟩ := hvalue.exists_holds hholds
    exact ⟨other, hne, readBytes_intelHex_eq_ok_iff.2
      ⟨address, after, hexAddress_of_holds hother haddress, hafter, hother, hplace⟩⟩
  | rawBinary =>
    obtain ⟨offset, hoffset, hplace, hvalue⟩ := hchange
    obtain ⟨_, _, -, -, hnone | ⟨offset', hoffset', hb⟩⟩ := hcarries
    · rw [hoffset] at hnone
      cases hnone
    · rw [hoffset] at hoffset'
      cases hoffset'
      rw [hplace] at hvalue
      obtain ⟨other, hne, hother⟩ := hvalue.exists_slice hb
      have hstands := Magic.standsAt_iff.2 ⟨other, hother⟩
      exact ⟨other, hne, readBytes_rawBinary_eq_ok_iff.2
        ⟨offset, rawOffset?_again hoffset hstands hplace hfind, hother, hplace⟩⟩

theorem carries_withBytes (c : Bytes) : (t.withBytes c).Carries = t.Carries := by
  funext format
  cases format <;> rfl

theorem Verified.load (h : t.Verified id s path siblings) :
    Target.load s path t.descriptor = .ok (t, id) := by
  obtain ⟨loc, b, hfile, -⟩ := h.own
  have himage := h.image
  rw [Store.load_eq_parse hfile] at himage
  exact load_eq_ok_iff.2 ⟨loc, b, hfile, himage, h.placeholder, h.buildId, rfl⟩

/-- What a sibling holds carries the ID. -/
theorem Verified.carries (h : t.Verified id s path siblings) (hp : p ∈ siblings)
    (hpath : FileFormat.ofPath p = .ok format) (hfile : s.file p = .ok (loc, b)) :
    t.Carries format p b id := by
  obtain ⟨format', l, c, hpath', hc, hcarries⟩ := h.siblings p hp (Store.leadsTo_of_file hfile)
  rw [hpath] at hpath'
  cases hpath'
  rw [hfile] at hc
  cases hc
  exact hcarries

/-- From the image's own file, changed but undisturbed, the target is loaded with its ID. -/
theorem load_of_undisturbed {s' : Store} (hload : Target.load s path t.descriptor = .ok (t, id))
    (h : t.Undisturbed e) (hfile : s'.file path = .ok (loc, e.contents)) :
    Target.load s' path t.descriptor = .ok (t.withBytes e.contents, id) := by
  obtain ⟨htables, hstream⟩ := h
  refine load_withBytes hload htables ?_ hfile
  rw [Image.buildId_eq_hashInput, Image.buildId_eq_hashInput, hstream]

/-- Verifying fails at the image's own file if that is changed. -/
theorem Verified.verdict_of_own (h : t.Verified id s path siblings)
    (hfile : s.file path = .ok (loc, b)) (htampered : t.Tampered .executable path b e)
    (hundisturbed : t.Undisturbed e) :
    verdict path siblings t.descriptor (s.replace loc e.contents) =
      .error (.idMismatch path e.place) := by
  obtain ⟨l, c, hc, hown⟩ := h.own
  rw [hfile] at hc
  cases hc
  obtain ⟨other, hne, hread⟩ := htampered.readBytes hown
  have hnew := Store.file_replace_self hfile e.contents
  have hread' : (t.withBytes e.contents).readExecutable (s.replace loc e.contents) path =
      .ok (e.place, other) := by
    rw [← hread, ← readBytes_withBytes e.contents]
    exact read_eq_readBytes .executable hnew
  unfold verdict
  rw [load_of_undisturbed h.load hundisturbed hnew, ok_bind]
  dsimp only
  rw [hread', ok_bind]
  dsimp only
  rw [if_pos hne]
  rfl

/-- From a store with a changed file the target is loaded with its ID, be the file its own or
not. -/
theorem load_of_changed (hload : Target.load s path t.descriptor = .ok (t, id))
    (hfile : s.file p = .ok (loc, b))
    (hown : ∀ c, s.file path = .ok (loc, c) → t.Undisturbed e) :
    ∃ c, Target.load (s.replace loc e.contents) path t.descriptor = .ok (t.withBytes c, id) := by
  obtain ⟨l, c, hc, hrest⟩ := load_eq_ok_iff.1 hload
  by_cases hl : l = loc
  · subst hl
    have hnew := Store.file_replace_self hc e.contents
    exact ⟨e.contents, load_of_undisturbed hload (hown c hc) hnew⟩
  · have hapart : s.Apart p path := by
      intro l' _ _ hp hq
      rw [hfile] at hp
      rw [hc] at hq
      cases hp
      cases hq
      exact hl rfl
    have hkept := Store.file_replace_of_apart hfile hapart hc e
    exact ⟨t.image.bytes, load_eq_ok_iff.2 ⟨l, c, hkept, hrest⟩⟩

variable (h : t.Verified id s path siblings) (hp : p ∈ siblings)
  (hpath : FileFormat.ofPath p = .ok format) (hfile : s.file p = .ok (loc, b))
  (htampered : t.Tampered format p b e)

include h hp hpath hfile htampered

/-- In a changed sibling another ID is read. -/
theorem Verified.readBytes_tampered :
    ∃ other, other ≠ id ∧ t.readBytes format p e.contents = .ok (e.place, other) :=
  htampered.readBytes (h.carries hp hpath hfile)

/-- Verifying fails if a sibling is changed, even one that is the image's own file. -/
theorem Verified.verdict_of_sibling (hown : ∀ c, s.file path = .ok (loc, c) → t.Undisturbed e) :
    ∃ fault, verdict path siblings t.descriptor (s.replace loc e.contents) = .error fault := by
  obtain ⟨other, hne, hread⟩ := h.readBytes_tampered hp hpath hfile htampered
  have hnew := Store.file_replace_self hfile e.contents
  cases hverdict : verdict path siblings t.descriptor (s.replace loc e.contents) with
  | error fault => exact ⟨fault, rfl⟩
  | ok id' =>
    obtain ⟨u, hu, hverified⟩ := verdict_eq_ok_iff.1 hverdict
    obtain ⟨c, hload⟩ := load_of_changed h.load hfile hown
    have hload' := hverified.load
    rw [hu, hload] at hload'
    cases hload'
    have hcarries := hverified.carries hp hpath hnew
    rw [carries_withBytes] at hcarries
    exact absurd (eq_of_carries hcarries hread) hne

/-- The changed sibling does not pass, and others do if they do not lead to it. -/
theorem Verified.passes_of_apart (hothers : ∀ q ∈ siblings, q ≠ p → s.Apart p q)
    {file : String × Option FileFormat} (hmem : file.1 ∈ siblings)
    (hclass : classify s file.1 = .ok file) :
    t.passes id (s.replace loc e.contents) file =
      if file.1 = p then .error (.idMismatch p e.place) else .ok () := by
  obtain ⟨q, format?⟩ := file
  obtain ⟨-, ⟨hleads, format', hpath', rfl⟩ | ⟨hno, rfl⟩⟩ := classify_eq_ok_iff.1 hclass
  · by_cases hq : q = p
    · subst hq
      dsimp only at hpath'
      rw [hpath] at hpath'
      cases hpath'
      obtain ⟨other, hne, hread⟩ := h.readBytes_tampered hp hpath hfile htampered
      rw [if_pos rfl]
      exact passes_of_ne hpath (Store.file_replace_self hfile e.contents) hread hne
    · obtain ⟨format, l, c, hformat, hc, hcarries⟩ := h.siblings q hmem hleads
      dsimp only at hpath'
      rw [hformat] at hpath'
      cases hpath'
      rw [if_neg hq]
      exact (passes_eq_ok_iff hformat
        (Store.file_replace_of_apart hfile (hothers q hmem hq) hc e)).2 hcarries
  · have hq : q ≠ p := by
      rintro rfl
      rw [Store.leadsTo_of_file hfile] at hno
      contradiction
    rw [if_neg hq]
    rfl

/-- Verifying fails at the changed sibling if no other path leads to it. -/
theorem Verified.verdict_of_apart (himage : s.Apart p path)
    (hothers : ∀ q ∈ siblings, q ≠ p → s.Apart p q) :
    verdict path siblings t.descriptor (s.replace loc e.contents) =
      .error (.idMismatch p e.place) := by
  obtain ⟨l, c, hc, hown⟩ := h.own
  have hkept := Store.file_replace_of_apart hfile himage hc e
  have hload : Target.load (s.replace loc e.contents) path t.descriptor = .ok (t, id) := by
    obtain ⟨l', c', hc', hrest⟩ := load_eq_ok_iff.1 h.load
    rw [hc] at hc'
    cases hc'
    exact load_eq_ok_iff.2 ⟨l, c, hkept, hrest⟩
  obtain ⟨files, hfiles, -⟩ := passes_siblings_iff.2 h.siblings
  have htree := Store.sameTree_replace (Store.file_eq_ok_iff.1 hfile).2 e.contents
  rw [verdict_of_carries hload hkept hown (by rw [← classify_congr htree, hfiles])]
  cases hround : files.forM (t.passes id (s.replace loc e.contents)) with
  | ok u =>
    -- the changed file is among those that would pass
    obtain ⟨file, hmem, hclass⟩ := exists_of_mapM_eq_ok hfiles hp
    obtain ⟨hsibling, hclass'⟩ := classify_of_mem hfiles hmem
    have hpasses := forM_eq_ok_iff.1 hround file hmem
    rw [h.passes_of_apart hp hpath hfile htampered hothers hsibling hclass',
      if_pos (classify_eq_ok_iff.1 hclass).1] at hpasses
    contradiction
  | error fault =>
    obtain ⟨file, hmem, hfault⟩ := exists_of_forM_eq_error hround
    obtain ⟨hsibling, hclass⟩ := classify_of_mem hfiles hmem
    rw [h.passes_of_apart hp hpath hfile htampered hothers hsibling hclass] at hfault
    split at hfault
    · injection hfault with hfault
      rw [hfault]
      rfl
    · contradiction

end Target

/-! ## The main result -/

/-- **Verifying is sound and complete.**  It succeeds with an ID exactly if the build has it.  From
a build that has it, with value bytes changed in the image's own file or in a sibling, verifying
fails; if no other path leads to the changed file it fails because of that file's ID. -/
theorem verify_sound_complete (path : String) (siblings : List String) (d : Descriptor)
    (w : Workspace) :
    (∀ id, (∃ w', (verify path siblings d).run w = .ok id w') ↔
      ∃ t : Target, t.descriptor = d ∧ t.Verified id w.store path siblings) ∧
    ∀ t : Target, t.descriptor = d → ∀ id, t.Verified id w.store path siblings →
      (∀ loc b e, w.store.file path = .ok (loc, b) → t.Tampered .executable path b e →
        t.Undisturbed e → ∃ w', (verify path siblings d).run
          ⟨w.store.replace loc e.contents, w.notices⟩ = .error (.idMismatch path e.place) w') ∧
      ∀ p ∈ siblings, ∀ format loc b e, FileFormat.ofPath p = .ok format →
        w.store.file p = .ok (loc, b) → t.Tampered format p b e →
        (∀ c, w.store.file path = .ok (loc, c) → t.Undisturbed e) →
        ∃ fault w', (verify path siblings d).run ⟨w.store.replace loc e.contents, w.notices⟩ =
            .error fault w' ∧
          (w.store.Apart p path → (∀ q ∈ siblings, q ≠ p → w.store.Apart p q) →
            fault = .idMismatch p e.place) := by
  have hends := endsAs_verify path siblings d
  refine ⟨?_, ?_⟩
  · intro id
    rw [← verdict_eq_ok_iff]
    constructor
    · rintro ⟨w', hrun⟩
      exact (hends w).eq_of_ok hrun
    · intro hverdict
      have hrun := hends w
      rw [hverdict] at hrun
      obtain ⟨w', hrun, -⟩ := Session.endsAs_ok_iff.1 hrun
      exact ⟨w', hrun⟩
  · rintro t rfl id h
    constructor
    · intro loc b e hfile htampered hundisturbed
      have hrun := hends ⟨w.store.replace loc e.contents, w.notices⟩
      rw [h.verdict_of_own hfile htampered hundisturbed] at hrun
      obtain ⟨w', hrun, -⟩ := Session.endsAs_error_iff.1 hrun
      exact ⟨w', hrun⟩
    · intro p hp format loc b e hpath hfile htampered hown
      have hrun := hends ⟨w.store.replace loc e.contents, w.notices⟩
      obtain ⟨fault, hfault⟩ := h.verdict_of_sibling hp hpath hfile htampered hown
      dsimp only at hrun
      rw [hfault] at hrun
      obtain ⟨w', hrun, -⟩ := Session.endsAs_error_iff.1 hrun
      refine ⟨fault, w', hrun, ?_⟩
      intro himage hothers
      rw [h.verdict_of_apart hp hpath hfile htampered himage hothers] at hfault
      injection hfault with hfault
      exact hfault.symm

/-- The image of the sample once it is stamped, and what is read from it. -/
def stampedElf : Bytes := sampleElf.overwrite 90 sampleId.bytes

def stampedTarget : Target := sampleTarget.withBytes stampedElf

/-- What the raw binary of the sample holds once it is stamped. -/
def stampedContents : Bytes := sampleContents.overwrite 6 sampleId.bytes

/-- What its Intel HEX file holds then. -/
def stampedText : Bytes :=
  Bytes.ofText
    ":1B8000000102F0251400E1AFF3FAAE30FC2BE5ED32C1953A01E2707A17ED074B\n:00000001FF\n"

/-! Each with one value byte changed. -/

def changedElf : Edit where
  place := 90
  contents := stampedElf.set 92 0

def changedContents : Edit where
  place := 6
  contents := stampedContents.set 25 0

def changedText : Edit where
  place := 0x8006
  contents := Bytes.ofText
    ":1B8000000102F025140000AFF3FAAE30FC2BE5ED32C1953A01E2707A17ED072C\n:00000001FF\n"

theorem tampered_changedElf :
    stampedTarget.Tampered .executable "a.elf" stampedElf changedElf := by
  have hparse : Image.parse "a.elf" stampedElf = .ok stampedTarget.image := by decide +kernel
  have hbyte : stampedElf[90 + 2]? = some 0xf3 := by decide +kernel
  refine ⟨?_, stampedTarget.image, 86, hparse, by decide +kernel, rfl, ?_⟩
  · intro image himage
    rw [hparse] at himage
    cases himage
    unfold Image.KeepsTables
    decide +kernel
  · exact valueChanged_set (by decide) hbyte (by decide)

theorem tampered_changedContents :
    stampedTarget.Tampered .rawBinary "a.bin" stampedContents changedContents := by
  have hbyte : stampedContents[6 + 19]? = some 0xed := by decide +kernel
  refine ⟨?_, 2, by decide +kernel, rfl, ?_⟩
  · exact .inl ⟨0x8002, 0x8000, by decide +kernel, by decide +kernel, by decide, rfl⟩
  · exact valueChanged_set (by decide) hbyte (by decide)

theorem tampered_changedText :
    stampedTarget.Tampered .intelHex "a.hex" stampedText changedText := by
  have hset : IntelHex.Listing.set? ⟨[.data 0x8000 stampedContents, .endOfFile]⟩ (0x8006 + 0) 0 =
      some ⟨[.data 0x8000 (stampedContents.set 6 0), .endOfFile]⟩ := by
    decide +kernel
  have hbyte : IntelHex.Listing.get? ⟨[.data 0x8000 stampedContents, .endOfFile]⟩ (0x8006 + 0) =
      some 0xe1 := by
    decide +kernel
  refine ⟨trivial, 0x8002, _, _, by decide +kernel, rfl, by decide +kernel, by decide +kernel,
    valueChanged_of_byte (by decide) hbyte (by decide) (IntelHex.Listing.get?_set? hset)⟩

/-- The stamped sample is verified, and with one byte changed in any of its files it is not. -/
theorem verify_stampedBuild :
    (∃ w', (verify "a.elf" ["a.bin", "a.hex", "b.exe"] ⟨"id", .standard⟩).run stampedBuild =
      .ok sampleId w') ∧
    stampedTarget.Verified sampleId stampedBuild.store "a.elf" ["a.bin", "a.hex", "b.exe"] ∧
    (∃ w', (verify "a.elf" ["a.bin", "a.hex", "b.exe"] ⟨"id", .standard⟩).run
      ⟨stampedBuild.store.replace ["a.elf"] changedElf.contents, stampedBuild.notices⟩ =
        .error (.idMismatch "a.elf" 90) w') ∧
    (∃ w', (verify "a.elf" ["a.bin", "a.hex", "b.exe"] ⟨"id", .standard⟩).run
      ⟨stampedBuild.store.replace ["a.bin"] changedContents.contents, stampedBuild.notices⟩ =
        .error (.idMismatch "a.bin" 6) w') ∧
    ∃ w', (verify "a.elf" ["a.bin", "a.hex", "b.exe"] ⟨"id", .standard⟩).run
      ⟨stampedBuild.store.replace ["a.hex"] changedText.contents, stampedBuild.notices⟩ =
        .error (.idMismatch "a.hex" 0x8006) w' := by
  have hrun : (verify "a.elf" ["a.bin", "a.hex", "b.exe"] ⟨"id", .standard⟩).run stampedBuild =
      .ok sampleId stampedBuild := by
    decide +kernel
  have hload : Target.load stampedBuild.store "a.elf" ⟨"id", .standard⟩ =
      .ok (stampedTarget, sampleId) := by
    decide +kernel
  have helf : stampedBuild.store.file "a.elf" = .ok (["a.elf"], stampedElf) := by decide +kernel
  have hbin : stampedBuild.store.file "a.bin" = .ok (["a.bin"], stampedContents) := by
    decide +kernel
  have hhex : stampedBuild.store.file "a.hex" = .ok (["a.hex"], stampedText) := by decide +kernel
  have hplaces : ∀ p ∈ ["a.bin", "a.hex"], ∀ q ∈ ["a.elf", "a.bin", "a.hex", "b.exe"], q ≠ p →
      stampedBuild.store.locate p ≠ stampedBuild.store.locate q := by
    decide +kernel
  have hundisturbed : stampedTarget.Undisturbed changedElf := by
    unfold Target.Undisturbed Image.KeepsTables
    decide +kernel
  obtain ⟨hiff, hchanged⟩ := verify_sound_complete "a.elf" ["a.bin", "a.hex", "b.exe"]
    ⟨"id", .standard⟩ stampedBuild
  obtain ⟨t, ht, hverified⟩ := (hiff sampleId).1 ⟨_, hrun⟩
  have hsame := hverified.load
  rw [ht, hload] at hsame
  cases hsame
  obtain ⟨hown, hsiblings⟩ := hchanged stampedTarget rfl sampleId hverified
  -- neither sibling is one file with the image or with another sibling
  have hapart : ∀ p ∈ ["a.bin", "a.hex"], ∀ q ∈ ["a.elf", "a.bin", "a.hex", "b.exe"], q ≠ p →
      stampedBuild.store.Apart p q :=
    fun p hp q hq hne => .of_locate_ne (hplaces p hp q hq hne)
  refine ⟨⟨_, hrun⟩, hverified, ?_, ?_, ?_⟩
  · exact hown _ _ _ helf tampered_changedElf hundisturbed
  · have hbinApart := hapart "a.bin" (by decide)
    have himage := hbinApart "a.elf" (by decide) (by decide)
    obtain ⟨fault, w', hfails, hfault⟩ := hsiblings "a.bin" (by decide) .rawBinary _ _ _
      (by decide +kernel) hbin tampered_changedContents
      fun c hc => absurd hc (himage _ _ _ hbin)
    rw [hfault himage fun q hq => hbinApart q (List.mem_cons_of_mem _ hq)] at hfails
    exact ⟨w', hfails⟩
  · have hhexApart := hapart "a.hex" (by decide)
    have himage := hhexApart "a.elf" (by decide) (by decide)
    obtain ⟨fault, w', hfails, hfault⟩ := hsiblings "a.hex" (by decide) .intelHex _ _ _
      (by decide +kernel) hhex tampered_changedText
      fun c hc => absurd hc (himage _ _ _ hhex)
    rw [hfault himage fun q hq => hhexApart q (List.mem_cons_of_mem _ hq)] at hfails
    exact ⟨w', hfails⟩

end FirmwareStamp
