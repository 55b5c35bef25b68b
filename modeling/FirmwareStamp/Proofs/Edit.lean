import FirmwareStamp.Proofs.Session
import FirmwareStamp.Proofs.StoreFrame
import FirmwareStamp.Proofs.Windows
import FirmwareStamp.Stamp

/-!
# Stamping and reading a file, seen from its contents

What stamping makes of a file depends on the contents of that file alone.  `edit` says what it
makes of them, and a session that stamps makes this edit or fails without a change:

    (t.stamp format path id).Edits path (t.edit format path id)                    (edits_stamp)

What is read from a file is likewise a function of its contents (`read_eq_readBytes`).
-/

namespace FirmwareStamp

/-- New contents of a file, with the ID from `place` on. -/
structure Edit where
  place : Nat
  contents : Bytes
deriving DecidableEq

/-- The listing in the contents of a file. -/
def listingOf (path : String) (b : Bytes) : Except Error IntelHex.Listing :=
  match b.text? with
  | some text => (IntelHex.Listing.parse text).mapError (.hex path)
  | none => .error (.io path .notText)

namespace Target

/-! ## Edits -/

/-- What stamping makes of the image's own file. -/
def editImage (t : Target) (id : BuildId) (b : Bytes) : Except Error Edit := do
  let offset ← t.image.fileOffset t.address
  if offset + placeholderLength < Store.offsetLimit then
    let _ ← t.descriptor.check t.image.path offset (b.slice offset placeholderLength)
    return ⟨offset + Magic.length, b.overwrite (offset + Magic.length) id.bytes⟩
  else .error (.io t.image.path .invalidOffset)

/-- What stamping makes of an Intel HEX file. -/
def editIntelHex (t : Target) (path : String) (id : BuildId) (b : Bytes) : Except Error Edit := do
  let address ← t.hexAddress path
  let listing ← listingOf path b
  let _ ← t.descriptor.check path address (listing.read address placeholderLength)
  let place := address + Magic.length
  if IntelHex.addressLimit ≤ place then .error .overflow
  else match listing.write? place id.bytes with
    | none => .error (.notMapped path place .hexRecord)
    | some stamped =>
      let text ← stamped.render.mapError (.hex path)
      return ⟨place, Bytes.ofText text⟩

/-- What stamping makes of a raw binary; nothing if it is left alone. -/
def editRawBinary (t : Target) (path : String) (id : BuildId) (b : Bytes) :
    Except Error (Option Edit) := do
  match ← t.rawOffset? b with
  | none => return none
  | some offset =>
    let place := offset + Magic.length
    if offset + placeholderLength < Store.offsetLimit then
      return some ⟨place, b.overwrite place id.bytes⟩
    else .error (.io path .invalidOffset)

/-- What stamping makes of a file of a format; nothing if it is left alone. -/
def edit (t : Target) (format : FileFormat) (path : String) (id : BuildId) (b : Bytes) :
    Except Error (Option Edit) :=
  match format with
  | .executable => do
    let image ← Image.parse path b
    some <$> { t with image }.editImage id b
  | .intelHex => some <$> t.editIntelHex path id b
  | .rawBinary => t.editRawBinary path id b

/-! ## Reads -/

/-- What is read from the contents of a file of a format. -/
def readBytes (t : Target) (format : FileFormat) (path : String) (b : Bytes) :
    Except Error (Nat × BuildId) :=
  match format with
  | .executable => do
    let image ← Image.parse path b
    { t with image }.readImage
  | .intelHex => do
    let address ← t.hexAddress path
    let listing ← listingOf path b
    let id ← t.descriptor.check path address (listing.read address placeholderLength)
    return (address + Magic.length, id)
  | .rawBinary => do
    match ← t.rawOffset? b with
    | some offset =>
      let id ← t.descriptor.check path offset (b.slice offset placeholderLength)
      return (offset + Magic.length, id)
    | none =>
      let offset := (← t.image.loadAddress t.address) - (← t.image.baseAddress)
      throw (.headerMismatch path offset t.descriptor.magic.bytes (b.slice offset Magic.length))

end Target

/-! ## Sessions -/

/-- What becomes of a file with an edit or without one. -/
def Outcome.ofEdit : Option Edit → Outcome
  | some e => .stamped e.place
  | none => .leftAlone

/-- The store with an edit of the file at a place, or without one. -/
def Store.edited (s : Store) (loc : Location) : Option Edit → Store
  | some e => s.replace loc e.contents
  | none => s

/-- How a session ends that stamps the file at a place and leaves notices. -/
def Workspace.edited (w : Workspace) (loc : Location) (notices : List Notice) :
    Except Error (Option Edit) → EStateM.Result Error Workspace Outcome
  | .ok e? => .ok (.ofEdit e?) ⟨w.store.edited loc e?, notices⟩
  | .error e => .error e ⟨w.store, notices⟩

/-- Whether a session makes an edit of a file, and without the file or an edit of it fails and
changes nothing. -/
structure Session.Edits (x : Session Outcome) (path : String)
    (edit : Bytes → Except Error (Option Edit)) : Prop where
  run_of_file : ∀ {w : Workspace} {loc : Location} {b : Bytes}, w.store.file path = .ok (loc, b) →
    ∃ notices, x.run w = w.edited loc notices (edit b)
  run_of_fault : ∀ {w : Workspace} {fault : Store.Fault}, w.store.file path = .error fault →
    ∃ e, x.run w = .error e w

/-! ## Lemmas -/

namespace Store

variable {s : Store} {path : String} {loc : Location} {b : Bytes}

theorem read_eq_ok (h : s.file path = .ok (loc, b)) : s.read path = .ok b := by
  unfold read
  rw [h]
  rfl

theorem exists_file_of_read (h : s.read path = .ok b) : ∃ loc, s.file path = .ok (loc, b) := by
  obtain ⟨⟨loc, c⟩, hfile, h⟩ := bind_eq_ok.1 h
  injection h with h
  exact ⟨loc, by rw [hfile, ← h]⟩

theorem fetch_eq_ok (h : s.file path = .ok (loc, b)) : s.fetch path = .ok b := by
  unfold fetch
  rw [read_eq_ok h]
  rfl

theorem exists_file_of_fetch (h : s.fetch path = .ok b) : ∃ loc, s.file path = .ok (loc, b) := by
  apply exists_file_of_read
  unfold fetch at h
  cases hread : s.read path with
  | error fault =>
    rw [hread] at h
    contradiction
  | ok c =>
    rw [hread] at h
    injection h with h
    rw [h]

theorem load_eq_parse (h : s.file path = .ok (loc, b)) :
    Image.load s path = Image.parse path b := by
  unfold Image.load
  rw [read_eq_ok h]

theorem listing_eq_listingOf (h : s.file path = .ok (loc, b)) :
    s.listing path = listingOf path b := by
  unfold listing readText listingOf
  rw [read_eq_ok h]
  simp only [bind, Except.bind]
  cases b.text? <;> rfl

theorem write_eq_ok (h : s.file path = .ok (loc, b)) (new : Bytes) :
    s.write path new = .ok (s.replace loc new) := by
  unfold write
  rw [h]
  rfl

theorem readAt_eq (h : s.file path = .ok (loc, b)) (offset length : Nat) :
    s.readAt path offset length =
      if offset + length < offsetLimit then .ok (b.slice offset length)
      else .error .invalidOffset := by
  unfold readAt
  rw [h]
  rfl

theorem writeAt_eq (h : s.file path = .ok (loc, b)) (offset : Nat) (new : Bytes) :
    s.writeAt path offset new =
      if offset + new.length < offsetLimit then .ok (s.replace loc (b.overwrite offset new))
      else .error .invalidOffset := by
  unfold writeAt
  rw [h]
  rfl

theorem read_eq_error {fault : Fault} (h : s.file path = .error fault) :
    s.read path = .error fault := by
  unfold read
  rw [h]
  rfl

end Store

theorem Image.path_of_parse {path : String} {b : Bytes} {image : Image}
    (h : Image.parse path b = .ok image) : path = image.path := by
  unfold parse at h
  split at h
  · contradiction
  · injection h with h
    rw [← h]

theorem Image.bytes_of_parse {path : String} {b : Bytes} {image : Image}
    (h : Image.parse path b = .ok image) : image.bytes = b := by
  unfold parse at h
  split at h
  · contradiction
  · injection h with h
    rw [← h]

namespace Session.Edits

variable {x : Session Outcome} {path : String} {edit : Bytes → Except Error (Option Edit)}
  {w w' : Workspace}

/-- A failure leaves all files as they were. -/
theorem store_of_error {e : Error} (hx : x.Edits path edit) (h : x.run w = .error e w') :
    w'.store = w.store := by
  cases hfile : w.store.file path with
  | error fault =>
    obtain ⟨e', he⟩ := hx.run_of_fault hfile
    rw [he] at h
    injection h with _ h
    rw [← h]
  | ok found =>
    obtain ⟨notices, hrun⟩ := hx.run_of_file hfile
    rw [hrun] at h
    cases hedit : edit found.2 with
    | error e' =>
      rw [hedit] at h
      injection h with _ h
      rw [← h]
    | ok e? =>
      rw [hedit] at h
      contradiction

/-- If it does not fail on a file, the file has an edit and gets it. -/
theorem of_ok_of_file {o : Outcome} {loc : Location} {b : Bytes} (hx : x.Edits path edit)
    (hfile : w.store.file path = .ok (loc, b)) (h : x.run w = .ok o w') :
    ∃ e?, edit b = .ok e? ∧ o = .ofEdit e? ∧ w'.store = w.store.edited loc e? := by
  obtain ⟨notices, hrun⟩ := hx.run_of_file hfile
  rw [hrun] at h
  cases hedit : edit b with
  | error e' =>
    rw [hedit] at h
    contradiction
  | ok e? =>
    rw [hedit] at h
    injection h with ho hw
    exact ⟨e?, rfl, ho.symm, by rw [← hw]⟩

/-- If it does not fail there is a file. -/
theorem of_ok {o : Outcome} (hx : x.Edits path edit) (h : x.run w = .ok o w') :
    ∃ loc b e?, w.store.file path = .ok (loc, b) ∧ edit b = .ok e? ∧ o = .ofEdit e? ∧
      w'.store = w.store.edited loc e? := by
  cases hfile : w.store.file path with
  | error fault =>
    obtain ⟨e', he⟩ := hx.run_of_fault hfile
    rw [he] at h
    contradiction
  | ok found =>
    obtain ⟨e?, hedit, ho, hstore⟩ := hx.of_ok_of_file hfile h
    exact ⟨found.1, found.2, e?, rfl, hedit, ho, hstore⟩

/-- If the file is there and has an edit, the edit is made. -/
theorem run_of_ok {loc : Location} {b : Bytes} {e? : Option Edit} (hx : x.Edits path edit)
    (hfile : w.store.file path = .ok (loc, b)) (hedit : edit b = .ok e?) :
    ∃ w', x.run w = .ok (.ofEdit e?) w' ∧ w'.store = w.store.edited loc e? := by
  obtain ⟨notices, hrun⟩ := hx.run_of_file hfile
  rw [hedit] at hrun
  exact ⟨_, hrun, rfl⟩

/-- An edit that is made already changes nothing when it is made again. -/
theorem run_again {loc : Location} {b : Bytes} {e? : Option Edit} (hx : x.Edits path edit)
    (hfile : w.store.file path = .ok (loc, b)) (hedit : edit b = .ok e?)
    (hsame : ∀ e ∈ e?, e.contents = b) :
    ∃ w', x.run w = .ok (.ofEdit e?) w' ∧ w'.store.node? = w.store.node? := by
  obtain ⟨w', hrun, hstore⟩ := hx.run_of_ok hfile hedit
  refine ⟨w', hrun, ?_⟩
  rw [hstore]
  cases e? with
  | none => rfl
  | some e =>
    unfold Store.edited
    dsimp only
    rw [hsame e rfl]
    exact Store.node?_replace_self (Store.file_eq_ok_iff.1 hfile).2

end Session.Edits

namespace Target

variable {t : Target} {id : BuildId} {w : Workspace} {path : String} {loc : Location} {b : Bytes}

/-- The image's own file is stamped by its edit. -/
theorem run_stampImage (h : w.store.file t.image.path = .ok (loc, b)) :
    ∃ notices, (t.stampImage id).run w = w.edited loc notices (some <$> t.editImage id b) := by
  unfold stampImage editImage
  cases hoffset : t.image.fileOffset t.address with
  | error e => exact ⟨w.notices, rfl⟩
  | ok offset =>
    simp only [EStateM.run_bind, Session.run_lift_ok, Session.run_store, Store.readAt_eq h, ok_bind]
    by_cases hlimit : offset + placeholderLength < Store.offsetLimit
    · rw [if_pos hlimit, if_pos hlimit]
      simp only [mapError_ok, Session.run_lift_ok]
      cases hcheck : t.descriptor.check t.image.path offset (b.slice offset placeholderLength) with
      | error e => exact ⟨w.notices, rfl⟩
      | ok found =>
        refine ⟨w.notices ++ [.stamping .executable t.image.path id (offset + Magic.length)], ?_⟩
        have hplace : offset + Magic.length + id.bytes.length < Store.offsetLimit := by
          rw [id.length_eq]
          exact hlimit
        simp only [Session.run_lift_ok, Session.run_tell, Store.writeAt_eq h, if_pos hplace,
          Session.run_commit_ok]
        rfl
    · rw [if_neg hlimit, if_neg hlimit]
      exact ⟨w.notices, rfl⟩

/-- Where there is no file no image is stamped. -/
theorem run_stampImage_of_fault {fault : Store.Fault}
    (h : w.store.file t.image.path = .error fault) :
    ∃ e, (t.stampImage id).run w = .error e w := by
  unfold stampImage
  cases hoffset : t.image.fileOffset t.address with
  | error e => exact ⟨e, rfl⟩
  | ok offset =>
    refine ⟨.io t.image.path fault, ?_⟩
    simp only [EStateM.run_bind, Session.run_lift_ok, Session.run_store, Store.readAt, h]
    rfl

theorem run_stampExecutable (h : w.store.file path = .ok (loc, b)) :
    ∃ notices, (t.stampExecutable path id).run w =
      w.edited loc notices (t.edit .executable path id b) := by
  unfold stampExecutable edit
  simp only [EStateM.run_bind, Session.run_store, Store.load_eq_parse h]
  cases hparse : Image.parse path b with
  | error e => exact ⟨w.notices, rfl⟩
  | ok image =>
    obtain rfl := Image.path_of_parse hparse
    simp only [Session.run_lift_ok, ok_bind]
    exact run_stampImage h

theorem run_stampIntelHex (h : w.store.file path = .ok (loc, b)) :
    ∃ notices, (t.stampIntelHex path id).run w =
      w.edited loc notices (t.edit .intelHex path id b) := by
  unfold stampIntelHex edit editIntelHex
  cases haddress : t.hexAddress path with
  | error e => exact ⟨w.notices, rfl⟩
  | ok address =>
    simp only [EStateM.run_bind, Session.run_lift_ok, Session.run_store,
      Store.listing_eq_listingOf h, ok_bind]
    cases hlisting : listingOf path b with
    | error e => exact ⟨w.notices, rfl⟩
    | ok listing =>
      simp only [Session.run_lift_ok, ok_bind]
      cases t.descriptor.check path address (listing.read address placeholderLength) with
      | error e => exact ⟨w.notices, rfl⟩
      | ok found =>
        simp only [Session.run_lift_ok, ok_bind]
        by_cases hlimit : IntelHex.addressLimit ≤ address + Magic.length
        · rw [if_pos hlimit, if_pos hlimit]
          exact ⟨w.notices, rfl⟩
        · rw [if_neg hlimit, if_neg hlimit]
          -- from here on the notice stands, whatever comes of the write
          refine ⟨w.notices ++ [.stamping .intelHex path id (address + Magic.length)], ?_⟩
          simp only [EStateM.run_bind, Session.run_tell]
          cases listing.write? (address + Magic.length) id.bytes with
          | none => rfl
          | some stamped =>
            dsimp only
            cases stamped.render with
            | error fault => rfl
            | ok text =>
              simp only [mapError_ok, EStateM.run_bind, Session.run_lift_ok,
                Store.write_eq_ok h, Session.run_commit_ok]
              rfl

/-- A placeholder is looked for where its load address puts it, and then everywhere. -/
theorem rawOffset?_eq_some_iff {offset : Nat} :
    t.rawOffset? b = .ok (some offset) ↔
      ∃ address base, t.image.loadAddress t.address = .ok address ∧
        t.image.baseAddress = .ok base ∧
        ((base ≤ address ∧ offset = address - base ∧
            t.descriptor.magic.standsAt b offset = true) ∨
          (¬ (base ≤ address ∧ t.descriptor.magic.standsAt b (address - base) = true) ∧
            t.descriptor.magic.hits b = [offset])) := by
  unfold rawOffset?
  cases t.image.loadAddress t.address with
  | error e => simp
  | ok address =>
    cases t.image.baseAddress with
    | error e => simp
    | ok base =>
      simp only [ok_bind, Except.ok.injEq, exists_eq_left', exists_and_left]
      split
      · next hhere =>
        constructor
        · rintro ⟨⟩
          exact .inl ⟨hhere.1, rfl, hhere.2⟩
        · rintro (⟨-, rfl, -⟩ | ⟨hnot, -⟩)
          · rfl
          · exact absurd hhere hnot
      · next hnot =>
        constructor
        · intro h
          split at h
          · next hit hhits =>
            injection h with h
            injection h with h
            rw [← h]
            exact .inr ⟨hnot, hhits⟩
          · cases h
        · rintro (⟨hle, rfl, hstands⟩ | ⟨-, hhits⟩)
          · exact absurd ⟨hle, hstands⟩ hnot
          · rw [hhits]
            rfl

theorem standsAt_of_rawOffset? {offset : Nat} (h : t.rawOffset? b = .ok (some offset)) :
    t.descriptor.magic.standsAt b offset = true := by
  obtain ⟨_, _, -, -, ⟨-, -, hstands⟩ | ⟨-, hhits⟩⟩ := rawOffset?_eq_some_iff.1 h
  · exact hstands
  · exact (Magic.hits_eq_singleton_iff.1 hhits offset).2 rfl

/-- In a raw binary the ID that was written is found again: the checks after the write pass. -/
theorem run_stampRawBinary (h : w.store.file path = .ok (loc, b)) :
    ∃ notices, (t.stampRawBinary path id).run w =
      w.edited loc notices (t.edit .rawBinary path id b) := by
  unfold stampRawBinary edit editRawBinary
  simp only [EStateM.run_bind, Session.run_store, Store.fetch_eq_ok h, Session.run_lift_ok]
  cases hraw : t.rawOffset? b with
  | error e => exact ⟨w.notices, rfl⟩
  | ok found =>
    simp only [Session.run_lift_ok, ok_bind]
    cases found with
    | none => exact ⟨w.notices ++ [.leftAlone path], rfl⟩
    | some offset =>
      refine ⟨w.notices ++ [.stamping .rawBinary path id (offset + Magic.length)], ?_⟩
      obtain ⟨old, hold⟩ := Magic.standsAt_iff.1 (standsAt_of_rawOffset? hraw)
      have hplace : offset + Magic.length + id.bytes.length = offset + placeholderLength := by
        rw [id.length_eq]
        rfl
      simp only [EStateM.run_bind, Session.run_tell, Store.writeAt_eq h, hplace]
      by_cases hlimit : offset + placeholderLength < Store.offsetLimit
      · have hcheck : t.descriptor.check path offset
            ((b.overwrite (offset + Magic.length) id.bytes).slice offset placeholderLength) =
              .ok id :=
          Descriptor.check_eq_ok_iff.2 (Magic.slice_overwrite_value hold id)
        rw [if_pos hlimit, if_pos hlimit]
        simp only [Session.run_commit_ok, Session.run_store,
          Store.fetch_eq_ok (Store.file_replace_self h _), Session.run_lift_ok, hcheck]
        rw [if_neg (by simp)]
        rfl
      · rw [if_neg hlimit, if_neg hlimit]
        rfl

/-- Where there is no file nothing is stamped. -/
theorem run_stamp_of_fault {fault : Store.Fault} (format : FileFormat)
    (h : w.store.file path = .error fault) : ∃ e, (t.stamp format path id).run w = .error e w := by
  have hread := Store.read_eq_error h
  cases format with
  | executable =>
    refine ⟨.io path fault, ?_⟩
    simp only [stamp, stampExecutable, EStateM.run_bind, Session.run_store, Image.load, hread]
    rfl
  | intelHex =>
    unfold stamp stampIntelHex
    cases t.hexAddress path with
    | error e => exact ⟨e, rfl⟩
    | ok address =>
      refine ⟨.io path fault, ?_⟩
      simp only [EStateM.run_bind, Session.run_lift_ok, Session.run_store, Store.listing,
        Store.readText, hread]
      rfl
  | rawBinary =>
    refine ⟨.io path fault, ?_⟩
    simp only [stamp, stampRawBinary, EStateM.run_bind, Session.run_store, Store.fetch, hread]
    rfl

/-- **The image's own file.**  Stamping it makes its edit. -/
theorem edits_stampImage (t : Target) (id : BuildId) :
    (t.stampImage id).Edits t.image.path fun b => some <$> t.editImage id b :=
  ⟨run_stampImage, run_stampImage_of_fault⟩

/-- If the image's own file is stamped, it has an edit and gets it. -/
theorem stampImage_eq_ok {o : Outcome} {w' : Workspace}
    (hfile : w.store.file t.image.path = .ok (loc, b)) (h : (t.stampImage id).run w = .ok o w') :
    ∃ e, t.editImage id b = .ok e ∧ o = .stamped e.place ∧
      w'.store = w.store.replace loc e.contents := by
  obtain ⟨e?, hmap, ho, hstore⟩ := (edits_stampImage t id).of_ok_of_file hfile h
  obtain ⟨e, hedit, rfl⟩ := map_eq_ok.1 hmap
  exact ⟨e, hedit, ho, hstore⟩

/-- **One file.**  Stamping a file of any format makes its edit. -/
theorem edits_stamp (t : Target) (format : FileFormat) (path : String) (id : BuildId) :
    (t.stamp format path id).Edits path (t.edit format path id) := by
  refine ⟨?_, run_stamp_of_fault format⟩
  intro w loc b h
  cases format with
  | executable => exact run_stampExecutable h
  | intelHex => exact run_stampIntelHex h
  | rawBinary => exact run_stampRawBinary h

/-- A file that is stamped has an edit and gets it. -/
theorem edit_of_stamp (format : FileFormat) {place : Nat} {w' : Workspace}
    (h : (t.stamp format path id).run w = .ok (.stamped place) w') :
    ∃ loc b contents, w.store.file path = .ok (loc, b) ∧
      t.edit format path id b = .ok (some ⟨place, contents⟩) ∧
      w'.store = w.store.replace loc contents ∧ w'.store.file path = .ok (loc, contents) := by
  obtain ⟨loc, b, e?, hfile, hedit, hout, hstore⟩ := (edits_stamp t format path id).of_ok h
  cases e? with
  | none => cases hout
  | some e =>
    injection hout with hplace
    subst hplace
    refine ⟨loc, b, e.contents, hfile, hedit, hstore, ?_⟩
    rw [hstore]
    exact Store.file_replace_self hfile _

/-- What is read from a file depends on its contents. -/
theorem read_eq_readBytes {s : Store} (format : FileFormat) (h : s.file path = .ok (loc, b)) :
    t.read format s path = t.readBytes format path b := by
  cases format with
  | executable =>
    unfold read readExecutable readBytes
    rw [Store.load_eq_parse h]
  | intelHex =>
    unfold read readIntelHex readBytes
    rw [Store.listing_eq_listingOf h]
  | rawBinary =>
    unfold read readRawBinary readBytes
    rw [Store.fetch_eq_ok h]
    rfl

end Target

end FirmwareStamp
