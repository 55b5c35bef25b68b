import FirmwareStamp.Proofs.OneFile

/-!
# Placeholders that stamping makes

A raw binary is searched for its placeholder each time it is stamped or read.  An ID may hold the
magic, or begin it before the bytes after the ID go on with it, and then stamping makes a
placeholder that was not there.  It begins inside the stamped one (`standsAt_overwrite_iff`), and
nothing else can keep the stamped one from being found again:

    (t.stampRawBinary path id).run w = .ok (.stamped place) w' →
      (t.readRawBinary w'.store path = .ok (place, id) ↔
        t.Expects offset ∨ ¬ t.descriptor.magic.Echoes new offset)   (readRawBinary_stampRawBinary)

The checks after the write look at the offset that was found before it, so they pass all the same.
-/

namespace FirmwareStamp

namespace Magic

/-- Whether another placeholder begins inside the one at an offset. -/
def Echoes (m : Magic) (b : Bytes) (offset : Nat) : Prop :=
  ∃ o, o < offset + placeholderLength ∧ offset < o ∧ m.standsAt b o = true

instance decidableEchoes (m : Magic) (b : Bytes) (offset : Nat) : Decidable (m.Echoes b offset) :=
  inferInstanceAs (Decidable
    (∃ o, o < offset + placeholderLength ∧ offset < o ∧ m.standsAt b o = true))

end Magic

/-- Whether a raw binary of an image should have the placeholder at an offset. -/
def Target.Expects (t : Target) (offset : Nat) : Prop :=
  ∃ address base, t.image.loadAddress t.address = .ok address ∧ t.image.baseAddress = .ok base ∧
    base ≤ address ∧ offset = address - base

/-! ## Placeholders around a write -/

namespace Magic

variable {m : Magic} {b : Bytes} {offset o : Nat}

/-- A placeholder stands where the magic is and the file is long enough, whatever comes after the
magic. -/
theorem standsAt_iff_slice_magic :
    m.standsAt b o = true ↔ o + placeholderLength ≤ b.length ∧ b.slice o length = m.bytes := by
  constructor
  · intro h
    obtain ⟨id, hslice⟩ := standsAt_iff.1 h
    exact ⟨le_length_of_slice hslice, slice_magic hslice⟩
  · rintro ⟨hfits, hmagic⟩
    refine standsAt_iff.2 ⟨⟨b.slice (o + length) BuildId.length, ?_⟩, ?_⟩
    · rw [Bytes.length_slice]
      simp only [placeholderLength, length, BuildId.length] at hfits ⊢
      omega
    · rw [← hmagic, Bytes.slice_append_slice]
      rfl

/-- Stamping makes or destroys placeholders only inside the one that is stamped. -/
theorem standsAt_overwrite_iff (id : BuildId) (hfits : offset + placeholderLength ≤ b.length)
    (ho : o ≤ offset ∨ offset + placeholderLength ≤ o) :
    m.standsAt (b.overwrite (offset + length) id.bytes) o = true ↔ m.standsAt b o = true := by
  have hid : id.bytes.length = BuildId.length := id.length_eq
  have hvalue : offset + length + id.bytes.length ≤ b.length := by
    rw [hid]
    exact hfits
  have hapart : o + length ≤ offset + length ∨ offset + length + id.bytes.length ≤ o := by
    rw [hid]
    exact ho.imp_left (Nat.add_le_add_right · _)
  rw [standsAt_iff_slice_magic, standsAt_iff_slice_magic, Bytes.length_overwrite _ _ _ hvalue,
    Bytes.slice_overwrite_apart hvalue hapart]

end Magic

namespace Target

variable {t : Target} {path : String} {id found : BuildId} {place offset : Nat} {b : Bytes}
  {w w' : Workspace}

/-! ## The search -/

/-- A placeholder that is found stands where it should, or no other begins inside it. -/
theorem expects_or_not_echoes (h : t.rawOffset? b = .ok (some offset)) :
    t.Expects offset ∨ ¬ t.descriptor.magic.Echoes b offset := by
  obtain ⟨address, base, haddress, hbase, ⟨hle, heq, -⟩ | ⟨-, hhits⟩⟩ := rawOffset?_eq_some_iff.1 h
  · exact .inl ⟨address, base, haddress, hbase, hle, heq⟩
  · refine .inr ?_
    rintro ⟨o, -, hlt, ho⟩
    have := (Magic.hits_eq_singleton_iff.1 hhits o).1 ho
    omega

/-- That is all it takes to find a placeholder again once it is stamped. -/
theorem isLocated_stamped (h : t.rawOffset? b = .ok (some offset))
    (hfind : t.Expects offset ∨
      ¬ t.descriptor.magic.Echoes (b.overwrite (offset + Magic.length) id.bytes) offset) :
    t.IsLocated ⟨offset + Magic.length, b.overwrite (offset + Magic.length) id.bytes⟩ := by
  have hexpected (hhere : t.Expects offset) :
      t.IsLocated ⟨offset + Magic.length, b.overwrite (offset + Magic.length) id.bytes⟩ := by
    obtain ⟨address, base, haddress, hbase, hle, rfl⟩ := hhere
    exact .inl ⟨address, base, haddress, hbase, hle, rfl⟩
  obtain hhere | hnone := hfind
  · exact hexpected hhere
  · obtain ⟨old, hslice⟩ := Magic.standsAt_iff.1 (standsAt_of_rawOffset? h)
    have hfits := Magic.le_length_of_slice hslice
    obtain ⟨address, base, haddress, hbase, ⟨hle, heq, -⟩ | ⟨-, hhits⟩⟩ :=
      rawOffset?_eq_some_iff.1 h
    · exact hexpected ⟨address, base, haddress, hbase, hle, heq⟩
    · -- it was the only placeholder, and a new one would begin inside it
      refine .inr fun o ho => ?_
      by_cases hinside : offset < o ∧ o < offset + placeholderLength
      · exact absurd ⟨o, hinside.2, hinside.1, ho⟩ hnone
      · have hold := (Magic.standsAt_overwrite_iff id hfits (by omega)).1 ho
        rw [(Magic.hits_eq_singleton_iff.1 hhits o).1 hold]

theorem rawOffset?_of_readBytes
    (h : t.readBytes .rawBinary path b = .ok (offset + Magic.length, found)) :
    t.rawOffset? b = .ok (some offset) := by
  obtain ⟨again, hagain, -, hplace⟩ := readBytes_rawBinary_eq_ok_iff.1 h
  rw [hagain, Nat.add_right_cancel hplace]

/-! ## Stamped raw binaries -/

/-- **Raw binaries.**  One that is stamped has the ID, after the magic, in the stead of the value
bytes of the placeholder that was found.  The ID is read from there, and stamping once more changes
nothing, exactly if the placeholder stands where it should or no other begins inside it now. -/
theorem readRawBinary_stampRawBinary
    (h : (t.stampRawBinary path id).run w = .ok (.stamped place) w') :
    ∃ loc old new offset, w.store.file path = .ok (loc, old) ∧
      w'.store = w.store.replace loc new ∧ w'.store.file path = .ok (loc, new) ∧
      t.rawOffset? old = .ok (some offset) ∧ place = offset + Magic.length ∧
      id.Replaces place old new ∧
      (t.readRawBinary w'.store path = .ok (place, id) ↔
        t.Expects offset ∨ ¬ t.descriptor.magic.Echoes new offset) ∧
      ((∃ u, (t.stampRawBinary path id).run w' = .ok (.stamped place) u ∧
          u.store.node? = w'.store.node?) ↔
        t.Expects offset ∨ ¬ t.descriptor.magic.Echoes new offset) := by
  obtain ⟨loc, b, new, hfile, hedit, hstore, hfile'⟩ := edit_of_stamp .rawBinary h
  have hread : t.readRawBinary w'.store path = t.readBytes .rawBinary path new :=
    read_eq_readBytes .rawBinary hfile'
  have hagain (hlocated : t.IsLocated ⟨place, new⟩) := editRawBinary_again hedit hlocated
  obtain ⟨offset, hfound, -, heq⟩ := editRawBinary_eq_some_iff.1 hedit
  cases heq
  obtain ⟨old, hslice⟩ := Magic.standsAt_iff.1 (standsAt_of_rawOffset? hfound)
  have hfits := Magic.le_length_of_slice hslice
  refine ⟨loc, b, _, offset, hfile, hstore, hfile', hfound, rfl, id.replaces_overwrite hfits,
    ⟨?_, ?_⟩, ?_, ?_⟩
  · intro hsame
    rw [hread] at hsame
    exact expects_or_not_echoes (rawOffset?_of_readBytes hsame)
  · intro hfind
    rw [hread]
    exact (hagain (isLocated_stamped hfound hfind)).2
  · rintro ⟨u, hsecond, -⟩
    obtain ⟨_, _, contents, hfile'', hedit', -, -⟩ := edit_of_stamp .rawBinary hsecond
    rw [hfile'] at hfile''
    cases hfile''
    obtain ⟨found, hsame⟩ := readBytes_of_edit hedit'
    exact expects_or_not_echoes (rawOffset?_of_readBytes hsame)
  · intro hfind
    refine (edits_stamp t .rawBinary path id).run_again hfile'
      (hagain (isLocated_stamped hfound hfind)).1 ?_
    rintro _ ⟨⟩
    rfl

/-- A raw binary with two bytes before the image. -/
def prefixedBuild : Workspace where
  store := ⟨[(["fw.bin"], .file ([0xe9, 0xe9] ++ loneContents))]⟩
  notices := []

/-- The build with its raw binary stamped. -/
def prefixedEnd : Workspace where
  store := ⟨[(["fw.bin"], .file ([0xe9, 0xe9] ++ Magic.standard.bytes ++ loneId.bytes))]⟩
  notices := [.stamping .rawBinary "fw.bin" loneId 6]

theorem readRawBinary_prefixedEnd :
    (loneTarget.stampRawBinary "fw.bin" loneId).run prefixedBuild =
        .ok (.stamped 6) prefixedEnd ∧
      loneTarget.readRawBinary prefixedEnd.store "fw.bin" = .ok (6, loneId) ∧
      ∃ u, (loneTarget.stampRawBinary "fw.bin" loneId).run prefixedEnd = .ok (.stamped 6) u ∧
        u.store.node? = prefixedEnd.store.node? := by
  have hrun : (loneTarget.stampRawBinary "fw.bin" loneId).run prefixedBuild =
      .ok (.stamped 6) prefixedEnd := by
    decide +kernel
  have hnew : prefixedEnd.store.file "fw.bin" =
      .ok (["fw.bin"], [0xe9, 0xe9] ++ Magic.standard.bytes ++ loneId.bytes) := by
    decide +kernel
  obtain ⟨loc, old, new, offset, -, -, hfile, -, hplace, -, hread, hagain⟩ :=
    readRawBinary_stampRawBinary hrun
  rw [hnew] at hfile
  cases hfile
  obtain rfl : offset = 2 := by
    rw [show Magic.length = 4 from rfl] at hplace
    omega
  have hnone : ¬ loneTarget.descriptor.magic.Echoes
      ([0xe9, 0xe9] ++ Magic.standard.bytes ++ loneId.bytes) 2 := by
    decide +kernel
  exact ⟨hrun, hread.2 (.inr hnone), hagain.2 (.inr hnone)⟩

/-! ## A build whose ID holds the magic -/

/-- What an image loads whose ID holds the magic. -/
def echoContents : Bytes :=
  [63, 58, 206, 52] ++ Magic.standard.bytes ++ List.replicate 20 0 ++ List.replicate 24 0xff

def echoElf : Bytes :=
  [0x7f, 0x45, 0x4c, 0x46, 1, 1, 1] ++ List.replicate 9 0 ++
    [2, 40].flatMap (Bytes.little 2) ++ [1, 0, 52, 156, 0].flatMap (Bytes.little 4) ++
    [52, 32, 1, 40, 3, 2].flatMap (Bytes.little 2) ++
    -- the program header, the contents, the symbol and its name
    [1, 84, 0x1000, 0x8000, 52, 52, 4, 1].flatMap (Bytes.little 4) ++ echoContents ++
    [1, 0x1004, 24, 0x10000].flatMap (Bytes.little 4) ++ [0, 0x69, 0x64, 0] ++
    -- the headers of the contents, the symbols and the names
    [0, 1, 2, 0x1000, 84, 52, 0, 0, 0, 0,
     0, 2, 0, 0, 136, 16, 2, 0, 0, 16,
     0, 3, 0, 0, 152, 4, 0, 0, 0, 0].flatMap (Bytes.little 4)

/-- What is read from the image. -/
def echoTarget : Target where
  image := {
    path := "a.elf"
    bytes := echoElf
    sections := [⟨"", 0x1000, 52, 84, true, false⟩, ⟨"", 0, 16, 136, false, false⟩,
      ⟨"", 0, 4, 152, false, false⟩]
    segments := [⟨1, 0x1000, 0x8000, 84, 52, 52, 4⟩]
    staticSymbols := some [⟨"id", 0x1004, 24⟩]
    dynamicSymbols := none }
  address := 0x1004
  descriptor := ⟨"id", .standard⟩

/-- The ID of the image.  The magic begins at its fifth byte. -/
def echoId : BuildId :=
  ⟨[0xef, 0xd0, 0x89, 0x43, 0xf0, 0x25, 0x14, 0x00, 0x14, 0x34,
    0x59, 0x53, 0xdd, 0x61, 0xf7, 0x2e, 0x59, 0xc1, 0x89, 0x9a], rfl⟩

/-- The raw binary of the image, behind the prefix of a loader. -/
def echoBinary : Bytes :=
  List.replicate 4 0xe9 ++ echoContents

def echoBuild : Workspace where
  store := ⟨[(["a.elf"], .file echoElf), (["a.bin"], .file echoBinary)]⟩
  notices := []

/-- The build with its raw binary stamped. -/
def echoEnd : Workspace where
  store := ⟨[(["a.elf"], .file echoElf), (["a.bin"], .file (echoBinary.overwrite 12 echoId.bytes))]⟩
  notices := [.stamping .rawBinary "a.bin" echoId 12]

/-- The raw binary is stamped, with success.  Then no ID is read in it, and stamped once more it is
left alone. -/
theorem stampRawBinary_echoBuild :
    Target.load echoBuild.store "a.elf" ⟨"id", .standard⟩ = .ok (echoTarget, echoId) ∧
      (echoTarget.stampRawBinary "a.bin" echoId).run echoBuild = .ok (.stamped 12) echoEnd ∧
      echoTarget.readRawBinary echoEnd.store "a.bin" =
        .error (.headerMismatch "a.bin" 4 Magic.standard.bytes [63, 58, 206, 52]) ∧
      (echoTarget.stampRawBinary "a.bin" echoId).run echoEnd = .ok .leftAlone
        { echoEnd with notices := echoEnd.notices ++ [.leftAlone "a.bin"] } := by
  decide +kernel

end Target

end FirmwareStamp
