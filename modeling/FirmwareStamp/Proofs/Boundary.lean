import FirmwareStamp.Proofs.Rerun

/-!
# The value bytes and the end of their section

Before the ID is written the whole placeholder has to be in the file, while the hash leaves out only
as much of it as is in the section.  The bytes that are written are the bytes that are left out if
the placeholder ends where its section ends or before, and that is the only way for them to be in
the section at all (`stampImage_valueBytes`):

    (∀ i, place ≤ i → i < place + 20 → s.Occupies i) ↔ address + 24 ≤ s.address + s.size

A placeholder that runs on into the next section is stamped nevertheless; what is written there is
hashed with that section, so that the ID is another one afterwards (`stamp_straddlingBuild`).
-/

namespace FirmwareStamp

namespace Section

/-- Whether the section holds a placeholder as a whole. -/
def HoldsWhole (s : Section) (placeholder : Nat) : Prop :=
  s.contains placeholder = true ∧
    placeholder + placeholderLength ≤ s.address.toNat + s.size.toNat

/-- The bytes from the place of the value bytes on are in the section if the placeholder ends in
it. -/
theorem occupies_iff_holdsWhole {s : Section} {address place : Nat}
    (hcontains : s.contains address = true)
    (hplace : place = address - s.address.toNat + s.offset.toNat + Magic.length) :
    (∀ i, place ≤ i → i < place + BuildId.length → s.Occupies i) ↔ s.HoldsWhole address := by
  have hstart := contains_iff.1 hcontains
  simp only [HoldsWhole, hcontains, true_and, Occupies, placeholderLength]
  constructor
  · intro h
    have hlast := h (place + BuildId.length - 1) (by unfold BuildId.length; omega)
      (by unfold BuildId.length; omega)
    unfold BuildId.length at hlast ⊢
    omega
  · intro h i hi hlt
    omega

end Section

namespace Image

variable {image : Image} {s : Section} {address place : Nat}

theorem without_append {before value after : Bytes} {start stop : Nat}
    (hstart : before.length = start) (hstop : start + value.length = stop) :
    without (before ++ value ++ after) (some (start, stop)) = before ++ after := by
  have hboth : (before ++ value).length = stop := by rw [List.length_append, hstart, hstop]
  simp only [without]
  rw [← hstart, ← hboth, List.drop_left, List.append_assoc, List.take_left]

/-- A section that holds the placeholder as a whole has the value bytes between what is hashed of
it. -/
theorem hashPart_of_holdsWhole (hbacked : s.isBacked = true) (hwhole : s.HoldsWhole address)
    (hplace : place = address - s.address.toNat + s.offset.toNat + Magic.length)
    (hfits : place + BuildId.length ≤ image.bytes.length) :
    ∃ before after, s.offset.toNat + before.length = place ∧
      image.stored s = before ++ image.bytes.slice place BuildId.length ++ after ∧
      image.hashPart address s = .ok (hashAddress s ++ (before ++ after)) := by
  obtain ⟨hcontains, hend⟩ := hwhole
  have hstart := Section.contains_iff.1 hcontains
  have hsize := s.size.toNat_lt
  unfold placeholderLength at hend
  obtain ⟨rest, hrest⟩ : ∃ rest, s.size.toNat =
      address - s.address.toNat + Magic.length + BuildId.length + rest :=
    ⟨s.size.toNat - (address - s.address.toNat + Magic.length + BuildId.length), by omega⟩
  have hplace' : place = s.offset.toNat + (address - s.address.toNat + Magic.length) := by omega
  have hstored : image.stored s =
      image.bytes.slice s.offset.toNat (address - s.address.toNat + Magic.length) ++
        image.bytes.slice place BuildId.length ++
        image.bytes.slice (place + BuildId.length) rest := by
    rw [stored, hrest, ← Bytes.slice_append_slice, ← Bytes.slice_append_slice, hplace',
      Nat.add_assoc s.offset.toNat]
  have hbefore : (image.bytes.slice s.offset.toNat
      (address - s.address.toNat + Magic.length)).length =
        address - s.address.toNat + Magic.length := by
    rw [Bytes.length_slice]
    omega
  have hvalue : (image.bytes.slice place BuildId.length).length = BuildId.length := by
    rw [Bytes.length_slice]
    omega
  refine ⟨_, _, ?_, hstored, ?_⟩
  · rw [hbefore, hplace']
  · have hloaded : image.loaded s = image.stored s := by
      unfold loaded
      rw [if_neg]
      simpa [Section.isBacked] using (Bool.and_eq_true_iff.1 hbacked).2
    have hfit : s.WindowFits address := by
      intro _
      rw [placeholderLength, show Elf.wordLimit = 2 ^ 64 from rfl]
      omega
    rw [hashPart_eq, if_pos hfit, hashPiece, hloaded, hstored, Section.valueRange?,
      if_pos hcontains, without_append hbefore]
    rw [hvalue, placeholderLength, Nat.add_assoc]

end Image

namespace Target

variable {t : Target} {id : BuildId} {w w' : Workspace} {loc : Location} {place : Nat}

/-- **What is written and what is hashed.**  An image's own file is stamped in the section that
covers the placeholder.  The value bytes are in that section exactly if the placeholder is as a
whole; then they are what its part of the hash leaves out, and if no other section has contents in
its range, the stamped image has the ID it had before. -/
theorem stampImage_valueBytes (hfile : w.store.file t.image.path = .ok (loc, t.image.bytes))
    (hrun : (t.stampImage id).run w = .ok (.stamped place) w') :
    ∃ s, t.image.backingSection? t.address = some s ∧
      place = t.address - s.address.toNat + s.offset.toNat + Magic.length ∧
      ((∀ i, place ≤ i → i < place + BuildId.length → s.Occupies i) ↔ s.HoldsWhole t.address) ∧
      (s.HoldsWhole t.address →
        (∃ before after, s.offset.toNat + before.length = place ∧
          t.image.stored s = before ++ t.image.bytes.slice place BuildId.length ++ after ∧
          t.image.hashPart t.address s = .ok (Image.hashAddress s ++ (before ++ after))) ∧
        ((∀ u ∈ t.image.sections, u.isBacked = true → u ≠ s →
            ∀ i, s.Occupies i → ¬ u.Occupies i) →
          ∃ new, w'.store.file t.image.path = .ok (loc, new) ∧
            { t.image with bytes := new }.buildId t.address = t.image.buildId t.address)) := by
  obtain ⟨e, hedit, hout, hstore⟩ := stampImage_eq_ok hfile hrun
  obtain ⟨offset, old, hoffset, -, hslice, rfl⟩ := editImage_eq_ok_iff.1 hedit
  injection hout with hplace
  obtain ⟨s, hs, hsum, -⟩ := Image.fileOffset_eq_ok_iff.1 hoffset
  obtain ⟨-, hbacked, hcontains⟩ := Image.backingSection?_mem hs
  have hfits := Magic.le_length_of_slice hslice
  rw [hsum] at hplace
  have hoccupies := Section.occupies_iff_holdsWhole hcontains hplace
  refine ⟨s, hs, hplace, hoccupies, fun hwhole => ⟨?_, fun hapart => ?_⟩⟩
  · refine Image.hashPart_of_holdsWhole hbacked hwhole hplace ?_
    rw [hplace, ← hsum]
    exact hfits
  · refine ⟨_, by rw [hstore]; exact Store.file_replace_self hfile _, ?_⟩
    refine Image.buildId_overwrite hoffset ?_ id hfits
    -- what the value bytes are in is in the section, and there no other section has contents
    intro s' offset' hs' hoffset' u hu hu' hne i hi hlt
    rw [hs] at hs'
    cases hs'
    rw [hoffset] at hoffset'
    cases hoffset'
    refine hapart u hu hu' hne i (hoccupies.2 hwhole i ?_ ?_)
    · rwa [hplace, ← hsum]
    · rw [hplace, ← hsum, Nat.add_assoc]
      exact hlt

/-- The sample holds its placeholder as a whole. -/
theorem stampImage_sampleTarget :
    sampleBuild.store.file "a.elf" = .ok (["a.elf"], sampleElf) ∧
      (sampleTarget.stampImage sampleId).run sampleBuild = .ok (.stamped 90)
        ⟨sampleBuild.store.replace ["a.elf"] (sampleElf.overwrite 90 sampleId.bytes),
          [.stamping .executable "a.elf" sampleId 90]⟩ ∧
      ∃ s, sampleTarget.image.backingSection? 0x1002 = some s ∧ s.HoldsWhole 0x1002 ∧
        (∀ i, 90 ≤ i → i < 90 + BuildId.length → s.Occupies i) ∧
        ∃ before after, s.offset.toNat + before.length = 90 ∧
          sampleTarget.image.stored s = before ++ sampleElf.slice 90 BuildId.length ++ after ∧
          sampleTarget.image.hashPart 0x1002 s =
            .ok (Image.hashAddress s ++ (before ++ after)) := by
  have hfile : sampleBuild.store.file "a.elf" = .ok (["a.elf"], sampleElf) := by decide +kernel
  have hrun : (sampleTarget.stampImage sampleId).run sampleBuild = .ok (.stamped 90)
      ⟨sampleBuild.store.replace ["a.elf"] (sampleElf.overwrite 90 sampleId.bytes),
        [.stamping .executable "a.elf" sampleId 90]⟩ := by
    decide +kernel
  have hwhole : ∀ s ∈ sampleTarget.image.backingSection? 0x1002, s.HoldsWhole 0x1002 := by
    unfold Section.HoldsWhole
    decide +kernel
  obtain ⟨s, hs, -, hoccupies, hin⟩ := stampImage_valueBytes hfile hrun
  exact ⟨hfile, hrun, s, hs, hwhole s hs, hoccupies.2 (hwhole s hs), (hin (hwhole s hs)).1⟩

end Target

/-! ## A placeholder that runs on -/

/-- A linked image of two sections, one right after the other: the placeholder starts with the last
four bytes of the first. -/
def straddlingElf : Bytes :=
  [0x7f, 0x45, 0x4c, 0x46, 1, 1, 1] ++ List.replicate 9 0 ++
    [2, 40].flatMap (Bytes.little 2) ++ [1, 0, 0, 101, 0].flatMap (Bytes.little 4) ++
    [52, 32, 0, 40, 4, 3].flatMap (Bytes.little 2) ++
    -- the contents of both sections, the symbol and its name
    [1, 2, 3, 4] ++ Magic.standard.bytes ++ List.replicate 20 0 ++ [7] ++
    [1, 0x1004, 24, 0].flatMap (Bytes.little 4) ++ [0, 0x69, 0x64, 0] ++
    -- the headers of the contents, the symbols and the names
    [0, 1, 2, 0x1000, 52, 8, 0, 0, 0, 0,
     0, 1, 2, 0x1008, 60, 21, 0, 0, 0, 0,
     0, 2, 0, 0, 81, 16, 3, 0, 0, 16,
     0, 3, 0, 0, 97, 4, 0, 0, 0, 0].flatMap (Bytes.little 4)

def straddlingTarget : Target where
  image := {
    path := "a.elf"
    bytes := straddlingElf
    sections := [⟨"", 0x1000, 8, 52, true, false⟩, ⟨"", 0x1008, 21, 60, true, false⟩,
      ⟨"", 0, 16, 81, false, false⟩, ⟨"", 0, 4, 97, false, false⟩]
    segments := []
    staticSymbols := some [⟨"id", 0x1004, 24⟩]
    dynamicSymbols := none }
  address := 0x1004
  descriptor := ⟨"id", .standard⟩

def straddlingId : BuildId :=
  ⟨[0xf7, 0xb9, 0xb6, 0x4b, 0x77, 0x6a, 0x00, 0x1e, 0xeb, 0x89,
    0xa0, 0x6b, 0x4b, 0x6b, 0x0e, 0xb3, 0xb4, 0x7f, 0x27, 0x29], rfl⟩

def straddlingBuild : Workspace where
  store := ⟨[(["a.elf"], .file straddlingElf)]⟩
  notices := []

/-- What is left of it once it is stamped. -/
def straddlingEnd : Workspace where
  store := ⟨[(["a.elf"], .file (straddlingElf.overwrite 60 straddlingId.bytes))]⟩
  notices := [.stamping .executable "a.elf" straddlingId 60]

/-- The ID is written behind the section that covers the placeholder, into what is hashed with the
next one, and is wrong as soon as it is there. -/
theorem stamp_straddlingBuild :
    Target.load straddlingBuild.store "a.elf" ⟨"id", .standard⟩ =
        .ok (straddlingTarget, straddlingId) ∧
      (straddlingTarget.stampImage straddlingId).run straddlingBuild =
        .ok (.stamped 60) straddlingEnd ∧
      (∀ s ∈ straddlingTarget.image.backingSection? 0x1004,
        ¬ 60 + BuildId.length ≤ s.offset.toNat + s.size.toNat) ∧
      (stamp "a.elf" [] ⟨"id", .standard⟩).run straddlingBuild =
        .ok ⟨straddlingId, [("a.elf", .stamped 60)]⟩ straddlingEnd ∧
      (verify "a.elf" [] ⟨"id", .standard⟩).run straddlingEnd =
        .error (.idMismatch "a.elf" 60) straddlingEnd := by
  decide +kernel

end FirmwareStamp
