import FirmwareStamp.Proofs.Failure
import FirmwareStamp.Proofs.OneFile

/-!
# What a report says is so

The outcomes in a report are those of the image and the siblings, in the order given.  Each tells
what became of its file (`Outcome.Tells`): one is reported missing exactly if it leads nowhere, one
that was left alone is a raw binary and is as it was, and in one that was stamped the ID stands
where the report says, and all else is as it was.  No other file has changed (`stamp_report`).
-/

namespace FirmwareStamp

/-- Whether an outcome tells what became of the file of a format at a path, from one store to
another. -/
structure Outcome.Tells (o : Outcome) (s s' : Store) (m : Magic) (id : BuildId) (path : String)
    (format : Except Error FileFormat) : Prop where
  missing_iff : o = .missing ↔ s.leadsTo path = false
  leftAlone : o = .leftAlone → format = .ok .rawBinary ∧
    ∃ loc b, s.file path = .ok (loc, b) ∧ s'.file path = .ok (loc, b)
  stamped : ∀ place, o = .stamped place → ∃ f loc old new, format = .ok f ∧
    s.file path = .ok (loc, old) ∧ s'.file path = .ok (loc, new) ∧
    f.Stamps path m id place old new

/-- The paths of a build with the formats they are taken for: the image is an executable whatever
its extension. -/
def buildFiles (path : String) (siblings : List String) :
    List (String × Except Error FileFormat) :=
  (path, .ok .executable) :: siblings.map fun p => (p, FileFormat.ofPath p)

/-- Whether a report tells, in the order given, what became of the files of a build, and no other
file has changed. -/
structure Report.Tells (report : Report) (s s' : Store) (d : Descriptor) (path : String)
    (siblings : List String) : Prop where
  outcomes : List.Forall₂ (fun file out => out.1 = file.1 ∧
    out.2.Tells s s' d.magic report.id file.1 file.2) (buildFiles path siblings) report.outcomes
  changed : s.ChangedAt s' (path :: siblings)
  leadsTo_eq : ∀ p, s'.leadsTo p = s.leadsTo p

/-! ## Files -/

namespace Target

variable {t : Target} {id : BuildId} {s s' : Store}

/-- The outcome of an edit tells what became of the file. -/
theorem tells_ofEdit {format : FileFormat} {path : String} {loc : Location} {b : Bytes}
    {e? : Option Edit} (hfile : s.file path = .ok (loc, b))
    (hedit : t.edit format path id b = .ok e?)
    (hfile' : s'.file path = .ok (loc, Store.contentsAfter b e?)) :
    (Outcome.ofEdit e?).Tells s s' t.descriptor.magic id path (.ok format) := by
  have hleads := Store.leadsTo_of_file hfile
  cases e? with
  | none =>
    obtain ⟨rfl, -⟩ := readBytes_of_edit_eq_none hedit
    refine ⟨?_, fun _ => ⟨rfl, loc, b, hfile, hfile'⟩, ?_⟩
    · rw [hleads]
      simp [Outcome.ofEdit]
    · rintro place ⟨⟩
  | some e =>
    refine ⟨?_, ?_, ?_⟩
    · rw [hleads]
      simp [Outcome.ofEdit]
    · rintro ⟨⟩
    · rintro place ⟨⟩
      exact ⟨format, loc, b, e.contents, rfl, hfile, hfile', stamps_of_edit hedit⟩

/-- The outcome of a sibling tells what became of it. -/
theorem tells_of_edited {path : String} {file : String × Option FileFormat}
    {out : String × Outcome} (hclass : classify s path = .ok file)
    (hedited : t.Edited id s s' file out) :
    out.1 = path ∧ out.2.Tells s s' t.descriptor.magic id path (FileFormat.ofPath path) := by
  obtain ⟨p, format?⟩ := file
  obtain ⟨rfl, ⟨-, format, hformat, rfl⟩ | ⟨hleads, rfl⟩⟩ := classify_eq_ok_iff.1 hclass
  · obtain ⟨loc, b, e?, hfile, hedit, rfl, hfile'⟩ := hedited
    dsimp only at hformat ⊢
    rw [hformat]
    exact ⟨rfl, tells_ofEdit hfile hedit hfile'⟩
  · obtain rfl : out = (p, .missing) := hedited
    refine ⟨rfl, ⟨fun _ => hleads, fun _ => rfl⟩, ?_, ?_⟩
    · rintro ⟨⟩
    · rintro place ⟨⟩

/-- The outcomes of a round tell what became of the siblings. -/
theorem tells_of_classify {siblings : List String} {files : List (String × Option FileFormat)}
    {out : List (String × Outcome)} (hfiles : siblings.mapM (classify s) = .ok files)
    (hedited : List.Forall₂ (t.Edited id s s') files out) :
    List.Forall₂ (fun p o => o.1 = p ∧
      o.2.Tells s s' t.descriptor.magic id p (FileFormat.ofPath p)) siblings out := by
  rw [mapM_eq_ok_iff] at hfiles
  induction hfiles generalizing out with
  | nil =>
    rw [List.forall₂_nil_left_iff] at hedited
    rw [hedited]
    exact .nil
  | cons hclass _ ih =>
    obtain ⟨first, rest, hfirst, hrest, rfl⟩ := List.forall₂_cons_left_iff.1 hedited
    exact .cons (tells_of_edited hclass hfirst) (ih hrest)

end Target

/-! ## Reports -/

/-- **The report tells the truth.**  After a run that succeeds, over files that are apart, every
outcome tells what became of its file, and no other file has changed. -/
theorem stamp_report {path : String} {siblings : List String} {d : Descriptor} {w w' : Workspace}
    {report : Report} (hrun : (stamp path siblings d).run w = .ok report w')
    (hapart : (path :: siblings).Pairwise w.store.Apart) :
    report.Tells w.store w'.store d path siblings := by
  obtain ⟨t, files, e, loc, rest, hload, hfiles, hread, hedit, hread', hedited, hchanged, hout⟩ :=
    edited_of_stamp hrun hapart
  obtain ⟨_, _, hfile, himage, -, -, rfl⟩ := Target.load_eq_ok_iff.1 hload
  rw [hread] at hfile
  cases hfile
  have hfirst : t.edit .executable path report.id t.image.bytes = .ok (some e) := by
    unfold Target.edit
    dsimp only
    rw [himage, ok_bind]
    exact map_eq_ok.2 ⟨e, hedit, rfl⟩
  refine ⟨?_, hchanged, fun p => hchanged.tree.symm.leadsTo_eq p⟩
  rw [hout]
  refine .cons ⟨rfl, Target.tells_ofEdit hread hfirst hread'⟩ ?_
  rw [List.forall₂_map_left_iff]
  exact Target.tells_of_classify hfiles hedited

/-- A build of an image, raw binaries with and without the placeholder, and an Intel HEX file. -/
def mixedBuild : Workspace where
  store := ⟨[(["a.elf"], .file sampleElf), (["a.bin"], .file sampleContents),
    (["rest.bin"], .file [1, 2]), (["a.hex"], .file (Bytes.ofText
      ":1B8000000102F025140000000000000000000000000000000000000000000732\n:00000001FF\n"))]⟩
  notices := []

/-- What is left of the build once it is stamped. -/
def mixedEnd : Workspace where
  store := ⟨[(["a.elf"], .file (sampleElf.overwrite 90 sampleId.bytes)),
    (["a.bin"], .file (sampleContents.overwrite 6 sampleId.bytes)),
    (["rest.bin"], .file [1, 2]), (["a.hex"], .file (Bytes.ofText
      ":1B8000000102F0251400E1AFF3FAAE30FC2BE5ED32C1953A01E2707A17ED074B\n:00000001FF\n"))]⟩
  notices := [.stamping .executable "a.elf" sampleId 90, .stamping .rawBinary "a.bin" sampleId 6,
    .leftAlone "rest.bin", .stamping .intelHex "a.hex" sampleId 0x8006]

def mixedReport : Report where
  id := sampleId
  outcomes := [("a.elf", .stamped 90), ("a.bin", .stamped 6), ("rest.bin", .leftAlone),
    ("a.hex", .stamped 0x8006), ("b.exe", .missing)]

theorem tells_mixedReport :
    (stamp "a.elf" ["a.bin", "rest.bin", "a.hex", "b.exe"] ⟨"id", .standard⟩).run mixedBuild =
        .ok mixedReport mixedEnd ∧
      ["a.elf", "a.bin", "rest.bin", "a.hex", "b.exe"].Pairwise mixedBuild.store.Apart ∧
      mixedReport.Tells mixedBuild.store mixedEnd.store ⟨"id", .standard⟩ "a.elf"
        ["a.bin", "rest.bin", "a.hex", "b.exe"] := by
  have hrun : (stamp "a.elf" ["a.bin", "rest.bin", "a.hex", "b.exe"] ⟨"id", .standard⟩).run
      mixedBuild = .ok mixedReport mixedEnd := by
    decide +kernel
  have hplaces : ["a.elf", "a.bin", "rest.bin", "a.hex", "b.exe"].Pairwise
      fun p q => mixedBuild.store.locate p ≠ mixedBuild.store.locate q := by
    decide +kernel
  have hapart := hplaces.imp Store.Apart.of_locate_ne
  exact ⟨hrun, hapart, stamp_report hrun hapart⟩

end FirmwareStamp
