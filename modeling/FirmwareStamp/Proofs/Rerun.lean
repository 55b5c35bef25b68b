import FirmwareStamp.Proofs.Failure
import FirmwareStamp.Proofs.Settled
import FirmwareStamp.Proofs.ValueBytes

/-!
# Stamping once more, and verifying

Stamping writes the bytes that are not hashed, and each format finds its placeholder again after
its own write.  So verifying what was stamped succeeds, and stamping it once more has the same
report and leaves all files as they are (`stamp_again`).
-/

namespace FirmwareStamp

namespace Target

/-- The target of an image whose file has new contents and the tables it had. -/
def withBytes (t : Target) (b : Bytes) : Target :=
  { t with image := { t.image with bytes := b } }

/-- What must hold of a build so that it can be stamped again: in the image's own file the value
bytes are in the contents of one section only and in no table, and in no sibling does writing them
hide the placeholder. -/
structure Repeatable (t : Target) (id : BuildId) (s : Store) (siblings : List String) : Prop where
  value : t.image.ValueApart t.address
  tables : ∀ e, t.editImage id t.image.bytes = .ok e → t.image.KeepsTables e
  siblings : ∀ p ∈ siblings, ∀ format, FileFormat.ofPath p = .ok format → t.Refinds id s format p

variable {t : Target} {id : BuildId} {e : Edit}

/-! ## The image's own file -/

theorem edit_withBytes (b : Bytes) : (t.withBytes b).edit = t.edit := by
  funext format
  cases format <;> rfl

theorem readBytes_withBytes (b : Bytes) : (t.withBytes b).readBytes = t.readBytes := by
  funext format
  cases format <;> rfl

theorem settled_withBytes (b : Bytes) : (t.withBytes b).Settled = t.Settled := by
  funext id s file out
  obtain ⟨path, _ | format⟩ := file
  · rfl
  · unfold Settled
    rw [edit_withBytes, readBytes_withBytes]

/-- From new contents with the tables and the ID of the old ones the same target is loaded. -/
theorem load_withBytes {s s' : Store} {path : String} {d : Descriptor} {loc : Location}
    (hload : Target.load s path d = .ok (t, id)) (htables : t.image.KeepsTables e)
    (hid : (t.withBytes e.contents).image.buildId t.address = t.image.buildId t.address)
    (hfile : s'.file path = .ok (loc, e.contents)) :
    Target.load s' path d = .ok (t.withBytes e.contents, id) := by
  obtain ⟨_, _, -, himage, hplaceholder, hbuild, hd⟩ := load_eq_ok_iff.1 hload
  refine load_eq_ok_iff.2 ⟨loc, _, hfile, ?_, hplaceholder, ?_, hd⟩
  · rw [Image.path_of_parse himage]
    exact htables
  · rw [← hbuild]
    exact hid

/-- From the stamped file the same target is loaded, with the ID it was stamped with. -/
theorem load_stamped {s s' : Store} {path : String} {d : Descriptor} {loc : Location}
    (hload : Target.load s path d = .ok (t, id)) (hedit : t.editImage id t.image.bytes = .ok e)
    (hvalue : t.image.ValueApart t.address) (htables : t.image.KeepsTables e)
    (hfile : s'.file path = .ok (loc, e.contents)) :
    Target.load s' path d = .ok (t.withBytes e.contents, id) := by
  refine load_withBytes hload htables ?_ hfile
  obtain ⟨offset, old, hoffset, -, hslice, rfl⟩ := editImage_eq_ok_iff.1 hedit
  exact Image.buildId_overwrite hoffset hvalue id (Magic.le_length_of_slice hslice)

theorem readExecutable_stamped {s : Store} {loc : Location}
    (hedit : t.editImage id t.image.bytes = .ok e) (htables : t.image.KeepsTables e)
    (hfile : s.file t.image.path = .ok (loc, e.contents)) :
    (t.withBytes e.contents).readExecutable s t.image.path = .ok (e.place, id) := by
  have hparse : Image.parse t.image.path e.contents = _ := htables
  unfold readExecutable
  rw [Store.load_eq_parse hfile, hparse, ok_bind]
  exact (editImage_again hedit).2

theorem run_stampImage_again {w : Workspace} {loc : Location}
    (hedit : t.editImage id t.image.bytes = .ok e)
    (hfile : w.store.file t.image.path = .ok (loc, e.contents)) :
    ∃ w', ((t.withBytes e.contents).stampImage id).run w = .ok (.stamped e.place) w' ∧
      w'.store.node? = w.store.node? := by
  have hagain : (t.withBytes e.contents).editImage id e.contents = .ok e :=
    (editImage_again hedit).1
  have hmap : some <$> (t.withBytes e.contents).editImage id e.contents = .ok (some e) := by
    rw [hagain]
    rfl
  refine (edits_stampImage (t.withBytes e.contents) id).run_again hfile hmap ?_
  rintro _ ⟨⟩
  rfl

end Target

/-! ## The whole build -/

/-- What a run that succeeds leaves: the edit of the image's own file, and settled siblings. -/
theorem settled_of_stamp {path : String} {siblings : List String} {d : Descriptor}
    {w w' : Workspace} {report : Report} (hrun : (stamp path siblings d).run w = .ok report w')
    (hapart : (path :: siblings).Pairwise w.store.Apart)
    (hrepeat : ∀ t id, Target.load w.store path d = .ok (t, id) →
      t.Repeatable id w.store siblings) :
    ∃ t files e loc rest, Target.load w.store path d = .ok (t, report.id) ∧
      siblings.mapM (classify w.store) = .ok files ∧
      t.editImage report.id t.image.bytes = .ok e ∧
      w'.store.file path = .ok (loc, e.contents) ∧ w.store.SameTree w'.store ∧
      List.Forall₂ (t.Settled report.id w'.store) files rest ∧
      report.outcomes = (path, .stamped e.place) :: rest := by
  obtain ⟨t, files, e, loc, rest, hload, hfiles, -, hedit, hfile, hedited, hchanged, hout⟩ :=
    edited_of_stamp hrun hapart
  have hfind : ∀ file ∈ files, ∀ format, file.2 = some format →
      t.Refinds report.id w.store format file.1 := by
    intro file hmem format hformat
    have hsibling : file.1 ∈ siblings := (classify_of_mem hfiles hmem).1
    exact (hrepeat t report.id hload).siblings file.1 hsibling format
      (ofPath_of_classify hfiles hmem hformat)
  have hsettled : List.Forall₂ (t.Settled report.id w'.store) files rest :=
    ((List.forall₂_and_left _ _).2 ⟨hfind, hedited⟩).imp fun _ _ ⟨hfind, h⟩ =>
      Target.settled_of_edited h hfind
  exact ⟨t, files, e, loc, rest, hload, hfiles, hedit, hfile, hchanged.tree, hsettled, hout⟩

/-- **Stamping again.**  After a run that succeeds, over files that are apart, the ID is found in
all of them, and a second run has the same report and changes no file. -/
theorem stamp_again {path : String} {siblings : List String} {d : Descriptor} {w w' : Workspace}
    {report : Report} (hrun : (stamp path siblings d).run w = .ok report w')
    (hapart : (path :: siblings).Pairwise w.store.Apart)
    (hrepeat : ∀ t id, Target.load w.store path d = .ok (t, id) →
      t.Repeatable id w.store siblings) :
    (∃ v, (verify path siblings d).run w' = .ok report.id v ∧ v.store = w'.store) ∧
      ∃ v, (stamp path siblings d).run w' = .ok report v ∧ v.store.node? = w'.store.node? := by
  obtain ⟨t, files, e, loc, rest, hload, hfiles, hedit, hfile, htree, hsettled, hout⟩ :=
    settled_of_stamp hrun hapart hrepeat
  obtain ⟨hvalue, htables, -⟩ := hrepeat t report.id hload
  have hpath := Target.path_of_load hload
  have hagain := Target.load_stamped hload hedit hvalue (htables e hedit) hfile
  have hfiles' : siblings.mapM (classify w'.store) = .ok files := by
    rw [← classify_congr htree, hfiles]
  rw [← Target.settled_withBytes e.contents] at hsettled
  constructor
  · have hread : (t.withBytes e.contents).readExecutable w'.store path =
        .ok (e.place, report.id) := by
      rw [← hpath] at hfile ⊢
      exact Target.readExecutable_stamped hedit (htables e hedit) hfile
    obtain ⟨v, hrest, hstore⟩ := Target.Settled.run_forM hsettled fun _ hmem _ hformat =>
      ofPath_of_classify hfiles' hmem hformat
    refine ⟨v, ?_, hstore⟩
    unfold verify
    rw [Session.bind_ok (Session.run_store w'), hagain, Session.bind_ok (Session.run_lift_ok _ _)]
    dsimp only
    rw [hread, Session.bind_ok (Session.run_lift_ok _ _)]
    dsimp only
    rw [if_neg (by simp), hfiles']
    rw [Session.bind_ok (Session.run_lift_ok _ _), Session.bind_ok hrest]
    rfl
  · rw [← hpath] at hfile
    obtain ⟨u, hfirst, hnode⟩ := Target.run_stampImage_again hedit hfile
    have hsettled' : List.Forall₂ ((t.withBytes e.contents).Settled report.id u.store) files rest :=
      hsettled.imp fun _ _ k => k.of_file fun l b hb => by rw [Store.file_congr hnode, hb]
    obtain ⟨v, hrest, hnode'⟩ := Target.Settled.run_mapM hsettled'
    exact ⟨v, stamp_eq_ok_iff.2 ⟨_, files, _, u, rest, hagain, hfiles', hfirst, hrest, hout⟩,
      hnode'.trans hnode⟩

/-! ## A build -/

/-- What is read from the image of the sample. -/
def sampleTarget : Target where
  image := {
    path := "a.elf"
    bytes := sampleElf
    sections := [⟨"", 0x1000, 27, 84, true, false⟩, ⟨"", 0, 16, 111, false, false⟩,
      ⟨"", 0, 4, 127, false, false⟩]
    segments := [⟨1, 0x1000, 0x8000, 84, 27, 27, 4⟩]
    staticSymbols := some [⟨"id", 0x1002, 24⟩]
    dynamicSymbols := none }
  address := 0x1002
  descriptor := ⟨"id", .standard⟩

/-- A build of an image, a raw binary and an Intel HEX file, before it is stamped. -/
def sampleBuild : Workspace where
  store := ⟨[(["a.elf"], .file sampleElf), (["a.bin"], .file sampleContents),
    (["a.hex"], .file (Bytes.ofText
      ":1B8000000102F025140000000000000000000000000000000000000000000732\n:00000001FF\n"))]⟩
  notices := []

/-- The build after it was stamped. -/
def stampedBuild : Workspace where
  store := ⟨[(["a.elf"], .file (sampleElf.overwrite 90 sampleId.bytes)),
    (["a.bin"], .file (sampleContents.overwrite 6 sampleId.bytes)),
    (["a.hex"], .file (Bytes.ofText
      ":1B8000000102F0251400E1AFF3FAAE30FC2BE5ED32C1953A01E2707A17ED074B\n:00000001FF\n"))]⟩
  notices := [.stamping .executable "a.elf" sampleId 90, .stamping .rawBinary "a.bin" sampleId 6,
    .stamping .intelHex "a.hex" sampleId 0x8006]

def sampleReport : Report where
  id := sampleId
  outcomes := [("a.elf", .stamped 90), ("a.bin", .stamped 6), ("a.hex", .stamped 0x8006),
    ("b.exe", .missing)]

theorem load_sampleBuild :
    Target.load sampleBuild.store "a.elf" ⟨"id", .standard⟩ = .ok (sampleTarget, sampleId) := by
  decide +kernel

theorem repeatable_sampleTarget :
    sampleTarget.Repeatable sampleId sampleBuild.store ["a.bin", "a.hex", "b.exe"] where
  value := by
    intro s offset hs _ t ht hbacked hne
    have honly : ∀ t ∈ sampleTarget.image.sections, t.isBacked = true →
        sampleTarget.image.backingSection? sampleTarget.address = some t := by
      decide +kernel
    rw [honly t ht hbacked] at hs
    injection hs with hs
    exact absurd hs hne
  tables := by
    intro e he
    have hedit : sampleTarget.editImage sampleId sampleTarget.image.bytes =
        .ok ⟨90, sampleElf.overwrite 90 sampleId.bytes⟩ := by
      decide +kernel
    rw [hedit] at he
    injection he with he
    subst he
    unfold Image.KeepsTables
    decide +kernel
  siblings := by
    intro p hp format hformat loc b e hb he
    simp only [List.mem_cons, List.not_mem_nil, or_false] at hp
    rcases hp with rfl | rfl | rfl
    · have hraw : FileFormat.ofPath "a.bin" = .ok .rawBinary := by decide +kernel
      have hfile : sampleBuild.store.file "a.bin" = .ok (["a.bin"], sampleContents) := by
        decide +kernel
      have hedit : sampleTarget.edit .rawBinary "a.bin" sampleId sampleContents =
          .ok (some ⟨6, sampleContents.overwrite 6 sampleId.bytes⟩) := by
        decide +kernel
      rw [hraw] at hformat
      rw [hfile] at hb
      cases hformat
      cases hb
      rw [hedit] at he
      cases he
      exact .inl ⟨0x8002, 0x8000, by decide +kernel, by decide +kernel, by decide, rfl⟩
    · have hhex : FileFormat.ofPath "a.hex" = .ok .intelHex := by decide +kernel
      rw [hhex] at hformat
      cases hformat
      exact trivial
    · have hmissing : sampleBuild.store.file "b.exe" = .error .noSuchFile := by decide +kernel
      rw [hmissing] at hb
      contradiction

/-- The sample is stamped, verified, and stamped again. -/
theorem stamp_sampleBuild :
    (stamp "a.elf" ["a.bin", "a.hex", "b.exe"] ⟨"id", .standard⟩).run sampleBuild =
        .ok sampleReport stampedBuild ∧
      (∃ v, (verify "a.elf" ["a.bin", "a.hex", "b.exe"] ⟨"id", .standard⟩).run stampedBuild =
        .ok sampleId v ∧ v.store = stampedBuild.store) ∧
      ∃ v, (stamp "a.elf" ["a.bin", "a.hex", "b.exe"] ⟨"id", .standard⟩).run stampedBuild =
        .ok sampleReport v ∧ v.store.node? = stampedBuild.store.node? := by
  have hrun : (stamp "a.elf" ["a.bin", "a.hex", "b.exe"] ⟨"id", .standard⟩).run sampleBuild =
      .ok sampleReport stampedBuild := by
    decide +kernel
  have hplaces : ["a.elf", "a.bin", "a.hex", "b.exe"].Pairwise
      fun p q => sampleBuild.store.locate p ≠ sampleBuild.store.locate q := by
    decide +kernel
  refine ⟨hrun, stamp_again hrun (hplaces.imp Store.Apart.of_locate_ne) ?_⟩
  intro t id hload
  rw [load_sampleBuild] at hload
  cases hload
  exact repeatable_sampleTarget

end FirmwareStamp
