import FirmwareStamp.Proofs.Siblings

/-!
# A run that fails

Nothing is taken back when a run fails, but what is left is never half of anything: the files are
those of a run that succeeds, over the siblings before the one that failed, and no file at all has
changed if the image could not be read, a format is not known or the image's own header is wrong
(`stamp_failure`).
-/

namespace FirmwareStamp

/-- Whether a run fails with this error before it writes to any file: the image cannot be read or
gives no ID, a file of the build has no known format, or the image's own file is not stamped. -/
def FailsBeforeWriting (path : String) (siblings : List String) (d : Descriptor) (w : Workspace)
    (e : Error) : Prop :=
  Target.load w.store path d = .error e ∨
    (∃ p ∈ siblings, w.store.leadsTo p = true ∧ FileFormat.ofPath p = .error e) ∨
    ∃ t id u, Target.load w.store path d = .ok (t, id) ∧ (t.stampImage id).run w = .error e u

section

variable {path : String} {siblings : List String} {d : Descriptor} {w w' : Workspace} {e : Error}

/-- What fails in a run: reading the image, telling the formats, the image's own file, or one of
the siblings. -/
theorem stamp_eq_error (h : (stamp path siblings d).run w = .error e w') :
    (Target.load w.store path d = .error e ∧ w' = w) ∨
      ∃ t id, Target.load w.store path d = .ok (t, id) ∧
        ((siblings.mapM (classify w.store) = .error e ∧ w' = w) ∨
          ∃ files, siblings.mapM (classify w.store) = .ok files ∧
            ((t.stampImage id).run w = .error e w' ∨
              ∃ first u, (t.stampImage id).run w = .ok first u ∧
                (files.mapM (t.stampFile id)).run u = .error e w')) := by
  unfold stamp at h
  rw [Session.bind_ok (Session.run_store w)] at h
  rcases Session.lift_bind_eq_error_iff.1 h with hload | ⟨⟨t, id⟩, hload, h⟩
  · exact .inl hload
  refine .inr ⟨t, id, hload, ?_⟩
  rcases Session.lift_bind_eq_error_iff.1 h with hfiles | ⟨files, hfiles, h⟩
  · exact .inl hfiles
  refine .inr ⟨files, hfiles, ?_⟩
  rcases Session.bind_eq_error_iff.1 h with hfirst | ⟨first, u, hfirst, h⟩
  · exact .inl hfirst
  rcases Session.bind_eq_error_iff.1 h with hrest | ⟨_, _, _, h⟩
  · exact .inr ⟨first, u, hfirst, hrest⟩
  · contradiction

/-- What a run that comes to the siblings has got past. -/
theorem not_failsBeforeWriting {t : Target} {id : BuildId}
    {files : List (String × Option FileFormat)} {first : Outcome} {u : Workspace}
    (hload : Target.load w.store path d = .ok (t, id))
    (hfiles : siblings.mapM (classify w.store) = .ok files)
    (hfirst : (t.stampImage id).run w = .ok first u) :
    ¬ FailsBeforeWriting path siblings d w e := by
  rintro (h | ⟨p, hp, hleads, hformat⟩ | ⟨t', id', u', hload', h⟩)
  · rw [hload] at h
    contradiction
  · obtain ⟨file, -, hfile⟩ := exists_of_mapM_eq_ok hfiles hp
    rw [classify_eq_error_iff.2 ⟨hleads, hformat⟩] at hfile
    contradiction
  · rw [hload] at hload'
    injection hload' with hload'
    injection hload' with ht hid
    rw [← ht, ← hid, hfirst] at h
    contradiction

/-- A run that comes to a sibling which fails leaves the files of a run over those before it. -/
theorem stamp_of_mapM_eq_error {t : Target} {id : BuildId}
    {files : List (String × Option FileFormat)} {first : Outcome} {u : Workspace}
    (hload : Target.load w.store path d = .ok (t, id))
    (hfiles : siblings.mapM (classify w.store) = .ok files)
    (hfirst : (t.stampImage id).run w = .ok first u)
    (h : (files.mapM (t.stampFile id)).run u = .error e w') :
    ∃ done failing rest report v file, siblings = done ++ failing :: rest ∧
      (stamp path done d).run w = .ok report v ∧ report.id = id ∧
      classify w.store failing = .ok file ∧ (t.stampFile id file).run v = .error e w' := by
  obtain ⟨before, file, after, out, v, rfl, hbefore, hfile⟩ := Session.mapM_eq_error h
  obtain ⟨done, failing, rest, rfl, hdone, hfailing⟩ := split_of_mapM_eq_ok hfiles
  refine ⟨done, failing, rest, ⟨id, (path, first) :: out⟩, v, file, rfl, ?_, rfl, hfailing, hfile⟩
  exact stamp_eq_ok_iff.2 ⟨t, before, first, u, out, hload, hdone, hfirst, hbefore, rfl⟩

/-- A run that succeeds changes files that its paths lead to, and nothing else. -/
theorem changedAt_stamp {report : Report} (h : (stamp path siblings d).run w = .ok report w') :
    w.store.ChangedAt w'.store (path :: siblings) := by
  obtain ⟨t, files, first, u, rest, hload, hfiles, hfirst, hrest, -⟩ := stamp_eq_ok_iff.1 h
  have himage := (Target.edits_stampImage t report.id).changedAt hfirst
  rw [Target.path_of_load hload] at himage
  have hround := Target.changedAt_mapM hrest
  rw [map_fst_of_classify hfiles] at hround
  exact himage.trans hround

/-- **A failing run.**  If it fails early no file has changed.  If not, the files are those of a
run over the siblings before the one that failed, which succeeds; the one that failed has changed
none of them. -/
theorem stamp_failure (path : String) (siblings : List String) (d : Descriptor) (w : Workspace) :
    (∀ e, FailsBeforeWriting path siblings d w e →
      ∃ e' w', (stamp path siblings d).run w = .error e' w' ∧ w'.store = w.store) ∧
    ∀ e w', (stamp path siblings d).run w = .error e w' →
      (FailsBeforeWriting path siblings d w e ∧ w'.store = w.store) ∨
      ∃ done failing rest report t u file, siblings = done ++ failing :: rest ∧
        (stamp path done d).run w = .ok report u ∧
        w.store.ChangedAt u.store (path :: done) ∧
        Target.load w.store path d = .ok (t, report.id) ∧
        classify w.store failing = .ok file ∧
        (t.stampFile report.id file).run u = .error e w' ∧ w'.store = u.store := by
  have herror : ∀ e w', (stamp path siblings d).run w = .error e w' →
      (FailsBeforeWriting path siblings d w e ∧ w'.store = w.store) ∨
      ∃ t id files first u, Target.load w.store path d = .ok (t, id) ∧
        siblings.mapM (classify w.store) = .ok files ∧ (t.stampImage id).run w = .ok first u ∧
        (files.mapM (t.stampFile id)).run u = .error e w' := by
    intro e w' h
    rcases stamp_eq_error h with ⟨hload, rfl⟩ | ⟨t, id, hload, ⟨hfiles, rfl⟩ | ⟨files, hfiles, h⟩⟩
    · exact .inl ⟨.inl hload, rfl⟩
    · obtain ⟨p, hp, hformat⟩ := exists_of_mapM_eq_error hfiles
      exact .inl ⟨.inr (.inl ⟨p, hp, classify_eq_error_iff.1 hformat⟩), rfl⟩
    rcases h with himage | ⟨first, u, hfirst, h⟩
    · exact .inl ⟨.inr (.inr ⟨t, id, w', hload, himage⟩),
        (Target.edits_stampImage t id).store_of_error himage⟩
    · exact .inr ⟨t, id, files, first, u, hload, hfiles, hfirst, h⟩
  constructor
  · intro e hearly
    cases hrun : (stamp path siblings d).run w with
    | ok report w' =>
      obtain ⟨t, files, first, u, _, hload, hfiles, hfirst, -, -⟩ := stamp_eq_ok_iff.1 hrun
      exact absurd hearly (not_failsBeforeWriting hload hfiles hfirst)
    | error e' w' =>
      rcases herror e' w' hrun with ⟨-, hstore⟩ | ⟨t, id, files, first, u, hload, hfiles, hfirst, -⟩
      · exact ⟨e', w', rfl, hstore⟩
      · exact absurd hearly (not_failsBeforeWriting hload hfiles hfirst)
  · intro e w' hrun
    rcases herror e w' hrun with hearly | ⟨t, id, files, first, u, hload, hfiles, hfirst, h⟩
    · exact .inl hearly
    · obtain ⟨done, failing, rest, report, v, file, hsplit, hdone, rfl, hfailing, hfile⟩ :=
        stamp_of_mapM_eq_error hload hfiles hfirst h
      exact .inr ⟨done, failing, rest, report, t, v, file, hsplit, hdone, changedAt_stamp hdone,
        hload, hfailing, hfile, Target.store_of_stampFile_eq_error hfile⟩

end

/-! ## A build that fails -/

/-- What the image of the sample loads: a placeholder between other bytes. -/
def sampleContents : Bytes :=
  [1, 2] ++ Magic.standard.bytes ++ List.replicate 20 0 ++ [7]

/-- A linked image whose contents are at 0x1000 and are loaded at 0x8000, with one symbol. -/
def sampleElf : Bytes :=
  [0x7f, 0x45, 0x4c, 0x46, 1, 1, 1] ++ List.replicate 9 0 ++
    [2, 40].flatMap (Bytes.little 2) ++ [1, 0, 52, 131, 0].flatMap (Bytes.little 4) ++
    [52, 32, 1, 40, 3, 2].flatMap (Bytes.little 2) ++
    -- the program header, the contents, the symbol and its name
    [1, 84, 0x1000, 0x8000, 27, 27, 4, 1].flatMap (Bytes.little 4) ++ sampleContents ++
    [1, 0x1002, 24, 0x10000].flatMap (Bytes.little 4) ++ [0, 0x69, 0x64, 0] ++
    -- the headers of the contents, the symbols and the names
    [0, 1, 2, 0x1000, 84, 27, 0, 0, 0, 0,
     0, 2, 0, 0, 111, 16, 2, 0, 0, 16,
     0, 3, 0, 0, 127, 4, 0, 0, 0, 0].flatMap (Bytes.little 4)

/-- The ID of the sample. -/
def sampleId : BuildId :=
  ⟨[0xe1, 0xaf, 0xf3, 0xfa, 0xae, 0x30, 0xfc, 0x2b, 0xe5, 0xed,
    0x32, 0xc1, 0x95, 0x3a, 0x01, 0xe2, 0x70, 0x7a, 0x17, 0xed], rfl⟩

/-- A build whose second sibling is no Intel HEX file. -/
def brokenBuild : Workspace where
  store := ⟨[(["a.elf"], .file sampleElf), (["a.bin"], .file sampleContents),
    (["a.hex"], .file [0x3a]), (["b.bin"], .file sampleContents)]⟩
  notices := []

/-- What is left of it: the image and the first sibling are stamped. -/
def brokenEnd : Workspace where
  store := ⟨[(["a.elf"], .file (sampleElf.overwrite 90 sampleId.bytes)),
    (["a.bin"], .file (sampleContents.overwrite 6 sampleId.bytes)), (["a.hex"], .file [0x3a]),
    (["b.bin"], .file sampleContents)]⟩
  notices := [.stamping .executable "a.elf" sampleId 90, .stamping .rawBinary "a.bin" sampleId 6]

theorem stamp_brokenBuild :
    (stamp "a.elf" ["a.bin", "a.hex", "b.bin"] ⟨"id", .standard⟩).run brokenBuild =
        .error (.hex "a.hex" .tooShort) brokenEnd ∧
      ∃ done failing rest report t u file, ["a.bin", "a.hex", "b.bin"] = done ++ failing :: rest ∧
        (stamp "a.elf" done ⟨"id", .standard⟩).run brokenBuild = .ok report u ∧
        brokenBuild.store.ChangedAt u.store ("a.elf" :: done) ∧
        Target.load brokenBuild.store "a.elf" ⟨"id", .standard⟩ = .ok (t, report.id) ∧
        classify brokenBuild.store failing = .ok file ∧
        (t.stampFile report.id file).run u = .error (.hex "a.hex" .tooShort) brokenEnd ∧
        brokenEnd.store = u.store := by
  have hrun : (stamp "a.elf" ["a.bin", "a.hex", "b.bin"] ⟨"id", .standard⟩).run brokenBuild =
      .error (.hex "a.hex" .tooShort) brokenEnd := by
    decide +kernel
  have hwritten : brokenEnd.store ≠ brokenBuild.store := by decide +kernel
  refine ⟨hrun, ?_⟩
  rcases (stamp_failure "a.elf" _ _ brokenBuild).2 _ _ hrun with ⟨-, hstore⟩ | hprefix
  · exact absurd hstore hwritten
  · exact hprefix

end FirmwareStamp
