import FirmwareStamp.Proofs.Report

/-!
# The order of the siblings

What stamping reports of a file is told from the store the run starts in (`reported`), whatever was
stamped before it, as long as the files are apart:

    (files.mapM (t.stampFile id)).run w = .ok out _ ↔ files.mapM (t.reported id w.store) = .ok out
                                                                            (run_mapM_eq_ok_iff)

The right side takes no account of order, so neither does a run (`stamp_perm`): in any order of the
siblings it succeeds alike, reports the same of each path and leaves the same files.
-/

namespace FirmwareStamp

instance : Inhabited Outcome := ⟨.missing⟩

namespace Store

variable {s s' s'' : Store}

/-- Two ways to change the files that some paths lead to come to the same if these files are the
same after both. -/
theorem ChangedAt.node?_eq {ps qs : List String} (h : s.ChangedAt s' ps) (k : s.ChangedAt s'' qs)
    (hsubset : qs ⊆ ps)
    (hfile : ∀ p ∈ ps, ∀ loc b, s'.file p = .ok (loc, b) → s''.file p = .ok (loc, b)) :
    s''.node? = s'.node? := by
  funext loc
  by_cases hlead : ∃ p ∈ ps, s.locate p = .ok loc
  · obtain ⟨p, hp, hlocate⟩ := hlead
    refine (h.tree.symm.trans k.tree).node?_eq ?_
    intro b hb
    have hread : s'.file p = .ok (loc, b) :=
      file_eq_ok_iff.2 ⟨by rw [← h.tree.locate_eq, hlocate], hb⟩
    exact (file_eq_ok_iff.1 (hfile p hp loc b hread)).2
  · have hps : ∀ p ∈ ps, s.locate p ≠ .ok loc := fun p hp hlocate => hlead ⟨p, hp, hlocate⟩
    rw [h.frame loc hps, k.frame loc fun q hq => hps q (hsubset hq)]

end Store

namespace Target

variable {t : Target} {id : BuildId} {s s' s'' : Store} {w w' : Workspace}

/-! ## Reports of a round -/

/-- What stamping reports of a file that is as in a store. -/
def reported (t : Target) (id : BuildId) (s : Store) :
    String × Option FileFormat → Except Error (String × Outcome)
  | (path, some format) => do
    let b ← s.fetch path
    return (path, .ofEdit (← t.edit format path id b))
  | (path, none) => return (path, .missing)

theorem reported_eq_ok_iff {path : String} {format : FileFormat} {out : String × Outcome} :
    t.reported id s (path, some format) = .ok out ↔ ∃ loc b e?, s.file path = .ok (loc, b) ∧
      t.edit format path id b = .ok e? ∧ out = (path, .ofEdit e?) := by
  unfold reported
  constructor
  · intro h
    obtain ⟨b, hfetch, h⟩ := bind_eq_ok.1 h
    obtain ⟨e?, hedit, h⟩ := bind_eq_ok.1 h
    injection h with h
    obtain ⟨loc, hfile⟩ := Store.exists_file_of_fetch hfetch
    exact ⟨loc, b, e?, hfile, hedit, h.symm⟩
  · rintro ⟨loc, b, e?, hfile, hedit, rfl⟩
    dsimp only
    rw [Store.fetch_eq_ok hfile, ok_bind, hedit]
    rfl

theorem fst_of_reported {file : String × Option FileFormat} {out : String × Outcome}
    (h : t.reported id s file = .ok out) : out.1 = file.1 := by
  obtain ⟨path, _ | format⟩ := file
  · injection h with h
    rw [← h]
  · obtain ⟨_, _, _, -, -, rfl⟩ := reported_eq_ok_iff.1 h
    rfl

theorem reported_of_edited {file : String × Option FileFormat} {out : String × Outcome}
    (h : t.Edited id s s' file out) : t.reported id s file = .ok out := by
  obtain ⟨path, _ | format⟩ := file
  · rw [show out = (path, .missing) from h]
    rfl
  · obtain ⟨loc, b, e?, hfile, hedit, hout, -⟩ := h
    exact reported_eq_ok_iff.2 ⟨loc, b, e?, hfile, hedit, hout⟩

/-- A file that is the same in another store is reported there as it is here. -/
theorem reported_of_file {file : String × Option FileFormat} {out : String × Outcome}
    (h : t.reported id s file = .ok out)
    (hsame : ∀ loc b, s.file file.1 = .ok (loc, b) → s'.file file.1 = .ok (loc, b)) :
    t.reported id s' file = .ok out := by
  obtain ⟨path, _ | format⟩ := file
  · exact h
  · obtain ⟨loc, b, e?, hfile, hedit, hout⟩ := reported_eq_ok_iff.1 h
    exact reported_eq_ok_iff.2 ⟨loc, b, e?, hsame _ _ hfile, hedit, hout⟩

theorem exists_run_stampFile {file : String × Option FileFormat} {out : String × Outcome}
    (h : t.reported id w.store file = .ok out) : ∃ w', (t.stampFile id file).run w = .ok out w' := by
  obtain ⟨path, _ | format⟩ := file
  · injection h with h
    rw [← h]
    exact ⟨w, rfl⟩
  · obtain ⟨loc, b, e?, hfile, hedit, rfl⟩ := reported_eq_ok_iff.1 h
    obtain ⟨w', hrun, -⟩ := (edits_stamp t format path id).run_of_ok hfile hedit
    exact ⟨w', stampFile_eq_ok_iff.2 ⟨rfl, hrun⟩⟩

/-- A round succeeds if each file alone does: what was stamped before a file does not show in
it. -/
theorem exists_run_mapM {files : List (String × Option FileFormat)} {out : List (String × Outcome)}
    (hapart : (files.map (·.1)).Pairwise w.store.Apart)
    (h : files.mapM (t.reported id w.store) = .ok out) :
    ∃ w', (files.mapM (t.stampFile id)).run w = .ok out w' := by
  induction files generalizing w out with
  | nil =>
    injection h with h
    rw [← h]
    exact ⟨w, rfl⟩
  | cons file rest ih =>
    rw [mapM_eq_ok_iff, List.forall₂_cons_left_iff] at h
    obtain ⟨first, others, hfirst, hothers, rfl⟩ := h
    rw [List.map_cons, List.pairwise_cons] at hapart
    obtain ⟨hhead, htail⟩ := hapart
    obtain ⟨u, hrun⟩ := exists_run_stampFile hfirst
    have hstep := changedAt_stampFile hrun
    -- the first leaves each of the others as it was
    have hkept : ∀ other ∈ rest, ∀ loc b, w.store.file other.1 = .ok (loc, b) →
        u.store.file other.1 = .ok (loc, b) := by
      intro other hother loc b hb
      refine hstep.file_eq_ok ?_ hb
      intro p hp
      rw [List.mem_singleton.1 hp]
      exact hhead other.1 (List.mem_map_of_mem hother)
    have hnext : rest.mapM (t.reported id u.store) = .ok others := by
      rw [mapM_eq_ok_iff]
      exact ((List.forall₂_and_left _ _).2 ⟨hkept, hothers⟩).imp fun _ _ ⟨hsame, hout⟩ =>
        reported_of_file hout hsame
    obtain ⟨w', hrest⟩ := ih (htail.imp fun h => h.of_sameTree hstep.tree) hnext
    exact ⟨w', Session.mapM_cons_eq_ok_iff.2 ⟨first, u, others, hrun, hrest, rfl⟩⟩

/-- **A round, told from its start.**  Over files that are apart it succeeds exactly if each file
alone does, and reports of each what it would alone. -/
theorem run_mapM_eq_ok_iff {files : List (String × Option FileFormat)}
    {out : List (String × Outcome)} (hapart : (files.map (·.1)).Pairwise w.store.Apart) :
    (∃ w', (files.mapM (t.stampFile id)).run w = .ok out w') ↔
      files.mapM (t.reported id w.store) = .ok out := by
  constructor
  · rintro ⟨w', hrun⟩
    rw [mapM_eq_ok_iff]
    exact (edited_of_mapM hrun hapart).imp fun _ _ hedited => reported_of_edited hedited
  · exact exists_run_mapM hapart

/-- What stamping reports of the file at a path that is as in a store. -/
def reportedAt (t : Target) (id : BuildId) (s : Store) (path : String) :
    Except Error (String × Outcome) :=
  classify s path >>= t.reported id s

theorem fst_of_reportedAt {path : String} {out : String × Outcome}
    (h : t.reportedAt id s path = .ok out) : out.1 = path := by
  obtain ⟨file, hclass, hout⟩ := bind_eq_ok.1 h
  rw [fst_of_reported hout, (classify_eq_ok_iff.1 hclass).1]

/-- Siblings that are apart are classified and stamped exactly if each alone is. -/
theorem run_siblings_eq_ok_iff {siblings : List String} {out : List (String × Outcome)}
    (hapart : siblings.Pairwise w.store.Apart) :
    (∃ files w', siblings.mapM (classify w.store) = .ok files ∧
        (files.mapM (t.stampFile id)).run w = .ok out w') ↔
      siblings.mapM (t.reportedAt id w.store) = .ok out := by
  unfold reportedAt
  rw [mapM_bind_eq_ok_iff]
  refine exists_congr fun files => ?_
  rw [exists_and_left]
  refine and_congr_right fun hfiles => ?_
  rw [run_mapM_eq_ok_iff]
  rwa [map_fst_of_classify hfiles]

/-- What stamping makes of a file is told from the store it starts in. -/
theorem Edited.file_eq_ok {file : String × Option FileFormat} {out out' : String × Outcome}
    (h : t.Edited id s s' file out) (k : t.Edited id s s'' file out') (hfile : file.2 ≠ none)
    {loc : Location} {b : Bytes} (hb : s'.file file.1 = .ok (loc, b)) :
    s''.file file.1 = .ok (loc, b) := by
  obtain ⟨path, _ | format⟩ := file
  · contradiction
  · obtain ⟨l, c, e?, hread, hedit, -, hafter⟩ := h
    obtain ⟨l', c', e'?, hread', hedit', -, hafter'⟩ := k
    rw [hread] at hread'
    cases hread'
    rw [hedit] at hedit'
    cases hedit'
    rw [hafter] at hb
    rw [hafter', hb]

end Target

/-! ## Runs -/

/-- What runs over the same siblings in two orders make of a file that either stamps. -/
theorem file_eq_ok_of_stamp {path : String} {siblings siblings' : List String} {d : Descriptor}
    {w w' v : Workspace} {report report' : Report} (hperm : siblings'.Perm siblings)
    (hapart : (path :: siblings).Pairwise w.store.Apart)
    (hrun : (stamp path siblings d).run w = .ok report w')
    (hrun' : (stamp path siblings' d).run w = .ok report' v) {p : String}
    (hp : p ∈ path :: siblings) {loc : Location} {b : Bytes} (hb : w'.store.file p = .ok (loc, b)) :
    v.store.file p = .ok (loc, b) := by
  have hapart' : (path :: siblings').Pairwise w.store.Apart :=
    (hperm.cons path).symm.pairwise hapart fun h => Store.Apart.symm h
  obtain ⟨t, files, e, l, rest, hload, hfiles, hfile, hedit, hread, hedited, hchanged, -⟩ :=
    edited_of_stamp hrun hapart
  obtain ⟨t', files', e', l', rest', hload', hfiles', hfile', hedit', hread', hedited', -, -⟩ :=
    edited_of_stamp hrun' hapart'
  rw [hload] at hload'
  injection hload' with hsame
  injection hsame with htarget hid
  subst htarget
  rw [← hid] at hedit' hedited'
  rcases List.mem_cons.1 hp with rfl | hsibling
  · rw [hfile] at hfile'
    cases hfile'
    rw [hedit] at hedit'
    cases hedit'
    rw [hread] at hb
    rw [hread', hb]
  · obtain ⟨file, hmem, hclass⟩ := exists_of_mapM_eq_ok hfiles hsibling
    obtain ⟨other, hmem', hclass'⟩ := exists_of_mapM_eq_ok hfiles' (hperm.mem_iff.2 hsibling)
    rw [hclass] at hclass'
    cases hclass'
    obtain ⟨out, -, hout⟩ := exists_of_forall₂ hedited hmem
    obtain ⟨out', -, hout'⟩ := exists_of_forall₂ hedited' hmem'
    obtain ⟨rfl, ⟨-, format, -, hformat⟩ | ⟨hnowhere, -⟩⟩ := classify_eq_ok_iff.1 hclass
    · exact hout.file_eq_ok hout' (by simp [hformat]) hb
    · -- no file is made where there was none
      rw [hchanged.tree.leadsTo_eq, Store.leadsTo_of_file hb] at hnowhere
      contradiction

/-- A run that succeeds over siblings succeeds over them in another order, with the same
outcomes. -/
theorem exists_stamp_of_perm {path : String} {siblings siblings' : List String} {d : Descriptor}
    {w w' : Workspace} {report : Report} (hperm : siblings'.Perm siblings)
    (hapart : (path :: siblings).Pairwise w.store.Apart)
    (hrun : (stamp path siblings d).run w = .ok report w') :
    ∃ report' v, (stamp path siblings' d).run w = .ok report' v ∧ report'.id = report.id ∧
      ∃ (first : Outcome) (outcome : String → Outcome),
        report.outcomes = (path, first) :: siblings.map (fun p => (p, outcome p)) ∧
        report'.outcomes = (path, first) :: siblings'.map (fun p => (p, outcome p)) := by
  obtain ⟨t, files, first, u, rest, hload, hfiles, hfirst, hrest, hout⟩ := stamp_eq_ok_iff.1 hrun
  have htree := ((Target.edits_stampImage t report.id).changedAt hfirst).tree
  have hapartNext : siblings.Pairwise u.store.Apart :=
    (List.pairwise_cons.1 hapart).2.imp fun h => h.of_sameTree htree
  rw [classify_congr htree] at hfiles
  have hround := (Target.run_siblings_eq_ok_iff hapartNext).1 ⟨files, w', hfiles, hrest⟩
  obtain ⟨told, rfl, htold⟩ := exists_map_of_mapM_eq_ok hround
  have hround' : siblings'.mapM (t.reportedAt report.id u.store) = .ok (siblings'.map told) :=
    mapM_eq_ok_map fun p hp => htold p (hperm.subset hp)
  obtain ⟨files', v, hfiles', hrest'⟩ := (Target.run_siblings_eq_ok_iff
    (hperm.symm.pairwise hapartNext fun h => Store.Apart.symm h)).2 hround'
  rw [← classify_congr htree] at hfiles'
  have hpair : ∀ p ∈ siblings, told p = (p, (told p).2) := fun p hp =>
    Prod.ext (Target.fst_of_reportedAt (htold p hp)) rfl
  refine ⟨⟨report.id, (path, first) :: siblings'.map told⟩, v, stamp_eq_ok_iff.2 ⟨t, files', first,
    u, _, hload, hfiles', hfirst, hrest', rfl⟩, rfl, first, fun p => (told p).2, ?_, ?_⟩
  · rw [hout, List.map_congr_left hpair]
  · rw [List.map_congr_left fun p hp => hpair p (hperm.subset hp)]

/-- **Order does not matter.**  If a run succeeds over files that are apart, it succeeds with the
siblings in any other order, with the same ID and the same outcome of each path, and leaves the
same files. -/
theorem stamp_perm {path : String} {siblings siblings' : List String} {d : Descriptor}
    {w w' : Workspace} {report : Report} (hperm : siblings'.Perm siblings)
    (hapart : (path :: siblings).Pairwise w.store.Apart)
    (hrun : (stamp path siblings d).run w = .ok report w') :
    ∃ report' v, (stamp path siblings' d).run w = .ok report' v ∧ report'.id = report.id ∧
      (∃ (first : Outcome) (outcome : String → Outcome),
        report.outcomes = (path, first) :: siblings.map (fun p => (p, outcome p)) ∧
        report'.outcomes = (path, first) :: siblings'.map (fun p => (p, outcome p))) ∧
      v.store.node? = w'.store.node? := by
  obtain ⟨report', v, hrun', hid, houtcomes⟩ := exists_stamp_of_perm hperm hapart hrun
  refine ⟨report', v, hrun', hid, houtcomes, ?_⟩
  refine (changedAt_stamp hrun).node?_eq (changedAt_stamp hrun') (hperm.cons path).subset ?_
  intro p hp loc b hb
  exact file_eq_ok_of_stamp hperm hapart hrun hrun' hp hb

/-- The build of a mixed report, its siblings in another order. -/
theorem stamp_mixedBuild_perm :
    ["b.exe", "a.hex", "a.bin", "rest.bin"].Perm ["a.bin", "rest.bin", "a.hex", "b.exe"] ∧
      ["a.elf", "a.bin", "rest.bin", "a.hex", "b.exe"].Pairwise mixedBuild.store.Apart ∧
      (stamp "a.elf" ["a.bin", "rest.bin", "a.hex", "b.exe"] ⟨"id", .standard⟩).run mixedBuild =
        .ok mixedReport mixedEnd ∧
      ∃ report' v, (stamp "a.elf" ["b.exe", "a.hex", "a.bin", "rest.bin"] ⟨"id", .standard⟩).run
          mixedBuild = .ok report' v ∧ report'.id = mixedReport.id ∧
        (∃ (first : Outcome) (outcome : String → Outcome),
          mixedReport.outcomes = ("a.elf", first) ::
            ["a.bin", "rest.bin", "a.hex", "b.exe"].map (fun p => (p, outcome p)) ∧
          report'.outcomes = ("a.elf", first) ::
            ["b.exe", "a.hex", "a.bin", "rest.bin"].map (fun p => (p, outcome p))) ∧
        v.store.node? = mixedEnd.store.node? := by
  have hperm : ["b.exe", "a.hex", "a.bin", "rest.bin"].Perm
      ["a.bin", "rest.bin", "a.hex", "b.exe"] := by decide
  have hplaces : ["a.elf", "a.bin", "rest.bin", "a.hex", "b.exe"].Pairwise
      fun p q => mixedBuild.store.locate p ≠ mixedBuild.store.locate q := by
    decide +kernel
  have hapart := hplaces.imp Store.Apart.of_locate_ne
  have hrun : (stamp "a.elf" ["a.bin", "rest.bin", "a.hex", "b.exe"] ⟨"id", .standard⟩).run
      mixedBuild = .ok mixedReport mixedEnd := by
    decide +kernel
  exact ⟨hperm, hapart, hrun, stamp_perm hperm hapart hrun⟩

end FirmwareStamp
