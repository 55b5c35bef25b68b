import FirmwareStamp.Proofs.Checks
import FirmwareStamp.Proofs.ReadBack
import FirmwareStamp.Proofs.Siblings

/-!
# Files that carry the ID

A file is settled when stamping it would write what it holds, so it is settled once it has its edit
(`settled_of_edited`).  Over settled files a second round has the same outcomes and changes nothing
(`Settled.run_mapM`), and the ID is found in all of them (`Settled.run_forM`).
-/

namespace FirmwareStamp

namespace Target

/-- Whether a file of the build has its edit already: stamping it has this outcome and changes
nothing, and where there is an ID to be written it is read. -/
def Settled (t : Target) (id : BuildId) (s : Store) :
    String × Option FileFormat → String × Outcome → Prop
  | (path, none), out => out = (path, .missing)
  | (path, some format), out => ∃ loc b e?, s.file path = .ok (loc, b) ∧
      t.edit format path id b = .ok e? ∧ out = (path, .ofEdit e?) ∧
      ∀ e ∈ e?, e.contents = b ∧ t.readBytes format path b = .ok (e.place, id)

/-- Whether the placeholder in a file is found again once the file is stamped. -/
def Refinds (t : Target) (id : BuildId) (s : Store) (format : FileFormat) (path : String) : Prop :=
  ∀ loc b e, s.file path = .ok (loc, b) → t.edit format path id b = .ok (some e) →
    t.FindsAgain format path b e

variable {t : Target} {id : BuildId} {w w' : Workspace}

/-! ## After the first round -/

theorem Settled.of_file {s s' : Store} {file : String × Option FileFormat} {out : String × Outcome}
    (h : t.Settled id s file out)
    (hfile : ∀ loc b, s.file file.1 = .ok (loc, b) → s'.file file.1 = .ok (loc, b)) :
    t.Settled id s' file out := by
  obtain ⟨path, _ | format⟩ := file
  · exact h
  · obtain ⟨loc, b, e?, hb, hedit, hout, hread⟩ := h
    exact ⟨loc, b, e?, hfile loc b hb, hedit, hout, hread⟩

/-- A file that got its edit is settled. -/
theorem settled_of_edited {s s' : Store} {file : String × Option FileFormat}
    {out : String × Outcome} (h : t.Edited id s s' file out)
    (hfind : ∀ format, file.2 = some format → t.Refinds id s format file.1) :
    t.Settled id s' file out := by
  obtain ⟨path, _ | format⟩ := file
  · exact h
  · obtain ⟨loc, b, e?, hfile, hedit, hout, hfile'⟩ := h
    cases e? with
    | none => exact ⟨loc, b, none, hfile', hedit, hout, by simp⟩
    | some e =>
      obtain ⟨hagain, hread⟩ := edit_again hedit (hfind format rfl loc b e hfile hedit)
      refine ⟨loc, e.contents, some e, hfile', hagain, hout, ?_⟩
      rintro _ ⟨⟩
      exact ⟨rfl, hread⟩

/-! ## A second round -/

theorem Settled.run_stampFile {file : String × Option FileFormat} {out : String × Outcome}
    (h : t.Settled id w.store file out) :
    ∃ w', (t.stampFile id file).run w = .ok out w' ∧ w'.store.node? = w.store.node? := by
  obtain ⟨path, _ | format⟩ := file
  · exact ⟨w, by rw [h]; rfl, rfl⟩
  · obtain ⟨loc, b, e?, hfile, hedit, rfl, hread⟩ := h
    obtain ⟨w', hrun, hnode⟩ :=
      (edits_stamp t format path id).run_again hfile hedit fun e he => (hread e he).1
    exact ⟨w', stampFile_eq_ok_iff.2 ⟨rfl, hrun⟩, hnode⟩

/-- **A second round.**  Over settled files it has their outcomes and changes nothing. -/
theorem Settled.run_mapM {files : List (String × Option FileFormat)} {out : List (String × Outcome)}
    (h : List.Forall₂ (t.Settled id w.store) files out) :
    ∃ w', (files.mapM (t.stampFile id)).run w = .ok out w' ∧
      w'.store.node? = w.store.node? := by
  induction files generalizing w out with
  | nil =>
    rw [List.forall₂_nil_left_iff] at h
    rw [h]
    exact ⟨w, rfl, rfl⟩
  | cons file rest ih =>
    obtain ⟨first, others, hfile, hrest, rfl⟩ := List.forall₂_cons_left_iff.1 h
    obtain ⟨u, hrun, hnode⟩ := hfile.run_stampFile
    have hsettled : List.Forall₂ (t.Settled id u.store) rest others :=
      hrest.imp fun _ _ k => k.of_file fun loc b hb => by rw [Store.file_congr hnode, hb]
    obtain ⟨w', hrun', hnode'⟩ := ih hsettled
    exact ⟨w', Session.mapM_cons_eq_ok_iff.2 ⟨first, u, others, hrun, hrun', rfl⟩,
      hnode'.trans hnode⟩

/-! ## Verifying -/

/-- A settled file passes. -/
theorem Settled.passes {s : Store} {file : String × Option FileFormat} {out : String × Outcome}
    (h : t.Settled id s file out)
    (hformat : ∀ format, file.2 = some format → FileFormat.ofPath file.1 = .ok format) :
    t.passes id s file = .ok () := by
  obtain ⟨path, _ | format⟩ := file
  · rfl
  · obtain ⟨loc, b, e?, hfile, hedit, -, hread⟩ := h
    have hpath : FileFormat.ofPath path = .ok format := hformat format rfl
    unfold Target.passes
    dsimp only
    unfold checkId
    rw [hpath, ok_bind, read_eq_readBytes format hfile]
    cases e? with
    | none =>
      obtain ⟨rfl, offset, expected, found, hnone⟩ := readBytes_of_edit_eq_none hedit
      rw [hnone]
      rfl
    | some e =>
      rw [(hread e rfl).2, ok_bind]
      dsimp only
      rw [if_neg (by simp)]
      cases format <;> rfl

/-- The ID is found in all settled files. -/
theorem Settled.run_forM {files : List (String × Option FileFormat)} {out : List (String × Outcome)}
    (h : List.Forall₂ (t.Settled id w.store) files out)
    (hformat : ∀ file ∈ files, ∀ format, file.2 = some format →
      FileFormat.ofPath file.1 = .ok format) :
    ∃ w', (files.forM (t.verifyFile id)).run w = .ok () w' ∧ w'.store = w.store := by
  have hpass : ∀ file ∈ files, t.passes id w.store file = .ok () := by
    intro file hmem
    obtain ⟨_, -, hsettled⟩ := exists_of_forall₂ h hmem
    exact hsettled.passes (hformat file hmem)
  rw [← Session.endsAs_ok_iff, ← forM_eq_ok_iff.2 hpass]
  refine Session.endsAs_forM (fun file u hu => ?_) files
  rw [← hu]
  exact t.endsAs_verifyFile id file u

end Target

end FirmwareStamp
