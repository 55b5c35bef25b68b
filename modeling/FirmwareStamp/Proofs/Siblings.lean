import FirmwareStamp.Proofs.Edit

/-!
# Stamping one file after another

A step stamps one file, or passes over one that is missing, and touches nothing else
(`changedAt_stampFile`); so does a round over a list of files (`changedAt_mapM`), and if they are
apart each of them gets its edit (`edited_of_mapM`).  With that `stamp` succeeds exactly if each of
its parts does (`stamp_eq_ok_iff`), and then all its files have their edits (`edited_of_stamp`).
-/

namespace FirmwareStamp

namespace Store

/-- Whether one store became the other by changes of files that some paths lead to. -/
structure ChangedAt (s s' : Store) (paths : List String) : Prop where
  tree : s.SameTree s'
  frame : ∀ loc, (∀ p ∈ paths, s.locate p ≠ .ok loc) → s'.node? loc = s.node? loc

namespace ChangedAt

variable {s s' s'' : Store} {ps qs : List String}

theorem refl (s : Store) (paths : List String) : s.ChangedAt s paths :=
  ⟨.refl s, fun _ _ => rfl⟩

theorem trans (h : s.ChangedAt s' ps) (k : s'.ChangedAt s'' qs) : s.ChangedAt s'' (ps ++ qs) := by
  refine ⟨h.tree.trans k.tree, ?_⟩
  intro loc hloc
  rw [k.frame loc, h.frame loc]
  · intro p hp
    exact hloc p (List.mem_append_left _ hp)
  · intro q hq
    rw [← h.tree.locate_eq]
    exact hloc q (List.mem_append_right _ hq)

/-- A file that none of the paths leads to holds what it held. -/
theorem file_eq_ok (h : s.ChangedAt s' ps) {q : String} (hapart : ∀ p ∈ ps, s.Apart p q)
    {loc : Location} {b : Bytes} (hq : s.file q = .ok (loc, b)) : s'.file q = .ok (loc, b) := by
  obtain ⟨hlocate, hnode⟩ := file_eq_ok_iff.1 hq
  have hloc : ∀ p ∈ ps, s.locate p ≠ .ok loc := fun p hp hlead =>
    hapart p hp loc b b (file_eq_ok_iff.2 ⟨hlead, hnode⟩) hq
  rw [file_eq_ok_iff, ← h.tree.locate_eq, h.frame loc hloc]
  exact ⟨hlocate, hnode⟩

/-- A file that none of the paths leads to held what it holds. -/
theorem file_eq_ok_of_file (h : s.ChangedAt s' ps) {q : String} (hapart : ∀ p ∈ ps, s.Apart p q)
    {loc : Location} {b : Bytes} (hq : s'.file q = .ok (loc, b)) : s.file q = .ok (loc, b) := by
  obtain ⟨c, hc⟩ := h.tree.symm.exists_file hq
  rw [h.file_eq_ok hapart hc] at hq
  injection hq with hq
  injection hq with _ hq
  rw [hc, hq]

end ChangedAt

/-- An edit of a file changes that file. -/
theorem changedAt_edited {s : Store} {path : String} {loc : Location} {b : Bytes}
    (h : s.file path = .ok (loc, b)) (e? : Option Edit) : s.ChangedAt (s.edited loc e?) [path] := by
  obtain ⟨hlocate, hnode⟩ := file_eq_ok_iff.1 h
  cases e? with
  | none => exact .refl s _
  | some e =>
    refine ⟨sameTree_replace hnode e.contents, ?_⟩
    intro l hl
    have hne : l ≠ loc := by
      rintro rfl
      exact hl path List.mem_cons_self hlocate
    rw [edited, node?_replace hnode, if_neg hne]

/-- An edit of a file leaves the others as they are. -/
theorem file_replace_of_apart {s : Store} {p q : String} {loc l : Location} {b c : Bytes}
    (hp : s.file p = .ok (loc, b)) (hapart : s.Apart p q) (hq : s.file q = .ok (l, c)) (e : Edit) :
    (s.replace loc e.contents).file q = .ok (l, c) := by
  refine (changedAt_edited hp (some e)).file_eq_ok ?_ hq
  intro r hr
  rw [List.mem_singleton.1 hr]
  exact hapart

/-- What a file holds after an edit of its contents, or without one. -/
def contentsAfter (b : Bytes) : Option Edit → Bytes
  | some e => e.contents
  | none => b

theorem file_edited {s : Store} {path : String} {loc : Location} {b : Bytes}
    (h : s.file path = .ok (loc, b)) (e? : Option Edit) :
    (s.edited loc e?).file path = .ok (loc, contentsAfter b e?) := by
  cases e? with
  | none => exact h
  | some e => exact file_replace_self h e.contents

end Store

/-! ## Formats -/

theorem classify_eq_ok_iff {s : Store} {path : String} {file : String × Option FileFormat} :
    classify s path = .ok file ↔ file.1 = path ∧
      ((s.leadsTo path = true ∧ ∃ format, FileFormat.ofPath path = .ok format ∧
          file.2 = some format) ∨
        (s.leadsTo path = false ∧ file.2 = none)) := by
  obtain ⟨p, format?⟩ := file
  unfold classify
  cases hleads : s.leadsTo path with
  | true =>
    cases hformat : FileFormat.ofPath path with
    | error e => simp
    | ok format => simp [eq_comm]
  | false => simp [eq_comm]

theorem classify_eq_error_iff {s : Store} {path : String} {e : Error} :
    classify s path = .error e ↔ s.leadsTo path = true ∧ FileFormat.ofPath path = .error e := by
  unfold classify
  cases hleads : s.leadsTo path with
  | true =>
    cases hformat : FileFormat.ofPath path with
    | error e' => simp
    | ok format => simp
  | false => simp

/-- The format of a path is that of the place it leads to. -/
theorem ofPath_eq_of_locate {s : Store} {p q : String} {loc : Location} {f g : FileFormat}
    (hp : s.locate p = .ok loc) (hq : s.locate q = .ok loc) (hf : FileFormat.ofPath p = .ok f)
    (hg : FileFormat.ofPath q = .ok g) : f = g := by
  have hname : ∀ path format, s.locate path = .ok loc → FileFormat.ofPath path = .ok format →
      ∃ name, loc.head? = some name ∧ Path.fileName? path = some name := by
    intro path format hpath hformat
    cases hfile : Path.fileName? path with
    | none =>
      unfold FileFormat.ofPath Path.extension? at hformat
      rw [hfile] at hformat
      contradiction
    | some name =>
      rw [Store.locate_eq_ofPath hpath]
      exact ⟨name, Store.head?_ofPath hfile, rfl⟩
  obtain ⟨name, hhead, hfile⟩ := hname p f hp hf
  obtain ⟨other, hhead', hfile'⟩ := hname q g hq hg
  rw [hhead] at hhead'
  injection hhead' with hsame
  subst hsame
  have hextension : Path.extension? p = Path.extension? q := by
    unfold Path.extension?
    rw [hfile, hfile']
  unfold FileFormat.ofPath at hf hg
  rw [hextension] at hf
  split at hf
  all_goals first
    | next hext =>
      rw [hext] at hg
      exact Except.ok.inj (hf.symm.trans hg)
    | cases hf

theorem map_fst_of_classify {s : Store} {paths : List String}
    {files : List (String × Option FileFormat)} (h : paths.mapM (classify s) = .ok files) :
    files.map (·.1) = paths := by
  rw [mapM_eq_ok_iff] at h
  induction h with
  | nil => rfl
  | cons hhead _ ih => rw [List.map_cons, ih, (classify_eq_ok_iff.1 hhead).1]

/-- A path with its format is one of those given, classified. -/
theorem classify_of_mem {s : Store} {paths : List String}
    {files : List (String × Option FileFormat)} (h : paths.mapM (classify s) = .ok files)
    {file : String × Option FileFormat} (hmem : file ∈ files) :
    file.1 ∈ paths ∧ classify s file.1 = .ok file := by
  obtain ⟨p, hp, hclass⟩ := exists_of_mem_mapM h hmem
  rw [(classify_eq_ok_iff.1 hclass).1]
  exact ⟨hp, hclass⟩

theorem ofPath_of_classify {s : Store} {paths : List String}
    {files : List (String × Option FileFormat)} (h : paths.mapM (classify s) = .ok files)
    {file : String × Option FileFormat} (hmem : file ∈ files) {format : FileFormat}
    (hformat : file.2 = some format) : FileFormat.ofPath file.1 = .ok format := by
  obtain ⟨-, ⟨-, other, hpath, hother⟩ | ⟨-, hnone⟩⟩ :=
    classify_eq_ok_iff.1 (classify_of_mem h hmem).2
  · rw [hformat] at hother
    injection hother with hother
    rw [hother, hpath]
  · rw [hformat] at hnone
    contradiction

theorem classify_congr {s t : Store} (h : s.SameTree t) : classify s = classify t := by
  funext path
  unfold classify
  rw [h.leadsTo_eq]

/-! ## Rounds -/

namespace Session.Edits

variable {x : Session Outcome} {path : String} {edit : Bytes → Except Error (Option Edit)}
  {w w' : Workspace}

theorem changedAt {o : Outcome} (hx : x.Edits path edit) (h : x.run w = .ok o w') :
    w.store.ChangedAt w'.store [path] := by
  obtain ⟨loc, b, e?, hfile, -, -, hstore⟩ := hx.of_ok h
  rw [hstore]
  exact Store.changedAt_edited hfile e?

end Session.Edits

namespace Target

variable {t : Target} {id : BuildId} {w w' : Workspace}

theorem stampFile_eq_ok_iff {path : String} {format : FileFormat} {out : String × Outcome} :
    (t.stampFile id (path, some format)).run w = .ok out w' ↔
      out.1 = path ∧ (t.stamp format path id).run w = .ok out.2 w' := by
  obtain ⟨p, o⟩ := out
  unfold stampFile
  rw [Session.bind_eq_ok_iff]
  constructor
  · rintro ⟨_, _, hrun, ⟨⟩⟩
    exact ⟨rfl, hrun⟩
  · rintro ⟨rfl, hrun⟩
    exact ⟨o, w', hrun, rfl⟩

/-- A file that fails to be stamped leaves all files as they were. -/
theorem store_of_stampFile_eq_error {file : String × Option FileFormat} {e : Error}
    (h : (t.stampFile id file).run w = .error e w') : w'.store = w.store := by
  obtain ⟨path, _ | format⟩ := file
  · contradiction
  · unfold stampFile at h
    rcases Session.bind_eq_error_iff.1 h with h | ⟨_, _, -, h⟩
    · exact (edits_stamp t format path id).store_of_error h
    · contradiction

theorem changedAt_stampFile {file : String × Option FileFormat} {out : String × Outcome}
    (h : (t.stampFile id file).run w = .ok out w') : w.store.ChangedAt w'.store [file.1] := by
  obtain ⟨path, _ | format⟩ := file
  · injection h with _ h
    rw [← h]
    exact .refl _ _
  · exact (edits_stamp t format path id).changedAt (stampFile_eq_ok_iff.1 h).2

theorem changedAt_mapM {files : List (String × Option FileFormat)} {out : List (String × Outcome)}
    (h : (files.mapM (t.stampFile id)).run w = .ok out w') :
    w.store.ChangedAt w'.store (files.map (·.1)) := by
  induction files generalizing w out with
  | nil =>
    injection h with _ h
    rw [← h]
    exact .refl _ _
  | cons file rest ih =>
    obtain ⟨_, u, _, hfile, hrest, -⟩ := Session.mapM_cons_eq_ok_iff.1 h
    exact (changedAt_stampFile hfile).trans (ih hrest)

/-- Whether the file of an outcome had the contents for it in one store, and in another store has
what stamping makes of them. -/
def Edited (t : Target) (id : BuildId) (s s' : Store) :
    String × Option FileFormat → String × Outcome → Prop
  | (path, none), out => out = (path, .missing)
  | (path, some format), out => ∃ loc b e?, s.file path = .ok (loc, b) ∧
      t.edit format path id b = .ok e? ∧ out = (path, .ofEdit e?) ∧
      s'.file path = .ok (loc, Store.contentsAfter b e?)

theorem edited_of_stampFile {file : String × Option FileFormat} {out : String × Outcome}
    (h : (t.stampFile id file).run w = .ok out w') : t.Edited id w.store w'.store file out := by
  obtain ⟨path, _ | format⟩ := file
  · injection h with h
    exact h.symm
  · obtain ⟨hpath, hrun⟩ := stampFile_eq_ok_iff.1 h
    obtain ⟨loc, b, e?, hfile, hedit, ho, hstore⟩ := (edits_stamp t format path id).of_ok hrun
    refine ⟨loc, b, e?, hfile, hedit, Prod.ext hpath ho, ?_⟩
    rw [hstore]
    exact Store.file_edited hfile e?

theorem Edited.of_file {s s' u u' : Store} {file : String × Option FileFormat}
    {out : String × Outcome} (h : t.Edited id s s' file out)
    (hbefore : ∀ loc b, s.file file.1 = .ok (loc, b) → u.file file.1 = .ok (loc, b))
    (hafter : ∀ loc b, s'.file file.1 = .ok (loc, b) → u'.file file.1 = .ok (loc, b)) :
    t.Edited id u u' file out := by
  obtain ⟨path, _ | format⟩ := file
  · exact h
  · obtain ⟨loc, b, e?, hfile, hedit, ho, hfile'⟩ := h
    exact ⟨loc, b, e?, hbefore _ _ hfile, hedit, ho, hafter _ _ hfile'⟩

/-- **A round.**  Over files that are apart each of them is edited, whatever comes before and after
it. -/
theorem edited_of_mapM {files : List (String × Option FileFormat)} {out : List (String × Outcome)}
    (h : (files.mapM (t.stampFile id)).run w = .ok out w')
    (hapart : (files.map (·.1)).Pairwise w.store.Apart) :
    List.Forall₂ (t.Edited id w.store w'.store) files out := by
  induction files generalizing w out with
  | nil =>
    injection h with h
    rw [← h]
    exact .nil
  | cons file rest ih =>
    obtain ⟨first, u, others, hfile, hrest, rfl⟩ := Session.mapM_cons_eq_ok_iff.1 h
    rw [List.map_cons, List.pairwise_cons] at hapart
    obtain ⟨hhead, htail⟩ := hapart
    have hstep := changedAt_stampFile hfile
    constructor
    · -- those after the first leave it as it was stamped
      refine (edited_of_stampFile hfile).of_file (fun _ _ hb => hb) ?_
      intro loc b hb
      refine (changedAt_mapM hrest).file_eq_ok ?_ hb
      intro q hq
      exact ((hhead q hq).of_sameTree hstep.tree).symm
    · have hothers := ih hrest (htail.imp fun h => h.of_sameTree hstep.tree)
      -- the first has left each of the others as it was
      have hkept : ∀ other ∈ rest, ∀ loc b, u.store.file other.1 = .ok (loc, b) →
          w.store.file other.1 = .ok (loc, b) := by
        intro other hother loc b hb
        refine hstep.file_eq_ok_of_file ?_ hb
        intro p hp
        rw [List.mem_singleton.1 hp]
        exact hhead other.1 (List.mem_map_of_mem hother)
      exact ((List.forall₂_and_left _ _).2 ⟨hkept, hothers⟩).imp fun _ _ ⟨hbefore, hedited⟩ =>
        hedited.of_file hbefore fun _ _ hb => hb

/-- A target is loaded from the contents of a file alone. -/
theorem load_eq_ok_iff {s : Store} {path : String} {d : Descriptor} :
    Target.load s path d = .ok (t, id) ↔ ∃ loc b, s.file path = .ok (loc, b) ∧
      Image.parse path b = .ok t.image ∧ t.image.placeholder d = .ok t.address ∧
      t.image.buildId t.address = .ok id ∧ t.descriptor = d := by
  unfold Target.load
  constructor
  · intro h
    obtain ⟨image, himage, h⟩ := bind_eq_ok.1 h
    obtain ⟨address, haddress, h⟩ := bind_eq_ok.1 h
    obtain ⟨id', hid, h⟩ := bind_eq_ok.1 h
    injection h with h
    injection h with ht hid'
    subst ht hid'
    unfold Image.load at himage
    split at himage
    · contradiction
    · next b hread =>
      obtain ⟨loc, hfile⟩ := Store.exists_file_of_read hread
      exact ⟨loc, b, hfile, himage, haddress, hid, rfl⟩
  · rintro ⟨loc, b, hfile, himage, haddress, hid, rfl⟩
    rw [Store.load_eq_parse hfile, himage, ok_bind, haddress, ok_bind, hid]
    rfl

theorem path_of_load {s : Store} {path : String} {d : Descriptor}
    (h : Target.load s path d = .ok (t, id)) : t.image.path = path := by
  obtain ⟨loc, b, -, himage, -⟩ := load_eq_ok_iff.1 h
  exact (Image.path_of_parse himage).symm

end Target

/-- All files are stamped exactly if the image is read, all formats are known, and each file is
stamped in turn. -/
theorem stamp_eq_ok_iff {path : String} {siblings : List String} {d : Descriptor}
    {w w' : Workspace} {report : Report} :
    (stamp path siblings d).run w = .ok report w' ↔
      ∃ t files first u rest, Target.load w.store path d = .ok (t, report.id) ∧
        siblings.mapM (classify w.store) = .ok files ∧
        (t.stampImage report.id).run w = .ok first u ∧
        (files.mapM (t.stampFile report.id)).run u = .ok rest w' ∧
        report.outcomes = (path, first) :: rest := by
  unfold stamp
  constructor
  · intro h
    rw [Session.bind_ok (Session.run_store w)] at h
    obtain ⟨⟨t, id⟩, hload, h⟩ := Session.lift_bind_eq_ok_iff.1 h
    obtain ⟨files, hfiles, h⟩ := Session.lift_bind_eq_ok_iff.1 h
    obtain ⟨first, u, hfirst, h⟩ := Session.bind_eq_ok_iff.1 h
    obtain ⟨rest, v, hrest, h⟩ := Session.bind_eq_ok_iff.1 h
    injection h with h hv
    subst h hv
    exact ⟨t, files, first, u, rest, hload, hfiles, hfirst, hrest, rfl⟩
  · obtain ⟨id, outcomes⟩ := report
    rintro ⟨t, files, first, u, rest, hload, hfiles, hfirst, hrest, rfl⟩
    rw [Session.bind_ok (Session.run_store w), hload, Session.bind_ok (Session.run_lift_ok _ _),
      hfiles, Session.bind_ok (Session.run_lift_ok _ _), Session.bind_ok hfirst,
      Session.bind_ok hrest]
    rfl

/-- **A run.**  If it succeeds, over files that are apart, each of them is edited and no other file
is changed. -/
theorem edited_of_stamp {path : String} {siblings : List String} {d : Descriptor}
    {w w' : Workspace} {report : Report} (hrun : (stamp path siblings d).run w = .ok report w')
    (hapart : (path :: siblings).Pairwise w.store.Apart) :
    ∃ t files e loc rest, Target.load w.store path d = .ok (t, report.id) ∧
      siblings.mapM (classify w.store) = .ok files ∧
      w.store.file path = .ok (loc, t.image.bytes) ∧
      t.editImage report.id t.image.bytes = .ok e ∧ w'.store.file path = .ok (loc, e.contents) ∧
      List.Forall₂ (t.Edited report.id w.store w'.store) files rest ∧
      w.store.ChangedAt w'.store (path :: siblings) ∧
      report.outcomes = (path, .stamped e.place) :: rest := by
  obtain ⟨t, files, first, u, rest, hload, hfiles, hfirst, hrest, hout⟩ := stamp_eq_ok_iff.1 hrun
  obtain ⟨loc, b, hread, himage, -⟩ := Target.load_eq_ok_iff.1 hload
  have hpath := Target.path_of_load hload
  rw [← Image.bytes_of_parse himage] at hread
  have hfile : w.store.file t.image.path = .ok (loc, t.image.bytes) := by rw [hpath, hread]
  obtain ⟨e, hedit, rfl, hstore⟩ := Target.stampImage_eq_ok hfile hfirst
  have hstep := (Target.edits_stampImage t report.id).changedAt hfirst
  have hround := Target.changedAt_mapM hrest
  rw [hpath] at hstep
  rw [map_fst_of_classify hfiles] at hround
  obtain ⟨hhead, htail⟩ := List.pairwise_cons.1 hapart
  refine ⟨t, files, e, loc, rest, hload, hfiles, hread, hedit, ?_, ?_, hstep.trans hround, hout⟩
  · refine hround.file_eq_ok ?_ ?_
    · intro p hp
      exact ((hhead p hp).of_sameTree hstep.tree).symm
    · rw [hstore]
      exact Store.file_replace_self hread _
  · have hedited := Target.edited_of_mapM hrest (by
      rw [map_fst_of_classify hfiles]
      exact htail.imp fun h => h.of_sameTree hstep.tree)
    -- the siblings are as they were when the image's own file was stamped
    have hkept : ∀ file ∈ files, ∀ l c, u.store.file file.1 = .ok (l, c) →
        w.store.file file.1 = .ok (l, c) := by
      intro file hmem l c hc
      have hsibling : file.1 ∈ siblings := (classify_of_mem hfiles hmem).1
      refine hstep.file_eq_ok_of_file ?_ hc
      intro p hp
      rw [List.mem_singleton.1 hp]
      exact hhead file.1 hsibling
    exact ((List.forall₂_and_left _ _).2 ⟨hkept, hedited⟩).imp fun _ _ ⟨hbefore, h⟩ =>
      h.of_file hbefore fun _ _ hb => hb

end FirmwareStamp
