import FirmwareStamp.Proofs.InRange
import FirmwareStamp.Proofs.Places

/-!
# Runs over 32-bit files

A run reads files after it has written to others, so a file has to be of 32 bits not only at the
start but when its turn comes.  It is if nothing was written to it, which is so if no other path of
an executable leads to it.  It is as well if the magic is not what ELF files start with, or the ID
does not go on like a file of 64 bits: the ID goes behind the magic, and gets at the byte that says
how wide words are only where the file starts with it.  In all other cases the run `TurnsWide`.

    s.Narrow → ¬ s.TurnsWide path siblings d → (stamp path siblings d).InRange ⟨s, notices⟩
                                                                        (narrow_never_overflows)

With that magic, such an ID and a file that is given twice, the first ID makes a 32-bit file one of
64 bits, and stamping it again breaks off (`stamp_polyglotBuild`).
-/

namespace FirmwareStamp

/-! ## Sessions -/

namespace Session

variable {α β : Type} {x : Session α} {w : Workspace}

/-- Whether a session does not fail because a number left the range of its word. -/
def InRange (x : Session α) (w : Workspace) : Prop :=
  ∀ w', x.run w ≠ .error .overflow w'

namespace InRange

theorem pure (a : α) : (pure a : Session α).InRange w := by
  intro w' h
  cases h

theorem throw {e : Error} (h : e ≠ .overflow) : (throw e : Session α).InRange w := by
  intro w' hrun
  injection hrun with he
  exact h he

theorem bind {f : α → Session β} (hx : x.InRange w)
    (hf : ∀ a u, x.run w = .ok a u → (f a).InRange u) : (x >>= f).InRange w := by
  intro w' hrun
  rcases bind_eq_error_iff.1 hrun with h | ⟨a, u, ha, h⟩
  · exact hx w' h
  · exact hf a u ha w' h

theorem store_bind {f : Store → Session β} (hf : (f w.store).InRange w) :
    (store >>= f).InRange w := hf

theorem lift_bind {r : Except Error α} {f : α → Session β} (hr : FirmwareStamp.InRange r)
    (hf : ∀ a, r = .ok a → (f a).InRange w) : (lift r >>= f).InRange w := by
  intro w' hrun
  rcases lift_bind_eq_error_iff.1 hrun with ⟨h, -⟩ | ⟨a, ha, h⟩
  · exact hr h
  · exact hf a ha w' h

theorem tell_bind {notice : Notice} {f : Unit → Session β} (hf : ∀ u, (f ()).InRange u) :
    (tell notice >>= f).InRange w := hf _

theorem commit_bind {path : String} {r : Except Store.Fault Store} {f : Unit → Session β}
    (hf : ∀ u, (f ()).InRange u) : (commit path r >>= f).InRange w := by
  cases r with
  | ok s => exact hf _
  | error fault =>
    intro w' hrun
    cases hrun

end InRange

end Session

/-! ## One file -/

namespace Target

variable {t : Target} {w : Workspace} {path : String}

theorem inRange_stampImage (h : t.image.Narrow) (id : BuildId) : (t.stampImage id).InRange w := by
  unfold stampImage
  refine .lift_bind (h.inRange_fileOffset t.address) fun offset _ => .store_bind ?_
  refine .lift_bind (.mapError (by simp)) fun found _ => ?_
  refine .lift_bind (inRange_check _ _ _ _) fun _ _ => ?_
  exact .tell_bind fun _ => .commit_bind fun _ => .pure _

theorem inRange_stampExecutable (h : w.store.NarrowAt path) (id : BuildId) :
    (t.stampExecutable path id).InRange w := by
  unfold stampExecutable
  refine .store_bind (.lift_bind (FirmwareStamp.inRange_load _ path) fun image hload => ?_)
  exact inRange_stampImage (h.image hload) id

/-- The address of the value bytes is one of the addresses that were read. -/
theorem inRange_stampIntelHex (h : t.image.Narrow) (id : BuildId) :
    (t.stampIntelHex path id).InRange w := by
  unfold stampIntelHex
  refine .lift_bind (inRange_hexAddress h path) fun address _ => .store_bind ?_
  refine .lift_bind (inRange_listing _ path) fun listing _ => ?_
  refine .lift_bind (inRange_check _ _ _ _) fun found hcheck => ?_
  have hplace := (writable_of_holds (check_read_eq_ok_iff.1 hcheck) id).1
  dsimp only
  rw [if_neg (by omega)]
  refine .tell_bind fun _ => ?_
  split
  · exact .throw (by simp)
  · refine .lift_bind (.mapError (by simp)) fun text _ => ?_
    exact .commit_bind fun _ => .pure _

theorem inRange_stampRawBinary (h : t.image.Narrow) (id : BuildId) :
    (t.stampRawBinary path id).InRange w := by
  unfold stampRawBinary
  refine .store_bind (.lift_bind (inRange_fetch _ path) fun b _ => ?_)
  refine .lift_bind (inRange_rawOffset? h b) fun offset? _ => ?_
  split
  · exact .tell_bind fun _ => .pure _
  · refine .tell_bind fun _ => .commit_bind fun _ => .store_bind ?_
    refine .lift_bind (inRange_fetch _ path) fun written _ => ?_
    refine .lift_bind (inRange_check _ _ _ _) fun found _ => ?_
    split
    · exact .throw (by simp)
    · exact .pure _

theorem inRange_stampFile (h : t.image.Narrow) (id : BuildId)
    {file : String × Option FileFormat}
    (hfile : file.2 = some .executable → w.store.NarrowAt file.1) :
    (t.stampFile id file).InRange w := by
  obtain ⟨path, _ | format⟩ := file
  · exact .pure _
  · refine .bind ?_ fun _ _ _ => .pure _
    cases format with
    | executable => exact inRange_stampExecutable (hfile rfl) id
    | intelHex => exact inRange_stampIntelHex h id
    | rawBinary => exact inRange_stampRawBinary h id

end Target

/-! ## Contents that are stamped -/

namespace Elf

/-- What an ELF file starts with. -/
def signature : Bytes := [0x7f, 0x45, 0x4c, 0x46]

/-- Whether contents that start like an ELF file do not go on like one of 64 bits. -/
def SaysNarrow (b : Bytes) : Prop :=
  b.take 4 = signature → b.getD 4 0 ≠ 2

instance (b : Bytes) : Decidable (SaysNarrow b) :=
  inferInstanceAs (Decidable (_ → _))

theorem encoding?_eq_ok {b : Bytes} {e : Encoding} (h : Header.encoding? b = .ok e) :
    b.take 4 = signature ∧
      ((b.getD 4 0 = 1 ∧ e.width = .bits32) ∨ (b.getD 4 0 = 2 ∧ e.width = .bits64)) := by
  unfold Header.encoding? at h
  dsimp only at h
  by_cases hempty : b = []
  · rw [if_pos hempty] at h
    contradiction
  by_cases hshort : b.length < Header.identLength
  · rw [if_neg hempty, if_pos hshort] at h
    contradiction
  by_cases hsignature : b.take 4 ≠ [0x7f, 0x45, 0x4c, 0x46]
  · rw [if_neg hempty, if_neg hshort, if_pos hsignature] at h
    contradiction
  rw [if_neg hempty, if_neg hshort, if_neg hsignature] at h
  refine ⟨Decidable.not_not.1 hsignature, ?_⟩
  split at h
  · next hclass =>
    obtain ⟨_, ⟨⟩, h⟩ := bind_eq_ok.1 h
    refine .inl ⟨hclass, ?_⟩
    split at h <;> cases h <;> rfl
  · next hclass =>
    obtain ⟨_, ⟨⟩, h⟩ := bind_eq_ok.1 h
    refine .inr ⟨hclass, ?_⟩
    split at h <;> cases h <;> rfl
  · contradiction

theorem isNarrow_of_saysNarrow {b : Bytes} (h : SaysNarrow b) : IsNarrow b := by
  intro tables e _ he
  obtain ⟨hsignature, ⟨-, hwidth⟩ | ⟨hclass, -⟩⟩ := encoding?_eq_ok he
  · exact hwidth
  · exact absurd hclass (h hsignature)

theorem saysNarrow_of_parse {path : String} {b : Bytes} {image : Image} (h : IsNarrow b)
    (himage : Image.parse path b = .ok image) : SaysNarrow b := by
  intro _
  unfold Image.parse at himage
  split at himage
  · contradiction
  · next tables htables =>
    obtain ⟨header, hheader, -⟩ := bind_eq_ok.1 htables
    have he := encoding?_of_parse hheader
    have hwidth := h tables _ htables he
    obtain ⟨-, ⟨hclass, -⟩ | ⟨-, hwide⟩⟩ := encoding?_eq_ok he
    · rw [hclass]
      decide
    · rw [hwidth] at hwide
      contradiction

/-- An ID gets at the byte that says how wide words are only behind a magic that the file starts
with. -/
theorem saysNarrow_overwrite {b : Bytes} {m : Magic} {offset : Nat} {id found : BuildId}
    (h : SaysNarrow b) (hid : m.bytes = signature → id.bytes.head? ≠ some 2)
    (hslice : b.slice offset placeholderLength = m.bytes ++ found.bytes) :
    SaysNarrow (b.overwrite (offset + Magic.length) id.bytes) := by
  have hfits : offset + Magic.length + id.bytes.length ≤ b.length := by
    rw [id.length_eq]
    exact Magic.le_length_of_slice hslice
  have hsame : (b.overwrite (offset + Magic.length) id.bytes).take 4 = b.take 4 :=
    Bytes.slice_overwrite_apart hfits (.inl (show 0 + 4 ≤ _ by unfold Magic.length; omega))
  intro hstart
  rw [hsame] at hstart
  rw [List.getD_eq_getElem?_getD, Bytes.getElem?_overwrite _ _ _ hfits]
  by_cases hzero : offset = 0
  · -- the file starts with the magic, so the byte is the first one of the ID
    subst hzero
    have hfirst := Magic.slice_magic hslice
    rw [Bytes.slice, List.drop_zero] at hfirst
    have hne := hid (hfirst.symm.trans hstart)
    rw [if_pos (by rw [id.length_eq]; decide), show 4 - (0 + Magic.length) = 0 from rfl,
      ← List.head?_eq_getElem?]
    cases hhead : id.bytes.head? with
    | none => decide
    | some byte =>
      rw [hhead] at hne
      intro hbyte
      exact hne (congrArg some hbyte)
  · rw [if_neg (by unfold Magic.length; omega), ← List.getD_eq_getElem?_getD]
    exact h hstart

end Elf

/-! ## Runs -/

/-- The image's own path and those of the siblings that are executables. -/
def executables (path : String) (siblings : List String) : List String :=
  path :: siblings.filter fun p => FileFormat.ofPath p = .ok .executable

namespace Store

variable {s s' : Store}

/-- Whether each file with an executable's extension holds in `s'` what it holds in `s`, or what can
only be taken for an ELF file of 32 bits. -/
structure StaysNarrow (s s' : Store) : Prop where
  tree : s.SameTree s'
  executable : ∀ p loc b, FileFormat.ofPath p = .ok .executable → s.locate p = .ok loc →
    s'.node? loc = some (.file b) → s.node? loc = some (.file b) ∨ Elf.SaysNarrow b

theorem StaysNarrow.narrowAt (h : s.StaysNarrow s') (hs : s.Narrow) {p : String}
    (hp : FileFormat.ofPath p = .ok .executable) : s'.NarrowAt p := by
  intro loc b hfile
  obtain ⟨hlocate, hnode⟩ := file_eq_ok_iff.1 hfile
  rw [← h.tree.locate_eq] at hlocate
  rcases h.executable p loc b hp hlocate hnode with hsame | hsays
  · exact hs loc b hsame
  · exact Elf.isNarrow_of_saysNarrow hsays

theorem StaysNarrow.replace (h : s.StaysNarrow s') {loc : Location} {old new : Bytes}
    (hold : s'.node? loc = some (.file old))
    (hnew : ∀ p, FileFormat.ofPath p = .ok .executable → s.locate p = .ok loc →
      Elf.SaysNarrow new) : s.StaysNarrow (s'.replace loc new) where
  tree := h.tree.trans (sameTree_replace hold new)
  executable p l b hp hlocate hnode := by
    rw [node?_replace hold] at hnode
    by_cases hl : l = loc
    · rw [if_pos hl] at hnode
      cases hnode
      exact .inr (hnew p hp (hl ▸ hlocate))
    · rw [if_neg hl] at hnode
      exact h.executable p l b hp hlocate hnode

/-- Whether the ID of a run goes behind what ELF files start with and goes on like a file of 64
bits, and two paths of executables lead to one file, which is then read again after it was
stamped. -/
structure TurnsWide (s : Store) (path : String) (siblings : List String) (d : Descriptor) :
    Prop where
  magic : d.magic.bytes = Elf.signature
  wideId : ∃ t id, Target.load s path d = .ok (t, id) ∧ id.bytes.head? = some 2
  shared : ¬ (executables path siblings).Pairwise s.Apart

/-- A file of another format is not that of an executable. -/
theorem apart_of_classify {file : String × Option FileFormat} {q : String}
    (hfile : classify s file.1 = .ok file) (hformat : file.2 ≠ some .executable)
    (hq : FileFormat.ofPath q = .ok .executable) : s.Apart file.1 q := by
  intro loc b c hb hc
  obtain ⟨-, ⟨-, format, hpath, hsome⟩ | ⟨hleads, -⟩⟩ := classify_eq_ok_iff.1 hfile
  · obtain rfl : format = .executable :=
      ofPath_eq_of_locate (file_eq_ok_iff.1 hb).1 (file_eq_ok_iff.1 hc).1 hpath hq
    exact hformat hsome
  · rw [leadsTo_of_file hb] at hleads
    contradiction

/-- An executable among the siblings is no other file of a run, if the executables are apart. -/
theorem apart_of_executables {path : String} {siblings : List String}
    {done rest : List (String × Option FileFormat)} {file : String × Option FileFormat}
    (hfiles : siblings.mapM (classify s) = .ok (done ++ file :: rest))
    (hapart : (executables path siblings).Pairwise s.Apart)
    (hfile : FileFormat.ofPath file.1 = .ok .executable) :
    ∀ p ∈ path :: done.map (·.1), s.Apart p file.1 := by
  have hsiblings := map_fst_of_classify hfiles
  unfold executables at hapart
  rw [← hsiblings, List.map_append, List.map_cons, List.filter_append,
    List.filter_cons_of_pos (by simpa using hfile)] at hapart
  obtain ⟨hhead, htail⟩ := List.pairwise_cons.1 hapart
  intro p hp
  rcases List.mem_cons.1 hp with rfl | hp
  · exact hhead _ (by simp)
  · obtain ⟨other, hother, rfl⟩ := List.mem_map.1 hp
    have hclass := (classify_of_mem hfiles (List.mem_append_left _ hother)).2
    by_cases hexecutable : other.2 = some .executable
    · have hformat := ofPath_of_classify hfiles (List.mem_append_left _ hother) hexecutable
      refine (List.pairwise_append.1 htail).2.2 _ ?_ _ List.mem_cons_self
      exact List.mem_filter.2 ⟨hp, by simpa using hformat⟩
    · exact apart_of_classify hclass hexecutable hfile

end Store

namespace Target

variable {t : Target} {id : BuildId} {s : Store}

/-- A sibling that is stamped stays one of 32 bits, if the ID cannot make it one of 64 bits. -/
theorem maintains_staysNarrow (hs : s.Narrow)
    (hid : t.descriptor.magic.bytes = Elf.signature → id.bytes.head? ≠ some 2)
    {file : String × Option FileFormat}
    (hfile : ∀ format, file.2 = some format → FileFormat.ofPath file.1 = .ok format) :
    (t.stampFile id file).Maintains s.StaysNarrow := by
  obtain ⟨path, _ | format⟩ := file
  · exact Session.maintains_pure _
  refine ((edits_stamp t format path id).maintains ?_).bind fun _ => Session.maintains_pure _
  intro s' loc b e hstays hread hedit
  obtain ⟨hlocate, hnode⟩ := Store.file_eq_ok_iff.1 hread
  rw [← hstays.tree.locate_eq] at hlocate
  refine hstays.replace hnode fun p hp hplace => ?_
  -- a path to the same place has the same format
  obtain rfl : FileFormat.executable = format :=
    ofPath_eq_of_locate hplace hlocate hp (hfile format rfl)
  obtain ⟨image, offset, old, himage, -, -, hslice, rfl⟩ := edit_executable_eq_some_iff.1 hedit
  have hsays : Elf.SaysNarrow b := by
    rcases hstays.executable p loc b hp hplace hnode with hsame | hsays
    · exact Elf.saysNarrow_of_parse (hs loc b hsame) himage
    · exact hsays
  exact Elf.saysNarrow_overwrite hsays hid hslice

theorem staysNarrow_stampImage {w u : Workspace} {path : String} {d : Descriptor} {first : Outcome}
    (hs : w.store.Narrow) (hid : d.magic.bytes = Elf.signature → id.bytes.head? ≠ some 2)
    (hload : Target.load w.store path d = .ok (t, id))
    (hrun : (t.stampImage id).run w = .ok first u) : w.store.StaysNarrow u.store := by
  have hpath := path_of_load hload
  obtain ⟨loc, b, hfile, himage, -, -, rfl⟩ := load_eq_ok_iff.1 hload
  obtain ⟨e, hedit, -, hstore⟩ := stampImage_eq_ok (by rw [hpath]; exact hfile) hrun
  obtain ⟨offset, old, -, -, hslice, rfl⟩ := editImage_eq_ok_iff.1 hedit
  have hnode := (Store.file_eq_ok_iff.1 hfile).2
  rw [hstore]
  refine Store.StaysNarrow.replace ⟨.refl _, fun _ _ _ _ _ h => .inl h⟩ hnode fun _ _ _ => ?_
  exact Elf.saysNarrow_overwrite (Elf.saysNarrow_of_parse (hs loc b hnode) himage) hid hslice

end Target

section

variable {w u v : Workspace} {path : String} {siblings : List String} {d : Descriptor} {t : Target}
  {id : BuildId} {first : Outcome} {done rest : List (String × Option FileFormat)}
  {file : String × Option FileFormat} {out : List (String × Outcome)}

/-- What was stamped before a file stays of 32 bits, if the ID cannot make it wider. -/
theorem narrowAt_of_id (hs : w.store.Narrow)
    (hid : d.magic.bytes = Elf.signature → id.bytes.head? ≠ some 2)
    (hload : Target.load w.store path d = .ok (t, id))
    (hfiles : siblings.mapM (classify w.store) = .ok (done ++ file :: rest))
    (hfirst : (t.stampImage id).run w = .ok first u)
    (hdone : (done.mapM (t.stampFile id)).run u = .ok out v)
    (hfile : FileFormat.ofPath file.1 = .ok .executable) : v.store.NarrowAt file.1 := by
  have hfirst' := Target.staysNarrow_stampImage hs hid hload hfirst
  obtain ⟨_, _, -, -, -, -, rfl⟩ := Target.load_eq_ok_iff.1 hload
  have hround : (done.mapM (t.stampFile id)).Maintains w.store.StaysNarrow := by
    refine Session.maintains_mapM fun other hother => Target.maintains_staysNarrow hs hid ?_
    exact fun format => ofPath_of_classify hfiles (List.mem_append_left _ hother)
  exact (hround.of_ok hfirst' hdone).narrowAt hs hfile

/-- What was stamped before a file is another file, if the executables are apart. -/
theorem narrowAt_of_apart (hs : w.store.Narrow)
    (hapart : (executables path siblings).Pairwise w.store.Apart)
    (hload : Target.load w.store path d = .ok (t, id))
    (hfiles : siblings.mapM (classify w.store) = .ok (done ++ file :: rest))
    (hfirst : (t.stampImage id).run w = .ok first u)
    (hdone : (done.mapM (t.stampFile id)).run u = .ok out v)
    (hfile : FileFormat.ofPath file.1 = .ok .executable) : v.store.NarrowAt file.1 := by
  have hchanged := ((Target.edits_stampImage t id).changedAt hfirst).trans
    (Target.changedAt_mapM hdone)
  rw [Target.path_of_load hload] at hchanged
  intro loc b hb
  refine hs.narrowAt file.1 loc b (hchanged.file_eq_ok_of_file ?_ hb)
  exact Store.apart_of_executables hfiles hapart hfile

/-- **A run** over 32-bit files, none of which it makes one of 64 bits and reads again. -/
theorem inRange_stamp (hs : w.store.Narrow) (hturns : ¬ w.store.TurnsWide path siblings d) :
    (stamp path siblings d).InRange w := by
  intro w' hrun
  rcases stamp_eq_error hrun with ⟨hload, -⟩ | ⟨t, id, hload, h⟩
  · exact Target.inRange_load (hs.narrowAt path) hload
  have himage := Target.image_of_load (hs.narrowAt path) hload
  rcases h with ⟨hfiles, -⟩ | ⟨files, hfiles, hfirst | ⟨first, u, hfirst, hrest⟩⟩
  · exact InRange.mapM (fun p _ => inRange_classify w.store p) hfiles
  · exact Target.inRange_stampImage himage id w' hfirst
  · obtain ⟨done, file, rest, out, v, rfl, hdone, hfailed⟩ := Session.mapM_eq_error hrest
    refine Target.inRange_stampFile himage id (fun hexecutable => ?_) w' hfailed
    have hfile := ofPath_of_classify hfiles (List.mem_append_right _ List.mem_cons_self) hexecutable
    by_cases hapart : (executables path siblings).Pairwise w.store.Apart
    · exact narrowAt_of_apart hs hapart hload hfiles hfirst hdone hfile
    · refine narrowAt_of_id hs ?_ hload hfiles hfirst hdone hfile
      exact fun hmagic hhead => hturns ⟨hmagic, ⟨t, id, hload, hhead⟩, hapart⟩

end

theorem inRange_verify {w : Workspace} (hs : w.store.Narrow) (path : String)
    (siblings : List String) (d : Descriptor) : (verify path siblings d).InRange w := by
  intro w' hrun
  obtain ⟨notices, hend⟩ := endsAs_verify path siblings d w
  rw [hrun] at hend
  have hverdict := inRange_verdict hs path siblings d
  generalize verdict path siblings d w.store = result at hend hverdict
  cases result with
  | ok id => cases hend
  | error e =>
    cases hend
    exact hverdict rfl

/-- **Nothing overflows on 32-bit files.**  If all ELF files of a store are of 32 bits, stamping
does not overflow, unless it makes one of them a file of 64 bits and reads it again; verifying and
reading IDs never do.  The places, sums of an offset or address and the length of the magic, that a
run tells of as soon as it has them and those that are read are words, if the lengths of the files
are.  The slices that are taken and the slots of Intel HEX files are in range. -/
theorem narrow_never_overflows {s : Store} (hs : s.Narrow) (notices : List Notice) :
    (∀ path siblings d, ¬ s.TurnsWide path siblings d →
      (stamp path siblings d).InRange ⟨s, notices⟩) ∧
    (∀ path siblings d, (verify path siblings d).InRange ⟨s, notices⟩) ∧
    (s.FilesFit →
      (∀ path siblings d,
        (stamp path siblings d).EndsIn ⟨s, notices⟩ (·.PlacesFit notices)) ∧
      ∀ (t : Target) format path place found,
        t.read format s path = .ok (place, found) → place < Elf.wordLimit) ∧
    (∀ source image, Image.load s source = .ok image → ∀ address,
      image.SlicesFit address ∧
        ∀ d path, InRange ((⟨image, address, d⟩ : Target).readId s path)) ∧
    (∀ (b : Bytes) (offset : Nat), offset < Elf.wordLimit →
      ∃ found, b.between? (min offset b.length)
          (min (Bytes.saturatingAdd (min offset b.length) placeholderLength) b.length) =
            some found ∧
        (b.length < Elf.wordLimit → found = b.slice offset placeholderLength)) ∧
    (∀ (d : Descriptor) (found : Bytes),
      found.between? 0 (min found.length Magic.length) = some (found.take Magic.length) ∧
        (found.take Magic.length = d.magic.bytes →
          found.between? Magic.length found.length = some (found.drop Magic.length))) ∧
    (∀ (l m : IntelHex.Listing) start written, l.write? start written = some m → ∀ address,
      (l.locate? address).isSome = (l.get? address).isSome ∧
        ∀ slot, l.locate? address = some slot → m.Slot address slot) := by
  refine ⟨?_, ?_, ?_, ?_, ?_, ?_, ?_⟩
  · intro path siblings d hturns
    exact inRange_stamp hs hturns
  · intro path siblings d
    exact inRange_verify hs path siblings d
  · intro hfit
    refine ⟨endsIn_stamp hfit notices, ?_⟩
    intro t format path place found hread
    exact Target.place_lt_of_read (fun loc b hb => hfit loc b (Store.file_eq_ok_iff.1 hb).2) hread
  · intro source image hload address
    have himage := (hs.narrowAt source).image hload
    exact ⟨himage.slicesFit address, fun d path => Target.inRange_readId himage (hs.narrowAt path)⟩
  · intro b offset hoffset
    exact b.between?_placeholder hoffset
  · intro d found
    exact d.between?_check found
  · intro l m start written hwrite address
    exact ⟨l.locate?_isSome address, fun slot hslot =>
      IntelHex.Listing.slot_of_locate? (IntelHex.Listing.outline_write? hwrite) hslot⟩

/-! ## Files that become wider -/

/-- What all files have, each of them has. -/
theorem Store.of_files {s : Store} {P : Bytes → Prop} (h : ∀ file ∈ s.files, P file.2)
    {loc : Location} {b : Bytes} (hnode : s.node? loc = some (.file b)) : P b := by
  unfold node? at hnode
  split at hnode
  · cases hnode
  · obtain ⟨before, after, hentries, -⟩ := List.lookup_eq_some_iff.1 hnode
    refine h (loc, b) ?_
    unfold files
    rw [hentries]
    simp

theorem Store.narrow_of_files {s : Store} (h : ∀ file ∈ s.files, Elf.SaysNarrow file.2) :
    s.Narrow :=
  fun _ _ hnode => Elf.isNarrow_of_saysNarrow (of_files h hnode)

/-- The sample build is of 32 bits, and its magic is not what ELF files start with. -/
theorem sampleBuild_never_overflows :
    sampleBuild.store.Narrow ∧ sampleBuild.store.FilesFit ∧
      ¬ sampleBuild.store.TurnsWide "a.elf" ["a.bin", "a.hex", "b.exe"] ⟨"id", .standard⟩ ∧
      (stamp "a.elf" ["a.bin", "a.hex", "b.exe"] ⟨"id", .standard⟩).InRange sampleBuild ∧
      (verify "a.elf" ["a.bin", "a.hex", "b.exe"] ⟨"id", .standard⟩).InRange sampleBuild ∧
      (stamp "a.elf" ["a.bin", "a.hex", "b.exe"] ⟨"id", .standard⟩).EndsIn sampleBuild
        (·.PlacesFit []) ∧
      (∀ image, Image.load sampleBuild.store "a.elf" = .ok image → ∀ address,
        image.SlicesFit address ∧ ∀ d path,
          InRange ((⟨image, address, d⟩ : Target).readId sampleBuild.store path)) := by
  have hs : sampleBuild.store.Narrow := Store.narrow_of_files (by decide +kernel)
  have hfit : sampleBuild.store.FilesFit := fun _ _ hnode =>
    Store.of_files (P := fun b => b.length < Elf.wordLimit) (by decide +kernel) hnode
  have hturns : ¬ sampleBuild.store.TurnsWide "a.elf" ["a.bin", "a.hex", "b.exe"]
      ⟨"id", .standard⟩ :=
    fun h => absurd h.magic (by decide)
  obtain ⟨hstamp, hverify, hplaces, hread, -⟩ := narrow_never_overflows hs []
  exact ⟨hs, hfit, hturns, hstamp _ _ _ hturns, hverify _ _ _, (hplaces hfit).1 _ _ _,
    hread "a.elf"⟩

/-- An image of 32 bits that starts with its placeholder and whose ID starts like what stands there
in a file of 64 bits.  Its header, read with wide words, leads to a section whose offset is the
greatest word. -/
def polyglotElf : Bytes :=
  [0x7f, 0x45, 0x4c, 0x46, 1, 1, 1] ++ List.replicate 9 0 ++
    [2, 40].flatMap (Bytes.little 2) ++ [1, 30057, 0, 128, 0].flatMap (Bytes.little 4) ++
    [64, 0, 0, 0, 3, 2, 0, 0, 0, 0, 1, 1].flatMap (Bytes.little 2) ++
    -- the header of the section that is there with wide words
    [0, 1].flatMap (Bytes.little 4) ++
    [2, 0, 0xffffffffffffffff, 0x2000].flatMap (Bytes.little 8) ++
    [0, 0].flatMap (Bytes.little 4) ++ [0, 0].flatMap (Bytes.little 8) ++
    -- the headers of the contents, the symbols and the names
    [0, 1, 2, 0x1000, 0, 28, 0, 0, 0, 0,
     0, 2, 0, 0, 248, 16, 2, 0, 0, 16,
     0, 3, 0, 0, 264, 4, 0, 0, 0, 0].flatMap (Bytes.little 4) ++
    -- the symbol and its name
    [1, 0x1000, 24, 0].flatMap (Bytes.little 4) ++ [0, 0x69, 0x64, 0]

def polyglotBuild : Workspace where
  store := ⟨[(["a.elf"], .file polyglotElf)]⟩
  notices := []

/-- The ID of the image. -/
def polyglotId : BuildId :=
  ⟨[0x02, 0x01, 0x79, 0xd6, 0x23, 0xdd, 0x6c, 0xe3, 0xd3, 0x9c,
    0xaa, 0x96, 0x81, 0xaa, 0x7c, 0x70, 0x68, 0xec, 0x24, 0x35], rfl⟩

/-- What is left when the run breaks off. -/
def polyglotEnd : Workspace where
  store := ⟨[(["a.elf"], .file (polyglotElf.overwrite 4 polyglotId.bytes))]⟩
  notices := [.stamping .executable "a.elf" polyglotId 4]

/-- Stamped a second time, with the magic of an ELF file, the image is one of 64 bits, and an offset
overflows. -/
theorem stamp_polyglotBuild :
    polyglotBuild.store.Narrow ∧
      polyglotBuild.store.TurnsWide "a.elf" ["a.elf"] ⟨"id", ⟨Elf.signature, rfl⟩⟩ ∧
      (stamp "a.elf" ["a.elf"] ⟨"id", ⟨Elf.signature, rfl⟩⟩).run polyglotBuild =
        .error .overflow polyglotEnd := by
  have hs : polyglotBuild.store.Narrow := Store.narrow_of_files (by decide +kernel)
  have hrun : (stamp "a.elf" ["a.elf"] ⟨"id", ⟨Elf.signature, rfl⟩⟩).run polyglotBuild =
      .error .overflow polyglotEnd := by
    decide +kernel
  refine ⟨hs, ?_, hrun⟩
  by_contra hturns
  exact inRange_stamp hs hturns _ hrun

end FirmwareStamp
