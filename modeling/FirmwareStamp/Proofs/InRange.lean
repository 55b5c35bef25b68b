import FirmwareStamp.Proofs.Failure
import FirmwareStamp.Proofs.Indices
import FirmwareStamp.Proofs.Invariant

/-!
# Computations in range

Reading and checking fail in many ways; the one left out here is that a number leaves the range of
its word.  A computation is in range if its steps are.  Of all that is done with an image, only the
sums behind offsets, load addresses and IDs can leave the range, and on 32-bit images they do not.
So a verdict over 32-bit files is in range, whatever else is wrong with them:

    s.Narrow → InRange (verdict path siblings d s)                               (inRange_verdict)
-/

namespace FirmwareStamp

/-! ## Computations -/

namespace InRange

variable {ε α β : Type} {r : Except Error α}

theorem ok (a : α) : InRange (.ok a : Except Error α) := by
  intro h
  cases h

theorem error {e : Error} (h : e ≠ .overflow) : InRange (.error e : Except Error α) := by
  intro he
  injection he with he
  exact h he

theorem bind {f : α → Except Error β} (hr : InRange r) (hf : ∀ a, r = .ok a → InRange (f a)) :
    InRange (r >>= f) := by
  cases r with
  | ok a => exact hf a rfl
  | error e =>
    refine error ?_
    rintro rfl
    exact hr rfl

theorem mapError {x : Except ε α} {f : ε → Error} (hf : ∀ e, f e ≠ .overflow) :
    InRange (x.mapError f) := by
  cases x with
  | ok a => exact ok a
  | error e => exact error (hf e)

theorem mapM {f : α → Except Error β} {l : List α} (h : ∀ a ∈ l, InRange (f a)) :
    InRange (l.mapM f) := by
  intro hmap
  obtain ⟨a, ha, hfa⟩ := exists_of_mapM_eq_error hmap
  exact h a ha hfa

theorem forM {f : α → Except Error Unit} {l : List α} (h : ∀ a ∈ l, InRange (f a)) :
    InRange (l.forM f) := by
  intro hfor
  obtain ⟨a, ha, hfa⟩ := exists_of_forM_eq_error hfor
  exact h a ha hfa

end InRange

/-! ## Reading -/

theorem inRange_parse (path : String) (b : Bytes) : InRange (Image.parse path b) := by
  unfold Image.parse
  split
  · exact .error (by simp)
  · exact .ok _

theorem inRange_load (s : Store) (path : String) : InRange (Image.load s path) := by
  unfold Image.load
  split
  · exact .error (by simp)
  · exact inRange_parse path _

theorem inRange_placeholder (image : Image) (d : Descriptor) : InRange (image.placeholder d) := by
  unfold Image.placeholder
  split
  · exact .error (by simp)
  · split
    · exact .ok _
    · exact .error (by simp)
  · exact .error (by simp)

theorem inRange_baseAddress (image : Image) : InRange image.baseAddress := by
  unfold Image.baseAddress
  split
  · exact .ok _
  · exact .error (by simp)

theorem inRange_ofPath (path : String) : InRange (FileFormat.ofPath path) := by
  unfold FileFormat.ofPath
  split
  all_goals first
    | exact .ok _
    | exact .error (by simp)

theorem inRange_classify (s : Store) (path : String) : InRange (classify s path) := by
  unfold classify
  split
  · exact (inRange_ofPath path).bind fun _ _ => .ok _
  · exact .ok _

theorem inRange_check (d : Descriptor) (path : String) (place : Nat) (found : Bytes) :
    InRange (d.check path place found) := by
  unfold Descriptor.check
  dsimp only
  split
  · exact .error (by simp)
  · split
    · exact .ok _
    · exact .error (by simp)

theorem inRange_fetch (s : Store) (path : String) : InRange (s.fetch path) :=
  .mapError (by simp)

theorem inRange_listing (s : Store) (path : String) : InRange (s.listing path) :=
  .bind (.mapError (by simp)) fun _ _ => .mapError (by simp)

namespace Store

/-- Whether the file at a path, if it is an ELF file, is one of 32 bits. -/
def NarrowAt (s : Store) (path : String) : Prop :=
  ∀ loc b, s.file path = .ok (loc, b) → Elf.IsNarrow b

/-- Whether all ELF files are of 32 bits. -/
def Narrow (s : Store) : Prop :=
  ∀ loc b, s.node? loc = some (.file b) → Elf.IsNarrow b

theorem Narrow.narrowAt {s : Store} (h : s.Narrow) (path : String) : s.NarrowAt path :=
  fun loc b hfile => h loc b (file_eq_ok_iff.1 hfile).2

theorem NarrowAt.image {s : Store} {path : String} {image : Image} (h : s.NarrowAt path)
    (hload : Image.load s path = .ok image) : image.Narrow := by
  unfold Image.load at hload
  split at hload
  · contradiction
  · next b hread =>
    obtain ⟨loc, hfile⟩ := exists_file_of_read hread
    exact Image.narrow_of_parse (h loc b hfile) hload

end Store

namespace Target

variable {t : Target} {s : Store} {path : String} {d : Descriptor} {id : BuildId}

theorem inRange_load (h : s.NarrowAt path) : InRange (Target.load s path d) := by
  unfold Target.load
  refine (FirmwareStamp.inRange_load s path).bind fun image hload => ?_
  refine (inRange_placeholder image d).bind fun address _ => ?_
  obtain ⟨id, hid⟩ := (h.image hload).exists_buildId address
  rw [hid]
  exact .ok _

theorem image_of_load (h : s.NarrowAt path) (hload : Target.load s path d = .ok (t, id)) :
    t.image.Narrow := by
  obtain ⟨loc, b, hfile, himage, -⟩ := load_eq_ok_iff.1 hload
  exact Image.narrow_of_parse (h loc b hfile) himage

theorem inRange_hexAddress (h : t.image.Narrow) (path : String) : InRange (t.hexAddress path) := by
  unfold hexAddress
  refine (h.inRange_loadAddress t.address).bind fun address _ => ?_
  split
  · exact .ok _
  · exact .error (by simp)

theorem inRange_rawOffset? (h : t.image.Narrow) (b : Bytes) : InRange (t.rawOffset? b) := by
  unfold rawOffset?
  refine (h.inRange_loadAddress t.address).bind fun address _ => ?_
  refine (inRange_baseAddress t.image).bind fun base _ => ?_
  split
  · exact .ok _
  · split
    · exact .ok _
    · exact .ok _

theorem inRange_readExecutable (h : s.NarrowAt path) : InRange (t.readExecutable s path) := by
  unfold readExecutable readImage
  refine (FirmwareStamp.inRange_load s path).bind fun image hload => ?_
  refine ((h.image hload).inRange_fileOffset t.address).bind fun offset _ => ?_
  exact (inRange_check _ _ _ _).bind fun _ _ => .ok _

theorem inRange_readIntelHex (h : t.image.Narrow) : InRange (t.readIntelHex s path) := by
  unfold readIntelHex
  refine (inRange_hexAddress h path).bind fun address _ => ?_
  refine (inRange_listing s path).bind fun listing _ => ?_
  exact (inRange_check _ _ _ _).bind fun _ _ => .ok _

theorem inRange_readRawBinary (h : t.image.Narrow) : InRange (t.readRawBinary s path) := by
  unfold readRawBinary
  refine (inRange_fetch s path).bind fun b _ => ?_
  refine (inRange_rawOffset? h b).bind fun offset? _ => ?_
  split
  · exact (inRange_check _ _ _ _).bind fun _ _ => .ok _
  · refine (h.inRange_loadAddress t.address).bind fun address _ => ?_
    refine (inRange_baseAddress t.image).bind fun base _ => ?_
    exact .error (by simp)

theorem inRange_read (h : t.image.Narrow) (hs : s.NarrowAt path) (format : FileFormat) :
    InRange (t.read format s path) := by
  cases format with
  | executable => exact inRange_readExecutable hs
  | intelHex => exact inRange_readIntelHex h
  | rawBinary => exact inRange_readRawBinary h

/-- **Reading** from 32-bit files, by a 32-bit image. -/
theorem inRange_readId (h : t.image.Narrow) (hs : s.NarrowAt path) : InRange (t.readId s path) := by
  unfold readId
  refine (inRange_ofPath path).bind fun format _ => ?_
  exact (inRange_read h hs format).bind fun _ _ => .ok _

theorem inRange_checkId (h : t.image.Narrow) (hs : s.NarrowAt path) :
    InRange (t.checkId s path id) := by
  unfold checkId
  refine (inRange_ofPath path).bind fun format _ => ?_
  refine (inRange_read h hs format).bind ?_
  rintro ⟨place, found⟩ _
  dsimp only
  split
  · exact .error (by simp)
  · exact .ok _

theorem inRange_passes (h : t.image.Narrow) {file : String × Option FileFormat}
    (hs : s.NarrowAt file.1) : InRange (t.passes id s file) := by
  obtain ⟨path, _ | format⟩ := file
  · exact .ok _
  · unfold passes FileFormat.excuse
    dsimp only
    split
    · exact .ok _
    · exact inRange_checkId h hs

end Target

theorem inRange_verdict {s : Store} (hs : s.Narrow) (path : String) (siblings : List String)
    (d : Descriptor) : InRange (verdict path siblings d s) := by
  unfold verdict
  refine (Target.inRange_load (hs.narrowAt path)).bind ?_
  rintro ⟨t, id⟩ hload
  have himage := Target.image_of_load (hs.narrowAt path) hload
  refine (Target.inRange_readExecutable (hs.narrowAt path)).bind ?_
  rintro ⟨place, found⟩ _
  dsimp only
  split
  · exact .error (by simp)
  · refine (InRange.mapM fun p _ => inRange_classify s p).bind fun files _ => ?_
    refine (InRange.forM fun file _ => ?_).bind fun _ _ => .ok _
    exact Target.inRange_passes himage (hs.narrowAt file.1)

end FirmwareStamp
