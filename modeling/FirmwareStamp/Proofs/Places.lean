import FirmwareStamp.Proofs.History

/-!
# Places are words

The value bytes stand as far behind the start of a placeholder as the magic is long.  That sum is
made without a look at its range, but only where a whole placeholder was found, in a file that ends
behind it.  A run tells of each place before it writes there, and reading returns it; so all places
a run tells of are words, however it ends, and so are those that are read:

    s.FilesFit → (stamp path siblings d).EndsIn ⟨s, notices⟩ (·.PlacesFit notices)
                                                                                 (endsIn_stamp)
    b.length < Elf.wordLimit → t.read format s path = .ok (place, found) → place < Elf.wordLimit
                                                                             (place_lt_of_read)

A raw binary is stamped as it is when its turn comes, and then it is as long as it was at first.
-/

namespace FirmwareStamp

/-! ## Sessions -/

namespace Session

variable {α β : Type} {x : Session α} {w : Workspace} {P Q : Workspace → Prop}

/-- Whether a session leaves a workspace with a property, whether or not it fails. -/
structure EndsIn (x : Session α) (w : Workspace) (P : Workspace → Prop) : Prop where
  of_ok : ∀ {a w'}, x.run w = .ok a w' → P w'
  of_error : ∀ {e w'}, x.run w = .error e w' → P w'

theorem Maintains.endsIn {P : Store → Prop} (hx : x.Maintains P) (h : P w.store) :
    x.EndsIn w fun w' => P w'.store :=
  ⟨hx.of_ok h, hx.of_error h⟩

namespace EndsIn

theorem pure (h : P w) (a : α) : (pure a : Session α).EndsIn w P where
  of_ok hrun := by
    cases hrun
    exact h
  of_error hrun := by contradiction

theorem throw (h : P w) (e : Error) : (throw e : Session α).EndsIn w P where
  of_ok hrun := by cases hrun
  of_error hrun := by
    cases hrun
    exact h

theorem mono (hx : x.EndsIn w P) (h : ∀ w', P w' → Q w') : x.EndsIn w Q :=
  ⟨fun hrun => h _ (hx.of_ok hrun), fun hrun => h _ (hx.of_error hrun)⟩

theorem and (hx : x.EndsIn w P) (hx' : x.EndsIn w Q) : x.EndsIn w fun w' => P w' ∧ Q w' :=
  ⟨fun hrun => ⟨hx.of_ok hrun, hx'.of_ok hrun⟩, fun hrun => ⟨hx.of_error hrun, hx'.of_error hrun⟩⟩

theorem bind {f : α → Session β} (hx : x.EndsIn w P)
    (hf : ∀ a u, P u → (f a).EndsIn u P) : (x >>= f).EndsIn w P where
  of_ok hrun := by
    obtain ⟨a, u, ha, hb⟩ := bind_eq_ok_iff.1 hrun
    exact (hf a u (hx.of_ok ha)).of_ok hb
  of_error hrun := by
    rcases bind_eq_error_iff.1 hrun with ha | ⟨a, u, ha, hb⟩
    · exact hx.of_error ha
    · exact (hf a u (hx.of_ok ha)).of_error hb

theorem store_bind {f : Store → Session β} (hf : (f w.store).EndsIn w P) :
    (store >>= f).EndsIn w P :=
  ⟨hf.of_ok, hf.of_error⟩

theorem lift_bind {r : Except Error α} {f : α → Session β} (h : P w)
    (hf : ∀ a, r = .ok a → (f a).EndsIn w P) : (lift r >>= f).EndsIn w P where
  of_ok hrun := by
    obtain ⟨a, ha, hb⟩ := lift_bind_eq_ok_iff.1 hrun
    exact (hf a ha).of_ok hb
  of_error hrun := by
    rcases lift_bind_eq_error_iff.1 hrun with ⟨-, rfl⟩ | ⟨a, ha, hb⟩
    · exact h
    · exact (hf a ha).of_error hb

theorem tell_bind {notice : Notice} {f : Unit → Session β}
    (hf : (f ()).EndsIn ⟨w.store, w.notices ++ [notice]⟩ P) : (tell notice >>= f).EndsIn w P :=
  ⟨hf.of_ok, hf.of_error⟩

theorem commit_bind {path : String} {r : Except Store.Fault Store} {f : Unit → Session β}
    (h : P w) (hf : ∀ s, (f ()).EndsIn ⟨s, w.notices⟩ P) : (commit path r >>= f).EndsIn w P := by
  cases r with
  | ok s => exact ⟨(hf s).of_ok, (hf s).of_error⟩
  | error fault => exact throw h (.io path fault)

/-- Work on a list ends as each of its steps does. -/
theorem mapM {f : α → Session β} {l : List α} (h : P w)
    (hf : ∀ a ∈ l, ∀ u, P u → (f a).EndsIn u P) : (l.mapM f).EndsIn w P := by
  induction l generalizing w with
  | nil => exact pure h []
  | cons a l ih =>
    rw [List.mapM_cons]
    refine (hf a List.mem_cons_self w h).bind fun b u hu => ?_
    refine (ih hu fun x hx => hf x (List.mem_cons_of_mem _ hx)).bind fun rest v hv => ?_
    exact pure hv _

end EndsIn

end Session

/-! ## Places -/

/-- Whether the place that a notice tells of, if it tells of one, is a word. -/
def Notice.PlaceFits : Notice → Prop
  | stamping _ _ _ place => place < Elf.wordLimit
  | leftAlone _ | notChecked _ => True

/-- Whether the notices of a workspace, other than those given, tell of places that are words. -/
def Workspace.PlacesFit (given : List Notice) (w : Workspace) : Prop :=
  ∀ notice ∈ w.notices, notice ∈ given ∨ notice.PlaceFits

theorem Workspace.PlacesFit.tell {given : List Notice} {w : Workspace} (h : w.PlacesFit given)
    (notice : Notice) (hnotice : notice.PlaceFits) :
    PlacesFit given ⟨w.store, w.notices ++ [notice]⟩ := by
  intro other hother
  rcases List.mem_append.1 hother with hother | hother
  · exact h other hother
  · rw [List.mem_singleton.1 hother]
    exact .inr hnotice

/-- What is written is no matter. -/
theorem Workspace.PlacesFit.commit {given : List Notice} {w : Workspace} (h : w.PlacesFit given)
    (s : Store) : PlacesFit given ⟨s, w.notices⟩ := h

namespace Store

variable {s : Store}

/-- Whether the lengths of all files are words. -/
def FilesFit (s : Store) : Prop :=
  ∀ loc b, s.node? loc = some (.file b) → b.length < Elf.wordLimit

/-- Whether the lengths of all raw binaries are words. -/
def RawFit (s : Store) : Prop :=
  ∀ p loc b, FileFormat.ofPath p = .ok .rawBinary → s.file p = .ok (loc, b) →
    b.length < Elf.wordLimit

theorem FilesFit.rawFit (h : s.FilesFit) : s.RawFit :=
  fun _ loc b _ hfile => h loc b (file_eq_ok_iff.1 hfile).2

/-- Only Intel HEX files can become longer, and they are no raw binaries. -/
theorem keptAt_rawFit {m : Magic} {path : String} {format : FileFormat}
    (hformat : format = .intelHex → FileFormat.ofPath path = .ok .intelHex) :
    KeptAt RawFit m path format := by
  intro s loc id old new hfit hfile hrewrites p l b hp hb
  obtain ⟨hlocate, hnode⟩ := file_eq_ok_iff.1 hfile
  obtain ⟨hplace, hcontents⟩ := file_eq_ok_iff.1 hb
  rw [← (sameTree_replace hnode new).locate_eq] at hplace
  rw [node?_replace hnode] at hcontents
  by_cases hl : l = loc
  · subst hl
    rw [if_pos rfl] at hcontents
    cases hcontents
    have hlength : old.length < Elf.wordLimit :=
      hfit p l old hp (file_eq_ok_iff.2 ⟨hplace, hnode⟩)
    have hkept := FileFormat.keeps_of_rewrites hrewrites
    cases format with
    | intelHex => cases ofPath_eq_of_locate hplace hlocate hp (hformat rfl)
    | executable => exact Nat.lt_of_le_of_lt (Nat.le_of_eq hkept) hlength
    | rawBinary => exact Nat.lt_of_le_of_lt (Nat.le_of_eq hkept) hlength
  · rw [if_neg hl] at hcontents
    exact hfit p l b hp (file_eq_ok_iff.2 ⟨hplace, hcontents⟩)

theorem lt_offsetLimit_of_readAt {path : String} {offset length : Nat} {b : Bytes}
    (h : s.readAt path offset length = .ok b) : offset + length < offsetLimit := by
  obtain ⟨_, _, h⟩ := bind_eq_ok.1 h
  dsimp only at h
  split at h
  · assumption
  · contradiction

/-- The place behind a magic where a placeholder's bytes are read at an offset of a file. -/
theorem place_lt_of_readAt {path : String} {offset : Nat} {b : Bytes} {f : Fault → Error}
    (h : (s.readAt path offset placeholderLength).mapError f = .ok b) :
    offset + Magic.length < Elf.wordLimit := by
  cases hread : s.readAt path offset placeholderLength with
  | error fault =>
    rw [hread] at h
    contradiction
  | ok found =>
    have hlimit := lt_offsetLimit_of_readAt hread
    have hhalf : offsetLimit ≤ Elf.wordLimit := by decide
    unfold placeholderLength at hlimit
    omega

end Store

/-- The place behind a magic in a file that holds the whole placeholder. -/
theorem Magic.place_lt_of_slice {m : Magic} {b : Bytes} {offset : Nat} {id : BuildId}
    (h : b.slice offset placeholderLength = m.bytes ++ id.bytes)
    (hlength : b.length < Elf.wordLimit) : offset + Magic.length < Elf.wordLimit := by
  have hle := le_length_of_slice h
  unfold placeholderLength at hle
  omega

theorem IntelHex.addressLimit_le_wordLimit : addressLimit ≤ Elf.wordLimit := by
  decide

namespace Target

variable {t : Target} {w : Workspace} {given : List Notice} {path : String}

/-! ## Stamping -/

theorem endsIn_stampImage (t : Target) (id : BuildId) (h : w.PlacesFit given) :
    (t.stampImage id).EndsIn w (·.PlacesFit given) := by
  unfold stampImage
  refine .lift_bind h fun offset _ => .store_bind (.lift_bind h fun found hfound => ?_)
  refine .lift_bind h fun _ _ => ?_
  have hplace := Store.place_lt_of_readAt hfound
  have htold := h.tell (.stamping .executable t.image.path id _) hplace
  exact .tell_bind (.commit_bind htold fun s => .pure (htold.commit s) _)

theorem endsIn_stampIntelHex (t : Target) (path : String) (id : BuildId) (h : w.PlacesFit given) :
    (t.stampIntelHex path id).EndsIn w (·.PlacesFit given) := by
  unfold stampIntelHex
  refine .lift_bind h fun address _ => .store_bind (.lift_bind h fun listing _ => ?_)
  refine .lift_bind h fun _ _ => ?_
  dsimp only
  split
  · exact .throw h _
  · next hlimit =>
    have hplace : address + Magic.length < Elf.wordLimit :=
      Nat.lt_of_lt_of_le (by omega) IntelHex.addressLimit_le_wordLimit
    have htold := h.tell (.stamping .intelHex path id _) hplace
    refine .tell_bind ?_
    split
    · exact .throw htold _
    · refine .lift_bind htold fun text _ => .commit_bind htold fun s => ?_
      exact .pure (htold.commit s) _

theorem endsIn_stampRawBinary (t : Target) (id : BuildId) (h : w.PlacesFit given)
    (hlength : ∀ loc b, w.store.file path = .ok (loc, b) → b.length < Elf.wordLimit) :
    (t.stampRawBinary path id).EndsIn w (·.PlacesFit given) := by
  unfold stampRawBinary
  refine .store_bind (.lift_bind h fun b hfetch => .lift_bind h fun offset? hoffset => ?_)
  split
  · have htold := h.tell (.leftAlone path) trivial
    exact .tell_bind (.pure htold _)
  · next offset =>
    obtain ⟨loc, hfile⟩ := Store.exists_file_of_fetch hfetch
    obtain ⟨old, hslice⟩ := Magic.standsAt_iff.1 (standsAt_of_rawOffset? hoffset)
    have hplace := Magic.place_lt_of_slice hslice (hlength loc b hfile)
    have htold := h.tell (.stamping .rawBinary path id _) hplace
    refine .tell_bind (.commit_bind htold fun s => .store_bind ?_)
    have hwritten := htold.commit s
    refine .lift_bind hwritten fun written _ => .lift_bind hwritten fun found _ => ?_
    split
    · exact .throw hwritten _
    · exact .pure hwritten _

theorem endsIn_stamp (t : Target) {format : FileFormat} (id : BuildId)
    (hformat : FileFormat.ofPath path = .ok format) (hraw : w.store.RawFit)
    (h : w.PlacesFit given) : (t.stamp format path id).EndsIn w (·.PlacesFit given) := by
  cases format with
  | executable => exact .store_bind (.lift_bind h fun _ _ => endsIn_stampImage _ id h)
  | intelHex => exact endsIn_stampIntelHex t path id h
  | rawBinary => exact endsIn_stampRawBinary t id h fun loc b => hraw path loc b hformat

/-- **One file.**  Stamping it tells of no place but words, and the lengths of raw binaries stay
words. -/
theorem endsIn_stampFile (t : Target) (id : BuildId) {file : String × Option FileFormat}
    (hformat : ∀ format, file.2 = some format → FileFormat.ofPath file.1 = .ok format)
    (h : w.store.RawFit ∧ w.PlacesFit given) :
    (t.stampFile id file).EndsIn w fun w' => w'.store.RawFit ∧ w'.PlacesFit given := by
  refine .and ?_ ?_
  · refine Session.Maintains.endsIn (maintains_stampFile id fun format hfile => ?_) h.1
    exact Store.keptAt_rawFit fun hhex => hhex ▸ hformat format hfile
  · obtain ⟨path, _ | format⟩ := file
    · exact .pure h.2 _
    · exact (endsIn_stamp t id (hformat format rfl) h.1 h.2).bind fun _ _ hu => .pure hu _

/-! ## Reading -/

/-- The place that is read in a file whose length is a word. -/
theorem place_lt_of_read {format : FileFormat} {s : Store} {place : Nat} {found : BuildId}
    (hlength : ∀ loc b, s.file path = .ok (loc, b) → b.length < Elf.wordLimit)
    (h : t.read format s path = .ok (place, found)) : place < Elf.wordLimit := by
  obtain ⟨loc, b, hfile⟩ := exists_file_of_read h
  rw [read_eq_readBytes format hfile] at h
  cases format with
  | executable =>
    obtain ⟨_, offset, -, -, hslice, rfl⟩ := readBytes_executable_eq_ok_iff.1 h
    exact Magic.place_lt_of_slice hslice (hlength loc b hfile)
  | intelHex =>
    obtain ⟨address, listing, -, -, hholds, rfl⟩ := readBytes_intelHex_eq_ok_iff.1 h
    exact Nat.lt_of_lt_of_le (writable_of_holds hholds found).1 IntelHex.addressLimit_le_wordLimit
  | rawBinary =>
    obtain ⟨offset, -, hslice, rfl⟩ := readBytes_rawBinary_eq_ok_iff.1 h
    exact Magic.place_lt_of_slice hslice (hlength loc b hfile)

end Target

/-- **A run** tells of no place but words, however it ends. -/
theorem endsIn_stamp {s : Store} (hs : s.FilesFit) (notices : List Notice) (path : String)
    (siblings : List String) (d : Descriptor) :
    (stamp path siblings d).EndsIn ⟨s, notices⟩ (·.PlacesFit notices) := by
  have hgiven : Workspace.PlacesFit notices ⟨s, notices⟩ := fun _ h => .inl h
  unfold stamp
  refine .store_bind (.lift_bind hgiven ?_)
  rintro ⟨t, id⟩ _
  refine .lift_bind hgiven fun files hfiles => ?_
  -- a raw binary that is reached later has to be as short as it is now
  have hfirst : (t.stampImage id).EndsIn ⟨s, notices⟩
      fun w => w.store.RawFit ∧ w.PlacesFit notices := by
    have hkept := t.maintains_stampImage id (Store.keptAt_rawFit nofun)
    exact (hkept.endsIn hs.rawFit).and (t.endsIn_stampImage id hgiven)
  refine Session.EndsIn.mono (hfirst.bind fun first u hu => ?_) fun w h => h.2
  have hround : (files.mapM (t.stampFile id)).EndsIn u
      fun w => w.store.RawFit ∧ w.PlacesFit notices :=
    .mapM hu fun file hfile v hv =>
      t.endsIn_stampFile id (fun _ => ofPath_of_classify hfiles hfile) hv
  exact hround.bind fun rest v hv => .pure hv _

end FirmwareStamp
