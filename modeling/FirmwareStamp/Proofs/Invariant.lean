import FirmwareStamp.Proofs.Checks
import FirmwareStamp.Proofs.OneFile
import FirmwareStamp.Proofs.Siblings

/-!
# What sessions maintain

A property of the store is maintained by a session if it holds after it, however the session ends,
whenever it held before.  It is enough to look at the contents a file can be given: whatever target
stamps it, these are the old contents with an ID in the stead of the value bytes of a placeholder
(`FileFormat.Rewrites`), and what every such rewriting of a file leaves true (`KeptAt`) a whole run
leaves true:

    KeptAt P d.magic path .executable → (∀ p ∈ siblings, KeptAt P d.magic p …) →
      (stamp path siblings d).Maintains P                                        (maintains_stamp)
-/

namespace FirmwareStamp

/-- Whether contents `new` are contents `old` of a file of a format with an ID written over the
value bytes of some placeholder. -/
def FileFormat.Rewrites (format : FileFormat) (path : String) (m : Magic) (id : BuildId)
    (old new : Bytes) : Prop :=
  match format with
  | .intelHex => ∃ before after address text, listingOf path old = .ok before ∧
      before.write? address id.bytes = some after ∧ after.render = .ok text ∧
      new = Bytes.ofText text
  | .executable | .rawBinary => ∃ offset, ∃ found : BuildId,
      old.slice offset placeholderLength = m.bytes ++ found.bytes ∧
      new = old.overwrite (offset + Magic.length) id.bytes

/-- Whether a property of the store outlives every rewriting of the file at a path, taken for a
file of a format. -/
def Store.KeptAt (P : Store → Prop) (m : Magic) (path : String) (format : FileFormat) : Prop :=
  ∀ s loc id old new, P s → s.file path = .ok (loc, old) → format.Rewrites path m id old new →
    P (s.replace loc new)

/-! ## Sessions -/

namespace Session

variable {α β : Type} {x : Session α} {P : Store → Prop}

/-- Whether a property of the store that holds before a session holds after it, even if the session
fails. -/
structure Maintains (x : Session α) (P : Store → Prop) : Prop where
  of_ok : ∀ {w a w'}, P w.store → x.run w = .ok a w' → P w'.store
  of_error : ∀ {w e w'}, P w.store → x.run w = .error e w' → P w'.store

theorem maintains_pure (a : α) : (pure a : Session α).Maintains P where
  of_ok h hrun := by
    injection hrun with _ hw
    rwa [← hw]
  of_error _ hrun := by contradiction

namespace Maintains

theorem bind {f : α → Session β} (hx : x.Maintains P) (hf : ∀ a, (f a).Maintains P) :
    (x >>= f).Maintains P where
  of_ok h hrun := by
    obtain ⟨a, u, ha, hb⟩ := bind_eq_ok_iff.1 hrun
    exact (hf a).of_ok (hx.of_ok h ha) hb
  of_error h hrun := by
    rcases bind_eq_error_iff.1 hrun with ha | ⟨a, u, ha, hb⟩
    · exact hx.of_error h ha
    · exact (hf a).of_error (hx.of_ok h ha) hb

theorem store_bind {f : Store → Session β} (hf : ∀ s, (f s).Maintains P) :
    (store >>= f).Maintains P where
  of_ok h hrun := (hf _).of_ok h hrun
  of_error h hrun := (hf _).of_error h hrun

/-- What a computation is followed by may count on what the computation gives. -/
theorem lift_bind {r : Except Error α} {f : α → Session β}
    (hf : ∀ a, r = .ok a → (f a).Maintains P) : (lift r >>= f).Maintains P where
  of_ok h hrun := by
    obtain ⟨a, ha, hb⟩ := lift_bind_eq_ok_iff.1 hrun
    exact (hf a ha).of_ok h hb
  of_error h hrun := by
    rcases lift_bind_eq_error_iff.1 hrun with ⟨-, rfl⟩ | ⟨a, ha, hb⟩
    · exact h
    · exact (hf a ha).of_error h hb

end Maintains

theorem maintains_mapM {f : α → Session β} {l : List α} (h : ∀ a ∈ l, (f a).Maintains P) :
    (l.mapM f).Maintains P := by
  induction l with
  | nil => exact maintains_pure []
  | cons a l ih =>
    rw [List.mapM_cons]
    refine (h a List.mem_cons_self).bind fun b => ?_
    exact (ih fun x hx => h x (List.mem_cons_of_mem _ hx)).bind fun rest => maintains_pure _

/-- A session that only checks maintains everything. -/
theorem maintains_of_endsAs (h : ∀ w, ∃ r, x.EndsAs w r) : x.Maintains P where
  of_ok {w _ _} hP hrun := by
    obtain ⟨r, notices, hend⟩ := h w
    rw [hrun] at hend
    cases r with
    | ok b =>
      injection hend with _ hend
      rwa [hend]
    | error e => contradiction
  of_error {w _ _} hP hrun := by
    obtain ⟨r, notices, hend⟩ := h w
    rw [hrun] at hend
    cases r with
    | ok b => contradiction
    | error e =>
      injection hend with _ hend
      rwa [hend]

/-- A session that makes an edit of a file maintains what the edit leaves true. -/
theorem Edits.maintains {x : Session Outcome} {path : String}
    {edit : Bytes → Except Error (Option Edit)} (hx : x.Edits path edit)
    (hedit : ∀ s loc b e, P s → s.file path = .ok (loc, b) → edit b = .ok (some e) →
      P (s.replace loc e.contents)) : x.Maintains P where
  of_ok h hrun := by
    obtain ⟨loc, b, e?, hfile, he, -, hstore⟩ := hx.of_ok hrun
    rw [hstore]
    cases e? with
    | none => exact h
    | some e => exact hedit _ loc b e h hfile he
  of_error h hrun := by rwa [hx.store_of_error hrun]

end Session

/-! ## Stamping -/

namespace Target

variable {t : Target} {format : FileFormat} {path : String} {id : BuildId} {b : Bytes} {e : Edit}
  {P : Store → Prop}

theorem rewrites_of_editImage (h : t.editImage id b = .ok e) :
    FileFormat.executable.Rewrites path t.descriptor.magic id b e.contents := by
  obtain ⟨offset, old, -, -, hslice, rfl⟩ := editImage_eq_ok_iff.1 h
  exact ⟨offset, old, hslice, rfl⟩

theorem rewrites_of_edit (h : t.edit format path id b = .ok (some e)) :
    format.Rewrites path t.descriptor.magic id b e.contents := by
  cases format with
  | executable =>
    obtain ⟨_, offset, old, -, -, -, hslice, rfl⟩ := edit_executable_eq_some_iff.1 h
    exact ⟨offset, old, hslice, rfl⟩
  | intelHex =>
    obtain ⟨place, _, before, after, text, -, hbefore, hwrite, hrender, rfl⟩ :=
      edit_intelHex_eq_some_iff_readBytes.1 h
    exact ⟨before, after, place, text, hbefore, hwrite, hrender, rfl⟩
  | rawBinary =>
    obtain ⟨offset, hoffset, -, rfl⟩ := editRawBinary_eq_some_iff.1 h
    obtain ⟨old, hslice⟩ := Magic.standsAt_iff.1 (standsAt_of_rawOffset? hoffset)
    exact ⟨offset, old, hslice, rfl⟩

theorem maintains_stampImage (id : BuildId)
    (h : Store.KeptAt P t.descriptor.magic t.image.path .executable) :
    (t.stampImage id).Maintains P := by
  refine (edits_stampImage t id).maintains ?_
  intro s loc b e hP hfile hedit
  obtain ⟨_, he, ⟨⟩⟩ := map_eq_ok.1 hedit
  exact h s loc id b _ hP hfile (rewrites_of_editImage he)

theorem maintains_stampFormat (id : BuildId)
    (h : Store.KeptAt P t.descriptor.magic path format) :
    (t.stamp format path id).Maintains P := by
  refine (edits_stamp t format path id).maintains ?_
  intro s loc b e hP hfile hedit
  exact h s loc id b _ hP hfile (rewrites_of_edit hedit)

theorem maintains_stampFile (id : BuildId) {file : String × Option FileFormat}
    (h : ∀ format, file.2 = some format → Store.KeptAt P t.descriptor.magic file.1 format) :
    (t.stampFile id file).Maintains P := by
  obtain ⟨path, _ | format⟩ := file
  · exact Session.maintains_pure _
  · exact (maintains_stampFormat id (h format rfl)).bind fun _ => Session.maintains_pure _

end Target

/-- **A run maintains** what every rewriting of its files leaves true. -/
theorem maintains_stamp {P : Store → Prop} {path : String} {siblings : List String} {d : Descriptor}
    (hpath : Store.KeptAt P d.magic path .executable)
    (hsiblings : ∀ p ∈ siblings, ∀ format, FileFormat.ofPath p = .ok format →
      Store.KeptAt P d.magic p format) : (stamp path siblings d).Maintains P := by
  unfold stamp
  refine .store_bind fun s => .lift_bind ?_
  rintro ⟨t, id⟩ hload
  refine .lift_bind fun files hfiles => ?_
  obtain ⟨_, _, -, -, -, -, rfl⟩ := Target.load_eq_ok_iff.1 hload
  refine (Target.maintains_stampImage id (by rwa [Target.path_of_load hload])).bind fun first => ?_
  refine (Session.maintains_mapM fun file hfile => ?_).bind fun rest => Session.maintains_pure _
  refine Target.maintains_stampFile id fun format hformat => ?_
  exact hsiblings _ (classify_of_mem hfiles hfile).1 _ (ofPath_of_classify hfiles hfile hformat)

end FirmwareStamp
