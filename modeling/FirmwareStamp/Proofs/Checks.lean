import FirmwareStamp.Proofs.Session
import FirmwareStamp.Verify

/-!
# Verifying changes nothing

A session that only checks leaves notices and changes no file, and how it ends depends on the store
alone.  Verifying is such a session: it ends as `verdict` does (`endsAs_verify`).
-/

namespace FirmwareStamp

/-! ## Lists -/

section

variable {ε α : Type}

theorem forM_eq_ok_iff {f : α → Except ε Unit} {l : List α} :
    l.forM f = .ok () ↔ ∀ a ∈ l, f a = .ok () := by
  induction l with
  | nil => simp
  | cons a l ih =>
    show (f a >>= fun _ => l.forM f) = .ok () ↔ _
    rw [bind_eq_ok, List.forall_mem_cons, ← ih]
    constructor
    · rintro ⟨⟨⟩, ha, hl⟩
      exact ⟨ha, hl⟩
    · rintro ⟨ha, hl⟩
      exact ⟨(), ha, hl⟩

/-- A round of checks that fails fails with what one of them says. -/
theorem exists_of_forM_eq_error {f : α → Except ε Unit} {l : List α} {e : ε}
    (h : l.forM f = .error e) : ∃ a ∈ l, f a = .error e := by
  induction l with
  | nil => contradiction
  | cons a l ih =>
    replace h : (f a >>= fun _ => l.forM f) = .error e := h
    cases ha : f a with
    | error e' =>
      rw [ha, error_bind] at h
      injection h with h
      exact ⟨a, List.mem_cons_self, by rw [ha, h]⟩
    | ok u =>
      rw [ha, ok_bind] at h
      obtain ⟨x, hx, hfx⟩ := ih h
      exact ⟨x, List.mem_cons_of_mem _ hx, hfx⟩

end

/-! ## Sessions that only check -/

namespace Session

variable {α β : Type} {x : Session α} {r : Except Error α} {w w' : Workspace} {a : α} {e : Error}

/-- Whether a session ends as a computation does, and changes no file. -/
def EndsAs (x : Session α) (w : Workspace) (r : Except Error α) : Prop :=
  ∃ notices, x.run w = match r with
    | .ok a => .ok a ⟨w.store, notices⟩
    | .error e => .error e ⟨w.store, notices⟩

theorem endsAs_ok_iff : x.EndsAs w (.ok a) ↔ ∃ w', x.run w = .ok a w' ∧ w'.store = w.store := by
  constructor
  · rintro ⟨notices, hrun⟩
    exact ⟨_, hrun, rfl⟩
  · rintro ⟨⟨_, notices⟩, hrun, rfl⟩
    exact ⟨notices, hrun⟩

theorem endsAs_error_iff :
    x.EndsAs w (.error e) ↔ ∃ w', x.run w = .error e w' ∧ w'.store = w.store := by
  constructor
  · rintro ⟨notices, hrun⟩
    exact ⟨_, hrun, rfl⟩
  · rintro ⟨⟨_, notices⟩, hrun, rfl⟩
    exact ⟨notices, hrun⟩

theorem endsAs_pure (a : α) : (pure a : Session α).EndsAs w (.ok a) := ⟨w.notices, rfl⟩

theorem endsAs_lift (r : Except Error α) : (lift r).EndsAs w r := by
  cases r <;> exact ⟨w.notices, rfl⟩

namespace EndsAs

variable {f : α → Session β} {g : α → Except Error β}

theorem eq_of_ok (h : x.EndsAs w r) (hrun : x.run w = .ok a w') : r = .ok a := by
  cases r with
  | ok b =>
    obtain ⟨u, hb, -⟩ := endsAs_ok_iff.1 h
    rw [hrun] at hb
    injection hb with hb
    rw [hb]
  | error e =>
    obtain ⟨u, he, -⟩ := endsAs_error_iff.1 h
    rw [hrun] at he
    contradiction

theorem store_bind {f : Store → Session β} {r : Except Error β} (h : (f w.store).EndsAs w r) :
    (store >>= f).EndsAs w r := h

theorem bind (hx : x.EndsAs w r) (hf : ∀ a u, u.store = w.store → (f a).EndsAs u (g a)) :
    (x >>= f).EndsAs w (r >>= g) := by
  obtain ⟨notices, hrun⟩ := hx
  unfold EndsAs
  rw [EStateM.run_bind, hrun]
  cases r with
  | ok a => exact hf a ⟨w.store, notices⟩ rfl
  | error e => exact ⟨notices, rfl⟩

theorem lift_bind (hf : ∀ a, (f a).EndsAs w (g a)) : (lift r >>= f).EndsAs w (r >>= g) := by
  cases r with
  | ok a => exact hf a
  | error e => exact ⟨w.notices, rfl⟩

end EndsAs

/-- A round of sessions that only check is one. -/
theorem endsAs_forM {f : α → Session Unit} {g : α → Except Error Unit}
    (h : ∀ a u, u.store = w.store → (f a).EndsAs u (g a)) (l : List α) :
    (l.forM f).EndsAs w (l.forM g) := by
  induction l generalizing w with
  | nil => exact endsAs_pure ()
  | cons a l ih =>
    refine (h a w rfl).bind fun _ u hu => ih fun b v hv => ?_
    exact h b v (hv.trans hu)

end Session

/-! ## Verifying -/

/-- What the check of a file of a format comes to: a raw binary without a placeholder passes. -/
def FileFormat.excuse (format : FileFormat) (result : Except Error Unit) : Except Error Unit :=
  match format, result with
  | .rawBinary, .error (.headerMismatch ..) => .ok ()
  | _, _ => result

/-- Whether a file of the build passes, if there is one. -/
def Target.passes (t : Target) (id : BuildId) (s : Store) :
    String × Option FileFormat → Except Error Unit
  | (_, none) => .ok ()
  | (path, some format) => format.excuse (t.checkId s path id)

/-- The ID of an image, if its own file and every other file of its build carry it. -/
def verdict (path : String) (siblings : List String) (d : Descriptor) (s : Store) :
    Except Error BuildId := do
  let (target, id) ← Target.load s path d
  let (place, found) ← target.readExecutable s path
  if found ≠ id then throw (.idMismatch path place)
  let files ← siblings.mapM (classify s)
  files.forM (target.passes id s)
  return id

theorem Target.endsAs_verifyFile (t : Target) (id : BuildId) (file : String × Option FileFormat)
    (w : Workspace) : (t.verifyFile id file).EndsAs w (t.passes id w.store file) := by
  obtain ⟨path, _ | format⟩ := file
  · exact Session.endsAs_pure ()
  · refine Session.EndsAs.store_bind ?_
    unfold passes
    dsimp only
    generalize t.checkId w.store path id = result
    cases format with
    | rawBinary =>
      cases result with
      | ok _ => exact Session.endsAs_pure ()
      | error e => cases e <;> exact ⟨_, rfl⟩
    | _ => exact Session.endsAs_lift _

/-- **Verifying only checks.**  It ends as the verdict on the store does, and leaves all files as
they are. -/
theorem endsAs_verify (path : String) (siblings : List String) (d : Descriptor) (w : Workspace) :
    (verify path siblings d).EndsAs w (verdict path siblings d w.store) := by
  unfold verify verdict
  refine .store_bind (.lift_bind ?_)
  rintro ⟨t, id⟩
  refine .lift_bind ?_
  rintro ⟨place, found⟩
  dsimp only
  by_cases h : found = id
  · rw [if_neg (by simpa using h), if_neg (by simpa using h)]
    refine .lift_bind fun files => ?_
    refine (Session.endsAs_forM ?_ files).bind fun _ u _ => Session.endsAs_pure id
    intro file u hu
    rw [← hu]
    exact t.endsAs_verifyFile id file u
  · rw [if_pos h, if_pos h]
    exact ⟨w.notices, rfl⟩

end FirmwareStamp
