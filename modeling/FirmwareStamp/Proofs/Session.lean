import FirmwareStamp.Workspace
import Mathlib.Data.List.Forall2

/-!
# Computations and sessions run step by step

How one that is put together of two ends, in terms of how the two end:

    x >>= f = .ok b ↔ ∃ a, x = .ok a ∧ f a = .ok b                                    (bind_eq_ok)
    (x >>= f).run w = .ok b w' ↔ ∃ a u, x.run w = .ok a u ∧ (f a).run u = .ok b w'
                                                                        (Session.bind_eq_ok_iff)

Work on a list that fails does so at one element, after all before it succeeded
(`Session.mapM_eq_error`).
-/

namespace FirmwareStamp

/-! ## Computations -/

instance decidableEqExcept {ε α : Type} [DecidableEq ε] [DecidableEq α] :
    DecidableEq (Except ε α)
  | .ok a, .ok b => decidable_of_iff (a = b) (by rw [Except.ok.injEq])
  | .error a, .error b => decidable_of_iff (a = b) (by rw [Except.error.injEq])
  | .ok _, .error _ => .isFalse (by simp)
  | .error _, .ok _ => .isFalse (by simp)

section

variable {ε δ α β : Type}

@[simp] theorem ok_bind (a : α) (f : α → Except ε β) : (Except.ok a >>= f) = f a := rfl

@[simp] theorem error_bind (e : ε) (f : α → Except ε β) : (Except.error e >>= f) = .error e := rfl

@[simp] theorem mapError_ok (f : ε → δ) (a : α) :
    Except.mapError f (.ok a : Except ε α) = .ok a := rfl

@[simp] theorem pure_eq_ok (a : α) : (pure a : Except ε α) = .ok a := rfl

@[simp] theorem throw_eq_error (e : ε) : (throw e : Except ε α) = .error e := rfl

theorem bind_eq_ok {x : Except ε α} {f : α → Except ε β} {b : β} :
    x >>= f = .ok b ↔ ∃ a, x = .ok a ∧ f a = .ok b := by
  cases x with
  | ok a => simp
  | error e => simp

theorem map_eq_ok {x : Except ε α} {f : α → β} {b : β} :
    f <$> x = .ok b ↔ ∃ a, x = .ok a ∧ f a = b := by
  cases x with
  | ok a => simp
  | error e => simp

theorem mapM_congr {f g : α → Except ε β} {l : List α} (h : ∀ a ∈ l, f a = g a) :
    l.mapM f = l.mapM g := by
  induction l with
  | nil => rfl
  | cons a l ih =>
    rw [List.mapM_cons, List.mapM_cons, h a List.mem_cons_self,
      ih fun x hx => h x (List.mem_cons_of_mem _ hx)]

/-- A computation on every element gives a list of its results. -/
theorem mapM_eq_ok_iff {f : α → Except ε β} {l : List α} {out : List β} :
    l.mapM f = .ok out ↔ List.Forall₂ (fun a b => f a = .ok b) l out := by
  induction l generalizing out with
  | nil =>
    rw [List.mapM_nil, List.forall₂_nil_left_iff, pure_eq_ok, Except.ok.injEq]
    exact eq_comm
  | cons a l ih =>
    rw [List.mapM_cons, List.forall₂_cons_left_iff, bind_eq_ok]
    constructor
    · rintro ⟨b, hb, h⟩
      obtain ⟨rest, hrest, h⟩ := bind_eq_ok.1 h
      injection h with h
      exact ⟨b, rest, hb, ih.1 hrest, h.symm⟩
    · rintro ⟨b, rest, hb, hrest, rfl⟩
      refine ⟨b, hb, ?_⟩
      rw [ih.2 hrest]
      rfl

/-- An element of the first of two related lists is related to one of the second. -/
theorem exists_of_forall₂ {r : α → β → Prop} {l : List α} {out : List β} (h : List.Forall₂ r l out)
    {a : α} (ha : a ∈ l) : ∃ b ∈ out, r a b := by
  induction h with
  | nil => contradiction
  | cons hhead _ ih =>
    rcases List.mem_cons.1 ha with rfl | ha
    · exact ⟨_, List.mem_cons_self, hhead⟩
    · obtain ⟨b, hb, hab⟩ := ih ha
      exact ⟨b, List.mem_cons_of_mem _ hb, hab⟩

theorem exists_of_mapM_eq_ok {f : α → Except ε β} {l : List α} {out : List β}
    (h : l.mapM f = .ok out) {a : α} (ha : a ∈ l) : ∃ b ∈ out, f a = .ok b :=
  exists_of_forall₂ (mapM_eq_ok_iff.1 h) ha

theorem exists_of_mem_mapM {f : α → Except ε β} {l : List α} {out : List β}
    (h : l.mapM f = .ok out) {b : β} (hb : b ∈ out) : ∃ a ∈ l, f a = .ok b :=
  exists_of_forall₂ (mapM_eq_ok_iff.1 h).flip hb

/-- The results before one of them are those of the elements before its element. -/
theorem split_of_mapM_eq_ok {f : α → Except ε β} {l : List α} {xs ys : List β} {y : β}
    (h : l.mapM f = .ok (xs ++ y :: ys)) :
    ∃ as a bs, l = as ++ a :: bs ∧ as.mapM f = .ok xs ∧ f a = .ok y := by
  rw [mapM_eq_ok_iff] at h
  induction xs generalizing l with
  | nil =>
    obtain ⟨a, bs, ha, -, rfl⟩ := List.forall₂_cons_right_iff.1 h
    exact ⟨[], a, bs, rfl, rfl, ha⟩
  | cons x xs ih =>
    obtain ⟨c, rest, hc, hrest, rfl⟩ := List.forall₂_cons_right_iff.1 h
    obtain ⟨as, a, bs, rfl, has, ha⟩ := ih hrest
    refine ⟨c :: as, a, bs, rfl, ?_, ha⟩
    rw [mapM_eq_ok_iff] at has ⊢
    exact .cons hc has

theorem mapM_eq_ok_map {f : α → Except ε β} {g : α → β} {l : List α}
    (h : ∀ a ∈ l, f a = .ok (g a)) : l.mapM f = .ok (l.map g) := by
  rw [mapM_eq_ok_iff, List.forall₂_map_right_iff, List.forall₂_same]
  exact h

/-- The results of a computation on every element are those of one function. -/
theorem exists_map_of_mapM_eq_ok [Inhabited β] {f : α → Except ε β} {l : List α}
    {out : List β} (h : l.mapM f = .ok out) :
    ∃ g : α → β, out = l.map g ∧ ∀ a ∈ l, f a = .ok (g a) := by
  let g (a : α) : β := match f a with
    | .ok b => b
    | .error _ => default
  have hg : ∀ a ∈ l, f a = .ok (g a) := by
    intro a ha
    obtain ⟨b, -, hb⟩ := exists_of_mapM_eq_ok h ha
    simp only [g, hb]
  refine ⟨g, ?_, hg⟩
  rw [mapM_eq_ok_map hg] at h
  injection h with h
  exact h.symm

/-- Two computations on every element, one after the other, are two on the list. -/
theorem mapM_bind_eq_ok_iff {γ : Type} {f : α → Except ε β} {g : β → Except ε γ} {l : List α}
    {out : List γ} :
    l.mapM (fun a => f a >>= g) = .ok out ↔ ∃ mid, l.mapM f = .ok mid ∧ mid.mapM g = .ok out := by
  simp only [mapM_eq_ok_iff, bind_eq_ok]
  induction l generalizing out with
  | nil => simp
  | cons a l ih =>
    simp only [List.forall₂_cons_left_iff, ih]
    constructor
    · rintro ⟨c, rest, ⟨b, hb, hc⟩, ⟨mid, hmid, hrest⟩, rfl⟩
      exact ⟨b :: mid, ⟨b, mid, hb, hmid, rfl⟩, .cons hc hrest⟩
    · rintro ⟨_, ⟨b, mid, hb, hmid, rfl⟩, hout⟩
      obtain ⟨c, rest, hc, hrest, rfl⟩ := List.forall₂_cons_left_iff.1 hout
      exact ⟨c, rest, ⟨b, hb, hc⟩, ⟨mid, hmid, hrest⟩, rfl⟩

theorem exists_of_mapM_eq_error {f : α → Except ε β} {l : List α} {e : ε}
    (h : l.mapM f = .error e) : ∃ a ∈ l, f a = .error e := by
  induction l with
  | nil => contradiction
  | cons a l ih =>
    rw [List.mapM_cons] at h
    cases ha : f a with
    | error e' =>
      rw [ha, error_bind] at h
      injection h with h
      exact ⟨a, List.mem_cons_self, by rw [ha, h]⟩
    | ok b =>
      rw [ha, ok_bind] at h
      cases hl : l.mapM f with
      | error e' =>
        rw [hl] at h
        injection h with h
        obtain ⟨x, hx, hfx⟩ := ih (by rw [hl, h])
        exact ⟨x, List.mem_cons_of_mem _ hx, hfx⟩
      | ok rest =>
        rw [hl] at h
        contradiction

end

/-! ## Sessions -/

namespace Session

instance decidableEqResult {α : Type} [DecidableEq α] :
    DecidableEq (EStateM.Result Error Workspace α)
  | .ok a u, .ok b v => decidable_of_iff (a = b ∧ u = v) (by rw [EStateM.Result.ok.injEq])
  | .error a u, .error b v =>
    decidable_of_iff (a = b ∧ u = v) (by rw [EStateM.Result.error.injEq])
  | .ok _ _, .error _ _ => .isFalse (by simp)
  | .error _ _, .ok _ _ => .isFalse (by simp)

variable {α β : Type}

@[simp] theorem run_store (w : Workspace) : store.run w = .ok w.store w := rfl

@[simp] theorem run_lift_ok (a : α) (w : Workspace) : (lift (.ok a)).run w = .ok a w := rfl

@[simp] theorem run_lift_error (e : Error) (w : Workspace) :
    (lift (.error e) : Session α).run w = .error e w := rfl

@[simp] theorem run_tell (notice : Notice) (w : Workspace) :
    (tell notice).run w = .ok () ⟨w.store, w.notices ++ [notice]⟩ := rfl

@[simp] theorem run_commit_ok (path : String) (s : Store) (w : Workspace) :
    (commit path (.ok s)).run w = .ok () ⟨s, w.notices⟩ := rfl

theorem bind_ok {x : Session α} {f : α → Session β} {w u : Workspace} {a : α}
    (h : x.run w = .ok a u) : (x >>= f).run w = (f a).run u := by
  rw [EStateM.run_bind, h]

theorem bind_eq_ok_iff {x : Session α} {f : α → Session β} {w w' : Workspace} {b : β} :
    (x >>= f).run w = .ok b w' ↔ ∃ a u, x.run w = .ok a u ∧ (f a).run u = .ok b w' := by
  rw [EStateM.run_bind]
  cases x.run w with
  | ok a u =>
    constructor
    · intro h
      exact ⟨a, u, rfl, h⟩
    · rintro ⟨_, _, ⟨⟩, h⟩
      exact h
  | error e u => simp

theorem bind_eq_error_iff {x : Session α} {f : α → Session β} {w w' : Workspace} {e : Error} :
    (x >>= f).run w = .error e w' ↔
      x.run w = .error e w' ∨ ∃ a u, x.run w = .ok a u ∧ (f a).run u = .error e w' := by
  rw [EStateM.run_bind]
  cases x.run w with
  | ok a u =>
    constructor
    · intro h
      exact .inr ⟨a, u, rfl, h⟩
    · rintro (h | ⟨_, _, ⟨⟩, h⟩)
      · contradiction
      · exact h
  | error e u => simp

theorem lift_bind_eq_ok_iff {x : Except Error α} {f : α → Session β} {w w' : Workspace} {b : β} :
    (lift x >>= f).run w = .ok b w' ↔ ∃ a, x = .ok a ∧ (f a).run w = .ok b w' := by
  cases x with
  | ok a => simp
  | error e => simp

theorem lift_bind_eq_error_iff {x : Except Error α} {f : α → Session β} {w w' : Workspace}
    {e : Error} :
    (lift x >>= f).run w = .error e w' ↔
      (x = .error e ∧ w' = w) ∨ ∃ a, x = .ok a ∧ (f a).run w = .error e w' := by
  cases x with
  | ok a => simp
  | error e => simp [eq_comm]

/-! ## Lists -/

theorem mapM_cons_eq_ok_iff {f : α → Session β} {a : α} {l : List α} {w w' : Workspace}
    {out : List β} :
    ((a :: l).mapM f).run w = .ok out w' ↔ ∃ b u rest, (f a).run w = .ok b u ∧
      (l.mapM f).run u = .ok rest w' ∧ out = b :: rest := by
  rw [List.mapM_cons, bind_eq_ok_iff]
  constructor
  · rintro ⟨b, u, hb, h⟩
    obtain ⟨rest, v, hrest, h⟩ := bind_eq_ok_iff.1 h
    injection h with hout hw
    exact ⟨b, u, rest, hb, hw ▸ hrest, hout.symm⟩
  · rintro ⟨b, u, rest, hb, hrest, rfl⟩
    refine ⟨b, u, hb, ?_⟩
    rw [bind_ok hrest]
    rfl

/-- Work on a list that fails does so at one element, after all before it succeeded. -/
theorem mapM_eq_error {f : α → Session β} {l : List α} {w w' : Workspace} {e : Error}
    (h : (l.mapM f).run w = .error e w') :
    ∃ done a rest out u, l = done ++ a :: rest ∧ (done.mapM f).run w = .ok out u ∧
      (f a).run u = .error e w' := by
  induction l generalizing w with
  | nil => contradiction
  | cons a l ih =>
    rw [List.mapM_cons, bind_eq_error_iff] at h
    rcases h with h | ⟨b, u, hb, h⟩
    · exact ⟨[], a, l, [], w, rfl, rfl, h⟩
    · rcases bind_eq_error_iff.1 h with h | ⟨_, _, _, h⟩
      · obtain ⟨done, x, rest, out, v, rfl, hdone, hx⟩ := ih h
        exact ⟨a :: done, x, rest, b :: out, v, rfl,
          mapM_cons_eq_ok_iff.2 ⟨b, u, out, hb, hdone, rfl⟩, hx⟩
      · contradiction

end Session

end FirmwareStamp
