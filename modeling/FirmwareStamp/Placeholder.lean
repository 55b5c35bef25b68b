import FirmwareStamp.Error

/-!
# Placeholders in bytes

`Descriptor.check` judges the bytes read where a placeholder should be: the magic comes first, then
all 20 value bytes must be there.  `hits` lists every offset at which a whole placeholder stands:

    o ∈ m.hits b ↔ m.standsAt b o     (mem_hits_iff)
-/

namespace FirmwareStamp

/-- The ID in bytes read from `place` in a file, which are at most a whole placeholder. -/
def Descriptor.check (d : Descriptor) (path : String) (place : Nat) (found : Bytes) :
    Except Error BuildId :=
  let header := found.take Magic.length
  if header ≠ d.magic.bytes then
    .error (.headerMismatch path place d.magic.bytes header)
  else match BuildId.ofBytes? (found.drop Magic.length) with
    | some id => .ok id
    | none => .error (.truncated path place found.length)

namespace Magic

/-- Whether a whole placeholder stands at an offset. -/
def standsAt (m : Magic) (b : Bytes) (offset : Nat) : Bool :=
  let found := b.slice offset placeholderLength
  found.length = placeholderLength && m.bytes.isPrefixOf found

/-- Whether bytes start with the magic and are no fewer than a placeholder's. -/
def opens (m : Magic) (b : Bytes) : Bool :=
  m.bytes.isPrefixOf b && !(b.drop (placeholderLength - 1)).isEmpty

/-- The offsets, counted from `start`, at which a whole placeholder stands. -/
def hitsFrom (m : Magic) (start : Nat) : Bytes → List Nat
  | [] => []
  | byte :: rest =>
    if m.opens (byte :: rest) then start :: m.hitsFrom (start + 1) rest
    else m.hitsFrom (start + 1) rest

/-- The offsets at which a whole placeholder stands, in order. -/
def hits (m : Magic) (b : Bytes) : List Nat :=
  m.hitsFrom 0 b

end Magic

/-! ## Lemmas -/

namespace Magic

theorem standsAt_eq_opens (m : Magic) (b : Bytes) (offset : Nat) :
    m.standsAt b offset = m.opens (b.drop offset) := by
  have hlong : ((b.slice offset placeholderLength).length = placeholderLength) ↔
      ¬ ((b.drop offset).drop (placeholderLength - 1)) = [] := by
    rw [Bytes.length_slice, List.drop_drop, List.drop_eq_nil_iff]
    simp only [placeholderLength, length, BuildId.length]
    omega
  have hmagic : m.bytes.isPrefixOf (b.slice offset placeholderLength) =
      m.bytes.isPrefixOf (b.drop offset) := by
    rw [Bool.eq_iff_iff, List.isPrefixOf_iff_prefix, List.isPrefixOf_iff_prefix, Bytes.slice]
    constructor
    · exact fun h => h.trans (List.take_prefix _ _)
    · intro h
      rw [List.prefix_take_iff]
      exact ⟨h, by rw [m.length_eq]; decide⟩
  simp only [standsAt, opens, hmagic]
  rw [Bool.and_comm]
  congr 1
  rw [Bool.eq_iff_iff, decide_eq_true_eq, hlong]
  simp

theorem mem_hitsFrom_iff (m : Magic) (start : Nat) (b : Bytes) (o : Nat) :
    o ∈ m.hitsFrom start b ↔ start ≤ o ∧ m.opens (b.drop (o - start)) = true := by
  induction b generalizing start with
  | nil =>
    simp only [hitsFrom, List.not_mem_nil, List.drop_nil, false_iff, not_and]
    intro _
    simp [opens]
  | cons byte rest ih =>
    have hstep : o ∈ m.hitsFrom (start + 1) rest ↔
        start + 1 ≤ o ∧ m.opens ((byte :: rest).drop (o - start)) = true := by
      rw [ih]
      constructor
      · rintro ⟨hle, h⟩
        rw [show o - start = (o - (start + 1)) + 1 by omega, List.drop_succ_cons]
        exact ⟨hle, h⟩
      · rintro ⟨hle, h⟩
        rw [show o - start = (o - (start + 1)) + 1 by omega, List.drop_succ_cons] at h
        exact ⟨hle, h⟩
    simp only [hitsFrom]
    split
    · next hopen =>
      rw [List.mem_cons, hstep]
      constructor
      · rintro (rfl | ⟨hle, h⟩)
        · exact ⟨Nat.le_refl _, by simpa using hopen⟩
        · exact ⟨by omega, h⟩
      · rintro ⟨hle, h⟩
        by_cases heq : o = start
        · exact .inl heq
        · exact .inr ⟨by omega, h⟩
    · next hclosed =>
      rw [hstep]
      constructor
      · rintro ⟨hle, h⟩
        exact ⟨by omega, h⟩
      · rintro ⟨hle, h⟩
        refine ⟨?_, h⟩
        by_cases heq : o = start
        · subst heq
          simp [hclosed] at h
        · omega

/-- The search finds the offsets at which a whole placeholder stands, and no others. -/
theorem mem_hits_iff (m : Magic) (b : Bytes) (o : Nat) :
    o ∈ m.hits b ↔ m.standsAt b o = true := by
  rw [hits, mem_hitsFrom_iff, standsAt_eq_opens]
  simp

end Magic

end FirmwareStamp
