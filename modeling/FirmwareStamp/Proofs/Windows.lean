import FirmwareStamp.Placeholder

/-!
# Windows of a file around a write, and placeholders in them

A placeholder in bytes is the magic followed by some ID:

    d.check path place found = .ok id ↔ found = d.magic.bytes ++ id.bytes
                                                                              (check_eq_ok_iff)
    m.standsAt b o = true ↔ ∃ id, b.slice o placeholderLength = m.bytes ++ id.bytes
                                                                                 (standsAt_iff)

Writing an ID over the value bytes leaves a placeholder with the new ID (`slice_overwrite_value`).
-/

namespace FirmwareStamp

/-! ## Windows -/

namespace Bytes

theorem getElem?_slice (b : Bytes) (offset length i : Nat) :
    (slice b offset length)[i]? = if i < length then b[offset + i]? else none := by
  unfold slice
  split
  · next hi => rw [List.getElem?_take_of_lt hi, List.getElem?_drop]
  · next hi => rw [List.getElem?_take_eq_none (by omega)]

theorem slice_append_slice (b : Bytes) (offset m n : Nat) :
    slice b offset m ++ slice b (offset + m) n = slice b offset (m + n) := by
  unfold slice
  rw [List.take_add, List.drop_drop]

/-- Bytes apart from the place of a write stay as they were. -/
theorem slice_overwrite_apart {b new : Bytes} {place offset length : Nat}
    (hfits : place + new.length ≤ b.length)
    (h : offset + length ≤ place ∨ place + new.length ≤ offset) :
    slice (overwrite b place new) offset length = slice b offset length := by
  apply List.ext_getElem?
  intro i
  rw [getElem?_slice, getElem?_slice]
  split
  · next hi => rw [getElem?_overwrite b place new hfits, if_neg (by omega)]
  · rfl

/-- Of two writes to one place the second counts. -/
theorem overwrite_overwrite (b : Bytes) (offset : Nat) (old new : Bytes)
    (hlen : old.length = new.length) (h : offset + new.length ≤ b.length) :
    overwrite (overwrite b offset old) offset new = overwrite b offset new := by
  have hold : offset + old.length ≤ b.length := by omega
  have hlength := length_overwrite b offset old hold
  apply List.ext_getElem?
  intro i
  rw [getElem?_overwrite _ _ _ (by omega), getElem?_overwrite _ _ _ h]
  split
  · rfl
  · next hi => rw [getElem?_overwrite _ _ _ hold, if_neg (by omega)]

end Bytes

/-! ## A placeholder and its bytes -/

theorem placeholderLength_eq (m : Magic) (id : BuildId) :
    (m.bytes ++ id.bytes).length = placeholderLength := by
  rw [List.length_append, m.length_eq, id.length_eq]
  rfl

theorem Descriptor.check_eq_ok_iff {d : Descriptor} {path : String} {place : Nat} {found : Bytes}
    {id : BuildId} : d.check path place found = .ok id ↔ found = d.magic.bytes ++ id.bytes := by
  have hmagic : d.magic.bytes.length = Magic.length := d.magic.length_eq
  simp only [check]
  constructor
  · intro h
    split at h
    · contradiction
    · next hheader =>
      split at h
      · next read hread =>
        injection h with h
        subst h
        rw [BuildId.ofBytes?_eq_some_iff] at hread
        rw [← hread, ← Decidable.not_not.1 hheader, List.take_append_drop]
      · contradiction
  · rintro rfl
    have htake : (d.magic.bytes ++ id.bytes).take Magic.length = d.magic.bytes := by
      rw [← hmagic, List.take_left]
    have hdrop : (d.magic.bytes ++ id.bytes).drop Magic.length = id.bytes := by
      rw [← hmagic, List.drop_left]
    rw [htake, if_neg (by simp), hdrop, BuildId.ofBytes?_bytes]

/-- A window that holds a placeholder lies in the file. -/
theorem Magic.le_length_of_slice {m : Magic} {b : Bytes} {offset : Nat} {id : BuildId}
    (h : b.slice offset placeholderLength = m.bytes ++ id.bytes) :
    offset + placeholderLength ≤ b.length := by
  have hlen := congrArg List.length h
  rw [Bytes.length_slice, placeholderLength_eq] at hlen
  simp only [placeholderLength, length, BuildId.length] at hlen ⊢
  omega

theorem Magic.standsAt_iff {m : Magic} {b : Bytes} {offset : Nat} :
    m.standsAt b offset = true ↔
      ∃ id : BuildId, b.slice offset placeholderLength = m.bytes ++ id.bytes := by
  simp only [standsAt, Bool.and_eq_true, decide_eq_true_eq, List.isPrefixOf_iff_prefix]
  constructor
  · rintro ⟨hlen, rest, hrest⟩
    refine ⟨⟨rest, ?_⟩, hrest.symm⟩
    rw [← hrest, List.length_append, m.length_eq] at hlen
    simp only [placeholderLength, length, BuildId.length] at hlen
    omega
  · rintro ⟨id, h⟩
    rw [h, placeholderLength_eq]
    exact ⟨rfl, List.prefix_append _ _⟩

/-- A placeholder starts with the magic. -/
theorem Magic.slice_magic {m : Magic} {b : Bytes} {offset : Nat} {id : BuildId}
    (h : b.slice offset placeholderLength = m.bytes ++ id.bytes) :
    b.slice offset length = m.bytes := by
  have hle := le_length_of_slice h
  rw [placeholderLength, ← Bytes.slice_append_slice] at h
  refine (List.append_inj h ?_).1
  rw [Bytes.length_slice, m.length_eq]
  simp only [placeholderLength, length] at hle ⊢
  omega

/-- **Stamped bytes.**  An ID written over the value bytes of a placeholder is the ID of the
placeholder. -/
theorem Magic.slice_overwrite_value {m : Magic} {b : Bytes} {offset : Nat} {old : BuildId}
    (h : b.slice offset placeholderLength = m.bytes ++ old.bytes) (id : BuildId) :
    (b.overwrite (offset + length) id.bytes).slice offset placeholderLength =
      m.bytes ++ id.bytes := by
  have hle := le_length_of_slice h
  have hid : id.bytes.length = BuildId.length := id.length_eq
  have hfits : offset + length + id.bytes.length ≤ b.length := by
    rw [hid]
    unfold placeholderLength at hle
    omega
  calc (b.overwrite (offset + length) id.bytes).slice offset placeholderLength
      = (b.overwrite (offset + length) id.bytes).slice offset length ++
          (b.overwrite (offset + length) id.bytes).slice (offset + length) id.bytes.length := by
        rw [Bytes.slice_append_slice, hid, placeholderLength]
    _ = m.bytes ++ id.bytes := by
        rw [Bytes.slice_overwrite_apart hfits (.inl (Nat.le_refl _)), slice_magic h,
          Bytes.slice_overwrite b (offset + length) id.bytes hfits]

/-! ## The search -/

theorem Magic.hitsFrom_pairwise (m : Magic) (start : Nat) (b : Bytes) :
    (m.hitsFrom start b).Pairwise (· < ·) := by
  induction b generalizing start with
  | nil => exact .nil
  | cons byte rest ih =>
    simp only [hitsFrom]
    split
    · refine .cons ?_ (ih (start + 1))
      intro o ho
      exact ((m.mem_hitsFrom_iff (start + 1) rest o).1 ho).1
    · exact ih (start + 1)

/-- The search has one result exactly if a placeholder stands there and nowhere else. -/
theorem Magic.hits_eq_singleton_iff {m : Magic} {b : Bytes} {offset : Nat} :
    m.hits b = [offset] ↔ ∀ o, m.standsAt b o = true ↔ o = offset := by
  constructor
  · intro h o
    rw [← mem_hits_iff, h, List.mem_singleton]
  · intro h
    have hmem : ∀ o, o ∈ m.hits b ↔ o = offset := fun o => (mem_hits_iff m b o).trans (h o)
    have hsorted : (m.hits b).Pairwise (· < ·) := m.hitsFrom_pairwise 0 b
    cases hhits : m.hits b with
    | nil =>
      have := (hmem offset).2 rfl
      rw [hhits] at this
      contradiction
    | cons first rest =>
      rw [hhits] at hmem hsorted
      have hfirst : first = offset := (hmem first).1 List.mem_cons_self
      cases rest with
      | nil => rw [hfirst]
      | cons second rest =>
        -- a second hit would be the same offset once more
        have hsecond : second = offset := (hmem second).1 (by simp)
        have := List.rel_of_pairwise_cons hsorted List.mem_cons_self
        omega

end FirmwareStamp
