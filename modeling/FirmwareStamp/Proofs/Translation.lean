import Mathlib.Data.List.Nodup
import FirmwareStamp.Proofs.Narrow

/-!
# The section behind an address

Sections of a table may overlap.  Those that occupy memory and that the file fills are candidates
for an address, and of the candidates that cover it the lowest counts, which is also the first one
found when they are sorted by their starts (`backingSection?_eq_find?`).  What else the table holds,
and in which order, makes no difference:

    image.backingSection? a = some s ↔ image.IsLowest a s              (backingSection?_eq_some_iff)

A section that starts lower and covers a later address covers `a` as well.  So the lowest section
stays the lowest as far as it reaches, and offsets grow with the addresses it covers:

    image.fileOffset (a + k) = image.fileOffset a >>= fun offset => checkWord (offset + k)
                                                                              (fileOffset_add)

which is why a placeholder can be written from the offset of its first byte on.
-/

namespace FirmwareStamp

/-! ## The earliest minimum of a list -/

section EarliestMinimum

variable {α : Type} {f : α → Nat} {p : α → Bool} {a : α}

/-- The first element is the minimum unless one behind it is less. -/
theorem minOn?_cons_eq_some_iff {x : α} {rest : List α} :
    (x :: rest).minOn? f = some a ↔
      (x = a ∧ ∀ b ∈ rest, f x ≤ f b) ∨ (rest.minOn? f = some a ∧ f a < f x) := by
  cases rest with
  | nil => simp
  | cons y rest =>
    obtain ⟨c, hc⟩ : ∃ c, (y :: rest).minOn? f = some c :=
      ⟨_, List.minOn?_cons_eq_some_minOn⟩
    rw [List.minOn?_cons, hc, Option.elim_some, Option.some.injEq, Option.some.injEq]
    by_cases hle : f x ≤ f c
    · rw [minOn_eq_left hle]
      constructor
      · rintro rfl
        exact .inl ⟨rfl, fun b hb => Nat.le_trans hle (minOn?_le hc hb)⟩
      · rintro (⟨rfl, -⟩ | ⟨rfl, hlt⟩)
        · rfl
        · omega
    · rw [minOn_eq_right hle]
      constructor
      · rintro rfl
        exact .inr ⟨rfl, by omega⟩
      · rintro (⟨rfl, hall⟩ | ⟨rfl, -⟩)
        · exact absurd (hall c (List.minOn?_mem hc)) hle
        · rfl

/-- The earliest minimum splits the list: what is before it is greater, and nothing behind it is
less. -/
theorem minOn?_eq_some_iff {l : List α} :
    l.minOn? f = some a ↔
      ∃ before after, l = before ++ a :: after ∧ (∀ b ∈ before, f a < f b) ∧
        ∀ b ∈ after, f a ≤ f b := by
  induction l with
  | nil => simp
  | cons x rest ih =>
    rw [minOn?_cons_eq_some_iff, ih]
    constructor
    · rintro (⟨rfl, hall⟩ | ⟨⟨before, after, rfl, hbefore, hafter⟩, hlt⟩)
      · exact ⟨[], rest, rfl, by simp, hall⟩
      · exact ⟨x :: before, after, rfl, List.forall_mem_cons.2 ⟨hlt, hbefore⟩, hafter⟩
    · rintro ⟨before, after, hsplit, hbefore, hafter⟩
      cases before with
      | nil =>
        obtain ⟨rfl, rfl⟩ := List.cons.inj hsplit
        exact .inl ⟨rfl, hafter⟩
      | cons y before =>
        obtain ⟨rfl, rfl⟩ := List.cons.inj hsplit
        obtain ⟨hlt, hbefore⟩ := List.forall_mem_cons.1 hbefore
        exact .inr ⟨⟨before, after, rfl, hbefore, hafter⟩, hlt⟩

/-- The same of the elements with a property, inside the list they were taken from. -/
theorem minOn?_filter_eq_some_iff {l : List α} :
    (l.filter p).minOn? f = some a ↔
      ∃ before after, l = before ++ a :: after ∧ p a = true ∧
        (∀ b ∈ before, p b = true → f a < f b) ∧ ∀ b ∈ after, p b = true → f a ≤ f b := by
  rw [minOn?_eq_some_iff]
  constructor
  · rintro ⟨before, after, hsplit, hbefore, hafter⟩
    obtain ⟨first, rest, rfl, rfl, hrest⟩ := List.filter_eq_append_iff.1 hsplit
    obtain ⟨skipped, last, rfl, hskipped, ha, rfl⟩ := List.filter_eq_cons_iff.1 hrest
    refine ⟨first ++ skipped, last, by rw [List.append_assoc], ha, ?_, ?_⟩
    · intro b hb hp
      rcases List.mem_append.1 hb with hb | hb
      · exact hbefore b (List.mem_filter.2 ⟨hb, hp⟩)
      · exact absurd hp (hskipped b hb)
    · intro b hb hp
      exact hafter b (List.mem_filter.2 ⟨hb, hp⟩)
  · rintro ⟨before, after, rfl, ha, hbefore, hafter⟩
    refine ⟨before.filter p, after.filter p, ?_, ?_, ?_⟩
    · rw [List.filter_append, List.filter_cons_of_pos ha]
    · intro b hb
      obtain ⟨hmem, hp⟩ := List.mem_filter.1 hb
      exact hbefore b hmem hp
    · intro b hb
      obtain ⟨hmem, hp⟩ := List.mem_filter.1 hb
      exact hafter b hmem hp

/-- The first hit in a list sorted by `f` is the earliest minimum among the hits: sorting keeps
equals in order. -/
theorem find?_mergeSort_eq_minOn? (l : List α) :
    (l.mergeSort fun x y => decide (f x ≤ f y)).find? p = (l.filter p).minOn? f := by
  have htrans : ∀ x y z : α, decide (f x ≤ f y) = true → decide (f y ≤ f z) = true →
      decide (f x ≤ f z) = true := by
    simp only [decide_eq_true_eq]
    intro x y z hxy hyz
    exact Nat.le_trans hxy hyz
  have htotal : ∀ x y : α, (decide (f x ≤ f y) || decide (f y ≤ f x)) = true := by
    intro x y
    rw [Bool.or_eq_true, decide_eq_true_eq, decide_eq_true_eq]
    exact Nat.le_total _ _
  induction l with
  | nil => rw [List.mergeSort_nil, List.filter_nil, List.find?_nil, List.minOn?_nil]
  | cons a rest ih =>
    obtain ⟨low, high, hsort, hrest, hlow⟩ := List.mergeSort_cons htrans htotal a rest
    have hsorted := List.pairwise_mergeSort htrans htotal (a :: rest)
    rw [hrest, List.find?_append] at ih
    rw [hsort] at hsorted
    rw [hsort, List.find?_append]
    by_cases hp : p a = true
    · rw [List.filter_cons_of_pos hp, List.find?_cons_of_pos hp]
      symm
      cases hfound : low.find? p with
      | some b =>
        have hlt := hlow b (List.mem_of_find?_eq_some hfound)
        rw [hfound] at ih
        rw [Option.some_or, minOn?_cons_eq_some_iff]
        simp only [Bool.not_eq_true', decide_eq_false_iff_not] at hlt
        exact .inr ⟨ih.symm, by omega⟩
      | none =>
        rw [Option.none_or, minOn?_cons_eq_some_iff]
        refine .inl ⟨rfl, fun b hb => ?_⟩
        obtain ⟨hmem, hb⟩ := List.mem_filter.1 hb
        -- the hits of the rest are all sorted behind the new one
        have hhigh : b ∈ high := by
          have hsplit : b ∈ low ++ high := by
            rw [← hrest]
            exact List.mem_mergeSort.2 hmem
          rcases List.mem_append.1 hsplit with hmem | hmem
          · exact absurd hb (List.find?_eq_none.1 hfound b hmem)
          · exact hmem
        have hbehind := (List.pairwise_append.1 hsorted).2.1
        exact of_decide_eq_true ((List.pairwise_cons.1 hbehind).1 b hhigh)
    · rw [List.filter_cons_of_neg hp, List.find?_cons_of_neg hp, ← ih]

end EarliestMinimum

/-! ## The lowest section -/

namespace Section

/-- Whether the section is a candidate for an address: it occupies memory, the file fills it and it
covers the address. -/
def Backs (s : Section) (address : Nat) : Prop :=
  s.isBacked = true ∧ s.contains address = true

theorem backs_iff {s : Section} {address : Nat} :
    s.Backs address ↔ (s.isBacked && s.contains address) = true := by
  rw [Bool.and_eq_true, Backs]

/-- A section has no holes. -/
theorem Backs.of_le {s : Section} {address later : Nat} (h : s.Backs later)
    (hstart : s.address.toNat ≤ address) (hle : address ≤ later) : s.Backs address := by
  have hin := contains_iff.1 h.2
  exact ⟨h.1, contains_iff.2 ⟨hstart, by omega⟩⟩

end Section

namespace Image

variable {image : Image} {address : Nat} {s : Section}

/-- The candidates for any address, sorted by their starts. -/
def byStart (image : Image) : List Section :=
  (image.sections.filter (·.isBacked)).mergeSort fun s t => s.address.toNat ≤ t.address.toNat

/-- Whether a section is the lowest that backs an address, and the earliest in the table of those
that start where it does. -/
def IsLowest (image : Image) (address : Nat) (s : Section) : Prop :=
  ∃ before after, image.sections = before ++ s :: after ∧ s.Backs address ∧
    (∀ t ∈ before, t.Backs address → s.address.toNat < t.address.toNat) ∧
    ∀ t ∈ after, t.Backs address → s.address.toNat ≤ t.address.toNat

theorem backingSection?_eq_some_iff :
    image.backingSection? address = some s ↔ image.IsLowest address s := by
  unfold backingSection? IsLowest
  rw [minOn?_filter_eq_some_iff]
  simp only [Section.backs_iff]

/-- Looking the section up is finding the first in a sorted list that covers the address. -/
theorem backingSection?_eq_find? (image : Image) (address : Nat) :
    image.backingSection? address = image.byStart.find? (·.contains address) := by
  unfold backingSection? byStart
  rw [find?_mergeSort_eq_minOn?, List.filter_filter]
  simp only [Bool.and_comm]

/-- Whether no two candidates start at the same address. -/
def StartsApart (image : Image) : Prop :=
  ((image.sections.filter (·.isBacked)).map (·.address)).Nodup

/-- Where starts differ, the lowest section is found without a look at the order of the table. -/
theorem StartsApart.backingSection?_eq_some_iff (h : image.StartsApart) :
    image.backingSection? address = some s ↔
      s ∈ image.sections ∧ s.Backs address ∧
        ∀ t ∈ image.sections, t.Backs address → s.address.toNat ≤ t.address.toNat := by
  constructor
  · intro hs
    obtain ⟨hmem, hbacks⟩ := backingSection?_mem hs
    exact ⟨hmem, hbacks, fun t ht htbacks => backingSection?_le hs ht htbacks.1 htbacks.2⟩
  · rintro ⟨hmem, hbacks, hlowest⟩
    obtain ⟨t, ht⟩ := Option.isSome_iff_exists.1 (backingSection?_isSome_iff.2 ⟨s, hmem, hbacks⟩)
    obtain ⟨htmem, htbacks⟩ := backingSection?_mem ht
    have hle : t.address.toNat ≤ s.address.toNat := backingSection?_le ht hmem hbacks.1 hbacks.2
    have hsame : t.address = s.address :=
      UInt64.toNat_inj.1 (Nat.le_antisymm hle (hlowest t htmem htbacks))
    rw [ht, List.inj_on_of_nodup_map h (List.mem_filter.2 ⟨htmem, htbacks.1⟩)
      (List.mem_filter.2 ⟨hmem, hbacks.1⟩) hsame]

/-- The order of the table matters only between sections that start at the same address. -/
theorem StartsApart.backingSection?_perm {sections : List Section} (h : image.StartsApart)
    (hperm : sections.Perm image.sections) :
    { image with sections := sections }.backingSection? address =
      image.backingSection? address := by
  have hapart : { image with sections := sections }.StartsApart :=
    ((hperm.filter _).map _).nodup_iff.2 h
  apply Option.ext
  intro s
  rw [hapart.backingSection?_eq_some_iff, h.backingSection?_eq_some_iff]
  simp only [hperm.mem_iff]

/-- The section behind an address is behind all later ones that it covers: one that starts lower
and covers a later address would have covered the first. -/
theorem IsLowest.add {k : Nat} (h : image.IsLowest address s)
    (hk : s.contains (address + k) = true) : image.IsLowest (address + k) s := by
  obtain ⟨before, after, hsplit, hs, hbefore, hafter⟩ := h
  have hstart := (Section.contains_iff.1 hs.2).1
  refine ⟨before, after, hsplit, ⟨hs.1, hk⟩, ?_, ?_⟩
  · intro t ht hbacks
    by_contra hlow
    have hlt := hbefore t ht (hbacks.of_le (by omega) (Nat.le_add_right address k))
    omega
  · intro t ht hbacks
    by_contra hlow
    have hle := hafter t ht (hbacks.of_le (by omega) (Nat.le_add_right address k))
    omega

theorem backingSection?_add {k : Nat} (h : image.backingSection? address = some s)
    (hk : s.contains (address + k) = true) : image.backingSection? (address + k) = some s :=
  backingSection?_eq_some_iff.2 ((backingSection?_eq_some_iff.1 h).add hk)

/-- Inside a section offsets grow with the addresses. -/
theorem fileOffset_add {k : Nat} (h : image.backingSection? address = some s)
    (hk : s.contains (address + k) = true) :
    image.fileOffset (address + k) =
      image.fileOffset address >>= fun offset => checkWord (offset + k) := by
  have hstart := (Section.contains_iff.1 (backingSection?_mem h).2.2).1
  have hsum : address + k - s.address.toNat + s.offset.toNat =
      address - s.address.toNat + s.offset.toNat + k := by
    omega
  simp only [fileOffset, h, backingSection?_add h hk, hsum]
  by_cases hfits : address - s.address.toNat + s.offset.toNat < Elf.wordLimit
  · simp only [checkWord, if_pos hfits]
    rfl
  · have hlater : ¬ address - s.address.toNat + s.offset.toNat + k < Elf.wordLimit := by omega
    simp only [checkWord, if_neg hfits, if_neg hlater]
    rfl

/-- **The section behind an address.**  There is one exactly if a section of the table occupies
memory, is filled by the file and covers the address.  It is the lowest of these and the earliest
among equals, the first hit in the candidates sorted by start; if they all start at different
addresses the table may be in any order.  It is also the section behind every later address that it
covers, so that offsets grow with the addresses. -/
theorem backingSection?_lowest (image : Image) (address : Nat) :
    ((image.backingSection? address).isSome = true ↔
      ∃ s ∈ image.sections, s.Backs address) ∧
    (∀ s, image.backingSection? address = some s ↔ image.IsLowest address s) ∧
    image.backingSection? address = image.byStart.find? (·.contains address) ∧
    (∀ sections : List Section, image.StartsApart → sections.Perm image.sections →
      { image with sections := sections }.backingSection? address =
        image.backingSection? address) ∧
    ∀ s k, image.backingSection? address = some s → s.contains (address + k) = true →
      image.backingSection? (address + k) = some s ∧
      (image.OffsetFits (address + k) → ∃ offset, image.fileOffset address = .ok offset ∧
        image.fileOffset (address + k) = .ok (offset + k)) := by
  refine ⟨backingSection?_isSome_iff, fun s => backingSection?_eq_some_iff,
    backingSection?_eq_find? image address, ?_, ?_⟩
  · intro sections hapart hperm
    exact hapart.backingSection?_perm hperm
  · intro s k hs hk
    have hlater := backingSection?_add hs hk
    refine ⟨hlater, fun hfits => ?_⟩
    have hend : address + k - s.address.toNat + s.offset.toNat < Elf.wordLimit :=
      hfits s (by rw [hlater]; rfl)
    have hstart := (Section.contains_iff.1 (backingSection?_mem hs).2.2).1
    have hfirst : image.fileOffset address =
        .ok (address - s.address.toNat + s.offset.toNat) :=
      fileOffset_eq_ok_iff.2 ⟨s, hs, rfl, by omega⟩
    refine ⟨_, hfirst, ?_⟩
    rw [fileOffset_add hs hk, hfirst]
    exact if_pos (by omega)

/-- Two candidates that overlap, the higher first in the table, below a section that is not loaded
and one of zeros. -/
def overlappingImage : Image where
  path := "app.elf"
  bytes := []
  sections := [⟨".comment", 0, 0x4000, 0x80, false, false⟩,
    ⟨".bss", 0x800, 0x1000, 0x80, true, true⟩, ⟨".data", 0x1008, 0x20, 0x200, true, false⟩,
    ⟨".text", 0x1000, 0x30, 0x100, true, false⟩]
  segments := []
  staticSymbols := none
  dynamicSymbols := none

/-- The lower candidate counts, in either order of the table and up to its last byte. -/
theorem backingSection?_overlappingImage :
    overlappingImage.StartsApart ∧
    overlappingImage.IsLowest 0x1010 ⟨".text", 0x1000, 0x30, 0x100, true, false⟩ ∧
    { overlappingImage with sections := overlappingImage.sections.reverse }.backingSection? 0x1010 =
      overlappingImage.backingSection? 0x1010 ∧
    overlappingImage.fileOffset 0x1010 = .ok 0x110 ∧
    overlappingImage.fileOffset (0x1010 + 0x1f) = .ok (0x110 + 0x1f) := by
  have hbacking : overlappingImage.backingSection? 0x1010 =
      some ⟨".text", 0x1000, 0x30, 0x100, true, false⟩ := by
    decide +kernel
  have hoffset : overlappingImage.fileOffset 0x1010 = .ok 0x110 := by
    decide +kernel
  have hapart : overlappingImage.StartsApart := by
    unfold StartsApart
    decide +kernel
  obtain ⟨-, hlowest, -, hperm, hlater⟩ := backingSection?_lowest overlappingImage 0x1010
  obtain ⟨hbacks, hadd⟩ := hlater _ 0x1f hbacking (by decide +kernel)
  refine ⟨hapart, (hlowest _).1 hbacking, hperm _ hapart (List.reverse_perm _), hoffset, ?_⟩
  obtain ⟨offset, hfirst, hlast⟩ := hadd fun s hs => by
    rw [hbacks] at hs
    cases hs
    decide
  rw [hfirst] at hoffset
  cases hoffset
  exact hlast

end Image

end FirmwareStamp
