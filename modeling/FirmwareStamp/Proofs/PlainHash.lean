import FirmwareStamp.Proofs.HashStream
import FirmwareStamp.Proofs.Indices

/-!
# The ID without short cuts

The plain way to an ID is to write down the address and the contents of every allocated section,
leave out the bytes at the positions of the value, and hash what is left in one go (`plainInput`).
Two short cuts are taken instead.  Zeros that the file does not hold are fed page by page, as many
as there are before the window of the value and after it; and of the bytes that the file holds,
those before and after the window are sliced off with both ends cut off where the bytes end.
Wherever the window is, both come to the same:

    image.WindowsFit p → image.hashSection p h s = .ok (h.update (image.plainPart p s))
                                                                    (hashSection_eq_plain)

so that zeros in memory are hashed like zeros in the file.  The pages come to an end when all zeros
are fed (`repeat_feedPage_pages`).
-/

namespace FirmwareStamp

/-! ## Zeros page by page -/

namespace Sha1.Hasher

/-- One pass over the zeros that are left: no more than a page of them is fed. -/
def feedPage (state : Hasher × Nat) : Hasher × Nat :=
  let n := min state.2 pageLength
  (state.1.update (List.replicate n 0), state.2 - n)

/-- How many passes it takes to feed `n` zeros. -/
def pages (n : Nat) : Nat :=
  (n + pageLength - 1) / pageLength

theorem length_update (h : Hasher) (b : Bytes) : (h.update b).length = h.length + b.length := by
  induction b generalizing h with
  | nil => rfl
  | cons byte rest ih =>
    have hpush : (h.push byte).length = h.length + 1 := by
      unfold push
      dsimp only
      split <;> rfl
    have hstep : h.update (byte :: rest) = (h.push byte).update rest := rfl
    rw [hstep, ih, hpush, List.length_cons]
    omega

/-- After some passes as many pages are fed, if there are that many. -/
theorem repeat_feedPage (h : Hasher) (n k : Nat) :
    Nat.repeat feedPage k (h, n) =
      (h.update (List.replicate (min n (k * pageLength)) 0), n - k * pageLength) := by
  induction k with
  | zero =>
    rw [Nat.zero_mul, Nat.min_zero, Nat.sub_zero]
    rfl
  | succ k ih =>
    -- the last of the passes is short or feeds nothing once fewer zeros than a page are left
    have hfed : min n (k * pageLength) + min (n - k * pageLength) pageLength =
        min n ((k + 1) * pageLength) := by
      rw [Nat.add_mul, Nat.one_mul]
      omega
    have hleft : n - k * pageLength - min (n - k * pageLength) pageLength =
        n - (k + 1) * pageLength := by
      rw [Nat.add_mul, Nat.one_mul]
      omega
    rw [Nat.repeat, ih, feedPage, ← update_append, List.replicate_append_replicate, hfed, hleft]

theorem lt_pages_iff {n k : Nat} : k < pages n ↔ k * pageLength < n := by
  simp only [pages, pageLength]
  omega

/-- The passes go on while zeros are left, and then exactly `n` were fed. -/
theorem repeat_feedPage_pages (h : Hasher) (n : Nat) :
    (∀ k, k < pages n → (Nat.repeat feedPage k (h, n)).2 ≠ 0) ∧
    Nat.repeat feedPage (pages n) (h, n) = (h.updateZeros n, 0) ∧
    h.updateZeros n = h.update (List.replicate n 0) ∧
    (h.updateZeros n).length = h.length + n := by
  refine ⟨?_, ?_, updateZeros_eq h n, ?_⟩
  · intro k hk
    have hleft := lt_pages_iff.1 hk
    rw [repeat_feedPage]
    show n - k * pageLength ≠ 0
    omega
  · have hdone : n ≤ pages n * pageLength := by
      by_contra hmore
      exact Nat.lt_irrefl _ (lt_pages_iff.2 (Nat.lt_of_not_le hmore))
    rw [repeat_feedPage, Nat.min_eq_left hdone, Nat.sub_eq_zero_of_le hdone, updateZeros_eq]
  · rw [updateZeros_eq, length_update, List.length_replicate]

end Sha1.Hasher

/-! ## The plain input -/

namespace Section

instance decidableHoldsValue (s : Section) (placeholder i : Nat) :
    Decidable (s.HoldsValue placeholder i) :=
  inferInstanceAs (Decidable (_ ∧ _ ∧ _))

/-- Bytes of a section without those at the positions of the value. -/
def withoutValue (s : Section) (placeholder : Nat) (b : Bytes) : Bytes :=
  (b.zipIdx.filter fun x => ¬ s.HoldsValue placeholder x.2).map Prod.fst

end Section

namespace Image

/-- The address and the contents of a section, without the value bytes. -/
def plainPart (image : Image) (placeholder : Nat) (s : Section) : Bytes :=
  Bytes.little 8 s.address.toNat ++ s.withoutValue placeholder (image.loaded s)

/-- The parts of all allocated sections in table order. -/
def plainInput (image : Image) (placeholder : Nat) : Bytes :=
  image.allocated.flatMap (image.plainPart placeholder)

end Image

/-- Leaving out the positions of a window leaves what is before and after it.  The positions are
counted from `k`. -/
theorem map_fst_filter_zipIdx {α : Type} {outside : α × Nat → Bool} {start stop : Nat}
    (houtside : ∀ a i, outside (a, i) = true ↔ i < start ∨ stop ≤ i) (h : start ≤ stop)
    (l : List α) (k : Nat) :
    ((l.zipIdx k).filter outside).map Prod.fst = l.take (start - k) ++ l.drop (stop - k) := by
  induction l generalizing k with
  | nil => rw [List.zipIdx_nil, List.filter_nil, List.map_nil, List.take_nil, List.drop_nil,
      List.append_nil]
  | cons a rest ih =>
    rw [List.zipIdx_cons]
    by_cases hbefore : k < start
    · have hstart : start - k = start - (k + 1) + 1 := by omega
      have hstop : stop - k = stop - (k + 1) + 1 := by omega
      rw [List.filter_cons_of_pos ((houtside a k).2 (.inl hbefore)), List.map_cons, ih, hstart,
        hstop, List.take_succ_cons, List.drop_succ_cons, List.cons_append]
    · -- from the start of the window on nothing is before it any more
      have hstart : start - k = 0 := by omega
      have hstart' : start - (k + 1) = 0 := by omega
      rw [hstart, List.take_zero, List.nil_append]
      by_cases hinside : k < stop
      · have hdrop : ¬ outside (a, k) = true := by
          rw [houtside]
          omega
        have hstop : stop - k = stop - (k + 1) + 1 := by omega
        rw [List.filter_cons_of_neg hdrop, ih, hstart', hstop, List.take_zero, List.nil_append,
          List.drop_succ_cons]
      · have hstop : stop - k = 0 := by omega
        have hstop' : stop - (k + 1) = 0 := by omega
        rw [List.filter_cons_of_pos ((houtside a k).2 (.inr (by omega))), List.map_cons, ih,
          hstart', hstop, hstop', List.take_zero, List.nil_append, List.drop_zero, List.drop_zero]

namespace Section

/-- What is before and after the window, wherever it is, is what is at no position of the value. -/
theorem without_valueRange? (s : Section) (p : Nat) (b : Bytes) :
    Image.without b (s.valueRange? p) = s.withoutValue p b := by
  unfold valueRange? withoutValue
  by_cases hc : s.contains p = true
  · have houtside : ∀ (byte : UInt8) (i : Nat),
        decide (¬ s.HoldsValue p (byte, i).2) = true ↔
          i < p - s.address.toNat + Magic.length ∨ p - s.address.toNat + placeholderLength ≤ i := by
      intro byte i
      rw [decide_eq_true_eq, HoldsValue]
      simp only [hc, true_and]
      omega
    have hle : p - s.address.toNat + Magic.length ≤ p - s.address.toNat + placeholderLength :=
      Nat.add_le_add_left (by decide) _
    rw [if_pos hc, map_fst_filter_zipIdx houtside hle b 0]
    rfl
  · have hall : ∀ x ∈ b.zipIdx, decide (¬ s.HoldsValue p x.2) = true := by
      intro x _
      rw [decide_eq_true_eq]
      exact fun hvalue => hc hvalue.1
    rw [if_neg hc, List.filter_eq_self.2 hall, List.zipIdx_map_fst]
    rfl

end Section

namespace Image

variable {image : Image} {p : Nat} {s : Section}

theorem hashPiece_eq_plainPart (image : Image) (p : Nat) (s : Section) :
    image.hashPiece p s = image.plainPart p s := by
  unfold hashPiece plainPart hashAddress
  rw [s.without_valueRange?]

theorem hashStream_eq_plainInput (image : Image) (p : Nat) :
    image.hashStream p = image.plainInput p := by
  unfold hashStream plainInput
  rw [funext (image.hashPiece_eq_plainPart p)]

/-- One section is fed as it is written down, whether or not the file holds it. -/
theorem hashSection_eq_plain (h : s.WindowFits p) (hasher : Sha1.Hasher) :
    image.hashSection p hasher s = .ok (hasher.update (image.plainPart p s)) := by
  rw [hashSection_eq, hashPart_eq, if_pos h, hashPiece_eq_plainPart]
  rfl

/-- Zeros that the file does not hold are hashed like zeros that it holds. -/
theorem hashSection_zeros {t : Section} (hzeros : s.isNoBits = true) (hstored : t.isNoBits = false)
    (haddress : t.address = s.address) (hsize : t.size = s.size)
    (hcontents : image.stored t = List.replicate s.size.toNat 0) (hasher : Sha1.Hasher) :
    image.hashSection p hasher t = image.hashSection p hasher s := by
  have hcontains : t.contains p = s.contains p := by
    unfold Section.contains
    rw [haddress, hsize]
  have hwindow : t.valueWindow? p = s.valueWindow? p := by
    unfold Section.valueWindow?
    rw [hcontains, haddress]
  have hloaded : image.loaded t = image.loaded s := by
    unfold loaded
    rw [if_pos hzeros, hstored, hcontents]
    rfl
  rw [hashSection_eq, hashSection_eq, hashPart, hashPart, hwindow, hloaded, hashAddress,
    hashAddress, haddress]

/-- The contents of a section, where they can be held, are what is written down of it. -/
theorem loaded_of_contents {b : Bytes} (h : image.contents s = .ok b) : image.loaded s = b := by
  unfold contents at h
  unfold loaded
  by_cases hzeros : s.isNoBits = true
  · rw [if_pos hzeros] at h ⊢
    split at h
    · injection h
    · contradiction
  · rw [if_neg hzeros] at h ⊢
    injection h

/-- The slices that stored contents are hashed by are in range, and the bytes that are meant: a sum
that is no word is past the end like the greatest word. -/
theorem slicesFit (hlength : image.bytes.length < Elf.wordLimit) (p : Nat) :
    image.SlicesFit p where
  stored s _ := by
    have hstop : min (Bytes.saturatingAdd s.offset.toNat s.size.toNat) image.bytes.length =
        min (s.offset.toNat + s.size.toNat) image.bytes.length := by
      unfold Bytes.saturatingAdd
      omega
    rw [hstop]
    exact image.bytes.between?_clamped s.offset.toNat s.size.toNat
  hashed s _ start stop _ :=
    ⟨(image.stored s).between?_take start, (image.stored s).between?_drop stop⟩

/-- **The ID without short cuts.**  If no window leaves the range of a word, the ID is the digest of
the plain input: the address and the contents of each allocated section in table order, without the
bytes at the positions of the value.  Section by section the plain part is fed, from zeros in memory
as from zeros in the file; the pages of zeros come to an end with as many fed as there are; and the
slices of stored contents are in range and what is meant, in any file whose length is a word. -/
theorem buildId_eq_sha1_plainInput (h : image.WindowsFit p) :
    (∃ id, image.buildId p = .ok id ∧ id.bytes = Sha1.sha1 (image.plainInput p)) ∧
    (∀ s b, image.contents s = .ok b → image.loaded s = b) ∧
    (∀ s ∈ image.allocated, ∀ hasher : Sha1.Hasher,
      image.hashSection p hasher s = .ok (hasher.update (image.plainPart p s)) ∧
      ∀ t : Section, s.isNoBits = true → t.isNoBits = false → t.address = s.address →
        t.size = s.size → image.stored t = List.replicate s.size.toNat 0 →
        image.hashSection p hasher t = image.hashSection p hasher s) ∧
    (∀ (hasher : Sha1.Hasher) n,
      (∀ k, k < Sha1.Hasher.pages n → (Nat.repeat Sha1.Hasher.feedPage k (hasher, n)).2 ≠ 0) ∧
      Nat.repeat Sha1.Hasher.feedPage (Sha1.Hasher.pages n) (hasher, n) =
        (hasher.updateZeros n, 0) ∧
      hasher.updateZeros n = hasher.update (List.replicate n 0) ∧
      (hasher.updateZeros n).length = hasher.length + n) ∧
    (image.bytes.length < Elf.wordLimit → image.SlicesFit p) := by
  refine ⟨?_, fun s b => loaded_of_contents, ?_, Sha1.Hasher.repeat_feedPage_pages,
    fun hlength => slicesFit hlength p⟩
  · rw [← hashStream_eq_plainInput]
    exact exists_buildId (hashInput_eq_ok h)
  · intro s hs hasher
    refine ⟨hashSection_eq_plain (h s hs) hasher, ?_⟩
    intro t hzeros hstored haddress hsize hcontents
    exact hashSection_zeros hzeros hstored haddress hsize hcontents hasher

/-- Ten zeros in memory with the placeholder four bytes in, ten stored bytes of which the file has
four, a section that ends with the header of the placeholder, one that goes on after it, and one
elsewhere. -/
def zerosImage : Image where
  path := "fw.elf"
  bytes := [1, 2, 3, 4, 5, 6, 7, 8]
  sections := [⟨".bss", 0x1000, 10, 8, true, true⟩, ⟨".data", 0x1000, 10, 4, true, false⟩,
    ⟨".tail", 0x1002, 6, 0, true, true⟩, ⟨".noinit", 0x1002, 30, 0, true, true⟩,
    ⟨".text", 0x2000, 4, 0, true, false⟩, ⟨".comment", 0, 4, 0, false, false⟩]
  segments := []
  staticSymbols := none
  dynamicSymbols := none

/-- All that is hashed of the image, the value bytes being those from 0x1008 to 0x101c. -/
theorem buildId_zerosImage :
    zerosImage.WindowsFit 0x1004 ∧
    ∃ id, zerosImage.buildId 0x1004 = .ok id ∧ zerosImage.SlicesFit 0x1004 ∧
      id.bytes = Sha1.sha1 (
        Bytes.little 8 0x1000 ++ List.replicate 8 0 ++
        Bytes.little 8 0x1000 ++ [5, 6, 7, 8] ++
        Bytes.little 8 0x1002 ++ List.replicate 6 0 ++
        Bytes.little 8 0x1002 ++ (List.replicate 6 0 ++ List.replicate 4 0) ++
        Bytes.little 8 0x2000 ++ [1, 2, 3, 4]) := by
  have hfit : zerosImage.WindowsFit 0x1004 := by
    unfold WindowsFit
    decide +kernel
  have hinput : zerosImage.plainInput 0x1004 =
      Bytes.little 8 0x1000 ++ List.replicate 8 0 ++
      Bytes.little 8 0x1000 ++ [5, 6, 7, 8] ++
      Bytes.little 8 0x1002 ++ List.replicate 6 0 ++
      Bytes.little 8 0x1002 ++ (List.replicate 6 0 ++ List.replicate 4 0) ++
      Bytes.little 8 0x2000 ++ [1, 2, 3, 4] := by
    decide +kernel
  obtain ⟨⟨id, hid, hbytes⟩, -, -, -, hslices⟩ := buildId_eq_sha1_plainInput hfit
  refine ⟨hfit, id, hid, hslices (by decide +kernel), ?_⟩
  rw [hbytes, hinput]

end Image

end FirmwareStamp
