import FirmwareStamp.Identity
import Mathlib.Data.List.Forall2

/-!
# What the build ID depends on

The bytes that are hashed, without the monad of the overflow checks: `hashStream` is one run of
pieces, a piece being the address of an allocated section and its contents around the value bytes.

    image.WindowsFit p → image.hashInput p = .ok (image.hashStream p)        (hashInput_eq_ok)
    image.buildId p = ofHasher ∘ start.update <$> image.hashInput p          (buildId_eq_hashInput)

For images whose allocated sections have the same sizes, kinds and lengths the stream settles the
addresses and all contents outside the value bytes, and is settled by them
(`hashInput_eq_hashInput_iff`).
-/

namespace FirmwareStamp

/-! ## The stream -/

namespace Section

/-- Whether the ends of the value bytes are words, if the section holds the placeholder. -/
def WindowFits (s : Section) (placeholder : Nat) : Prop :=
  s.contains placeholder = true → placeholder - s.address.toNat + placeholderLength < Elf.wordLimit

instance (s : Section) (placeholder : Nat) : Decidable (s.WindowFits placeholder) :=
  inferInstanceAs (Decidable (_ → _))

/-- Whether the byte at an offset in the section is a value byte of the placeholder. -/
def HoldsValue (s : Section) (placeholder i : Nat) : Prop :=
  s.contains placeholder = true ∧ placeholder - s.address.toNat + Magic.length ≤ i ∧
    i < placeholder - s.address.toNat + placeholderLength

/-- Where in the section the value bytes stand, whether or not the ends are words. -/
def valueRange? (s : Section) (placeholder : Nat) : Option (Nat × Nat) :=
  if s.contains placeholder then
    some (placeholder - s.address.toNat + Magic.length,
      placeholder - s.address.toNat + placeholderLength)
  else none

end Section

namespace Image

/-- Whether no window of value bytes leaves the range of a word. -/
def WindowsFit (image : Image) (placeholder : Nat) : Prop :=
  ∀ s ∈ image.allocated, s.WindowFits placeholder

/-- What is hashed of a section. -/
def hashPiece (image : Image) (placeholder : Nat) (s : Section) : Bytes :=
  hashAddress s ++ without (image.loaded s) (s.valueRange? placeholder)

/-- What is hashed of an image. -/
def hashStream (image : Image) (placeholder : Nat) : Bytes :=
  image.allocated.flatMap (image.hashPiece placeholder)

end Image

/-! ## Lemmas -/

/-- The bytes of a word settle it. -/
theorem Bytes.little_toNat_inj {m n : UInt64} (h : little 8 m.toNat = little 8 n.toNat) :
    m = n := by
  have hm := ofLittle_little 8 m.toNat m.toNat_lt
  have hn := ofLittle_little 8 n.toNat n.toNat_lt
  rw [h, hn] at hm
  exact UInt64.toNat_inj.1 hm.symm

namespace Section

theorem valueWindow?_eq (s : Section) (p : Nat) :
    s.valueWindow? p =
      if s.WindowFits p then .ok (s.valueRange? p) else .error .overflow := by
  unfold valueWindow? valueRange? WindowFits checkWord
  by_cases hc : s.contains p = true
  · simp only [hc, if_true, true_imp_iff]
    by_cases hstart : p - s.address.toNat + Magic.length < Elf.wordLimit
    · rw [if_pos hstart]
      -- the second sum is that of the fit, regrouped
      have hstop : p - s.address.toNat + Magic.length + BuildId.length =
          p - s.address.toNat + placeholderLength := by
        rw [Nat.add_assoc, placeholderLength]
      simp only [bind, Except.bind, hstop]
      by_cases hfit : p - s.address.toNat + placeholderLength < Elf.wordLimit
      · rw [if_pos hfit, if_pos hfit]
        rfl
      · rw [if_neg hfit, if_neg hfit]
    · rw [if_neg hstart, if_neg]
      · rfl
      · intro hfit
        apply hstart
        unfold placeholderLength at hfit
        omega
  · simp [hc]
    rfl

theorem valueRange?_congr {s t : Section} (haddress : s.address = t.address)
    (hsize : s.size = t.size) (p : Nat) : s.valueRange? p = t.valueRange? p := by
  unfold valueRange? contains
  rw [haddress, hsize]

end Section

namespace Image

/-- What is left of two runs of bytes of one length outside a window tells them apart exactly if
some byte outside the window does. -/
theorem take_append_drop_eq_iff {x y : Bytes} (hlen : x.length = y.length) (start stop : Nat) :
    x.take start ++ x.drop stop = y.take start ++ y.drop stop ↔
      ∀ i, i < start ∨ stop ≤ i → x[i]? = y[i]? := by
  constructor
  · intro h i hi
    obtain ⟨hbefore, hafter⟩ := List.append_inj h (by simp [hlen])
    rcases hi with hi | hi
    · have := congrArg (fun l : Bytes => l[i]?) hbefore
      simpa only [List.getElem?_take_of_lt hi] using this
    · have := congrArg (fun l : Bytes => l[i - stop]?) hafter
      simp only [List.getElem?_drop] at this
      rwa [show stop + (i - stop) = i by omega] at this
  · intro h
    congr 1
    · apply List.ext_getElem?
      intro i
      by_cases hi : i < start
      · rw [List.getElem?_take_of_lt hi, List.getElem?_take_of_lt hi, h i (.inl hi)]
      · rw [List.getElem?_take_eq_none (by omega), List.getElem?_take_eq_none (by omega)]
    · apply List.ext_getElem?
      intro i
      rw [List.getElem?_drop, List.getElem?_drop, h (stop + i) (.inr (by omega))]

theorem without_eq_iff {x y : Bytes} (hlen : x.length = y.length) (s : Section) (p : Nat) :
    without x (s.valueRange? p) = without y (s.valueRange? p) ↔
      ∀ i, ¬ s.HoldsValue p i → x[i]? = y[i]? := by
  unfold Section.valueRange? Section.HoldsValue
  by_cases hc : s.contains p = true
  · rw [if_pos hc]
    simp only [without, hc, true_and]
    rw [take_append_drop_eq_iff hlen]
    constructor
    · intro h i hi
      exact h i (by omega)
    · intro h i hi
      exact h i (by omega)
  · rw [if_neg hc]
    simp only [without, hc]
    constructor
    · intro h i _
      rw [h]
    · intro h
      exact List.ext_getElem? fun i => h i (by simp)

theorem length_without_eq {x y : Bytes} (hlen : x.length = y.length) (window : Option (Nat × Nat)) :
    (without x window).length = (without y window).length := by
  cases window with
  | none => exact hlen
  | some w => simp [without, hlen]

theorem hashAddress_inj {s t : Section} (h : hashAddress s = hashAddress t) :
    s.address = t.address :=
  Bytes.little_toNat_inj h

theorem hashPart_eq (image : Image) (p : Nat) (s : Section) :
    image.hashPart p s =
      if s.WindowFits p then .ok (image.hashPiece p s) else .error .overflow := by
  unfold hashPart
  rw [s.valueWindow?_eq]
  split <;> rfl

theorem mapM_hashPart {image : Image} {p : Nat} {sections : List Section}
    (h : ∀ s ∈ sections, s.WindowFits p) :
    sections.mapM (image.hashPart p) = .ok (sections.map (image.hashPiece p)) := by
  induction sections with
  | nil => rfl
  | cons s rest ih =>
    rw [List.mapM_cons, hashPart_eq, if_pos (h s List.mem_cons_self),
      ih fun t ht => h t (List.mem_cons_of_mem _ ht)]
    rfl

/-- If no window overflows there is something to hash, and it is the stream. -/
theorem hashInput_eq_ok {image : Image} {p : Nat} (h : image.WindowsFit p) :
    image.hashInput p = .ok (image.hashStream p) := by
  unfold hashInput
  rw [mapM_hashPart h]
  simp only [bind, Except.bind, pure, Except.pure, hashStream, List.flatMap]

theorem mapM_hashPart_eq_error {image : Image} {p : Nat} {sections : List Section}
    (h : ¬ ∀ s ∈ sections, s.WindowFits p) :
    sections.mapM (image.hashPart p) = .error .overflow := by
  induction sections with
  | nil => exact absurd (fun s hs => absurd hs List.not_mem_nil) h
  | cons s rest ih =>
    rw [List.mapM_cons, hashPart_eq]
    by_cases hs : s.WindowFits p
    · have hrest : ¬ ∀ t ∈ rest, t.WindowFits p :=
        fun hrest => h (List.forall_mem_cons.2 ⟨hs, hrest⟩)
      rw [if_pos hs, ih hrest]
      rfl
    · rw [if_neg hs]
      rfl

/-- If a window overflows there is nothing to hash. -/
theorem hashInput_eq_error {image : Image} {p : Nat} (h : ¬ image.WindowsFit p) :
    image.hashInput p = .error .overflow := by
  unfold hashInput
  rw [mapM_hashPart_eq_error h]
  rfl

theorem hashInput_eq_ok_iff {image : Image} {p : Nat} {x : Bytes} :
    image.hashInput p = .ok x ↔ image.WindowsFit p ∧ x = image.hashStream p := by
  by_cases hfit : image.WindowsFit p
  · rw [hashInput_eq_ok hfit, Except.ok.injEq]
    exact ⟨fun h => ⟨hfit, h.symm⟩, fun h => h.2.symm⟩
  · rw [hashInput_eq_error hfit]
    exact ⟨fun h => by contradiction, fun h => absurd h.1 hfit⟩

theorem foldlM_hashSection (image : Image) (p : Nat) (h : Sha1.Hasher) (sections : List Section) :
    sections.foldlM (image.hashSection p) h =
      (fun parts => h.update parts.flatten) <$> sections.mapM (image.hashPart p) := by
  induction sections generalizing h with
  | nil => rfl
  | cons s rest ih =>
    rw [List.foldlM_cons, List.mapM_cons, hashSection_eq]
    cases image.hashPart p s with
    | error e => rfl
    | ok part =>
      simp only [Functor.map, Except.map, bind, Except.bind, ih]
      cases rest.mapM (image.hashPart p) with
      | error e => rfl
      | ok parts =>
        simp only [pure, Except.pure, List.flatten_cons, Sha1.Hasher.update_append]

/-- The ID is the digest of the hash input. -/
theorem buildId_eq_hashInput (image : Image) (p : Nat) :
    image.buildId p =
      (fun input => BuildId.ofHasher (Sha1.Hasher.start.update input)) <$> image.hashInput p := by
  unfold buildId hashInput
  rw [foldlM_hashSection]
  cases image.allocated.mapM (image.hashPart p) <;> rfl

theorem exists_buildId {image : Image} {p : Nat} {x : Bytes} (hx : image.hashInput p = .ok x) :
    ∃ id, image.buildId p = .ok id ∧ id.bytes = Sha1.sha1 x := by
  rw [buildId_eq_hashInput, hx]
  exact ⟨_, rfl, rfl⟩

/-- If no window overflows there is an ID. -/
theorem exists_buildId_of_windowsFit {image : Image} {p : Nat} (h : image.WindowsFit p) :
    ∃ id, image.buildId p = .ok id := by
  obtain ⟨id, hid, -⟩ := exists_buildId (hashInput_eq_ok h)
  exact ⟨id, hid⟩

/-! ## Two images -/

/-- Whether the allocated sections of two images are as many and have, in table order, the same
sizes, kinds and lengths of contents. -/
def SameShape (a b : Image) : Prop :=
  List.Forall₂ (fun s t => s.size = t.size ∧ s.isNoBits = t.isNoBits ∧
    (a.loaded s).length = (b.loaded t).length) a.allocated b.allocated

/-- Whether the allocated sections of two images have, in table order, the same addresses and the
same contents outside the value bytes. -/
def SameLoad (a b : Image) (placeholder : Nat) : Prop :=
  List.Forall₂ (fun s t => s.address = t.address ∧
    ∀ i, ¬ s.HoldsValue placeholder i → (a.loaded s)[i]? = (b.loaded t)[i]?) a.allocated b.allocated

/-- The first piece of a stream can be told from the rest, if its section is known but for the
address and the contents. -/
theorem hashPiece_append_eq_iff {a b : Image} {p : Nat} {s t : Section} (hsize : s.size = t.size)
    (hlen : (a.loaded s).length = (b.loaded t).length) (x y : Bytes) :
    a.hashPiece p s ++ x = b.hashPiece p t ++ y ↔
      (s.address = t.address ∧
        ∀ i, ¬ s.HoldsValue p i → (a.loaded s)[i]? = (b.loaded t)[i]?) ∧ x = y := by
  unfold hashPiece
  rw [List.append_assoc, List.append_assoc]
  constructor
  · intro h
    obtain ⟨haddress, htail⟩ := List.append_inj h (by simp [hashAddress])
    replace haddress := hashAddress_inj haddress
    -- only now are the two windows known to be one
    rw [← Section.valueRange?_congr haddress hsize] at htail
    obtain ⟨hcontents, hrest⟩ := List.append_inj htail (length_without_eq hlen _)
    exact ⟨⟨haddress, (without_eq_iff hlen s p).1 hcontents⟩, hrest⟩
  · rintro ⟨⟨haddress, hcontents⟩, rfl⟩
    rw [← Section.valueRange?_congr haddress hsize, (without_eq_iff hlen s p).2 hcontents,
      show hashAddress s = hashAddress t by unfold hashAddress; rw [haddress]]

theorem hashStream_eq_hashStream_iff {a b : Image} {p : Nat} (hshape : a.SameShape b) :
    a.hashStream p = b.hashStream p ↔ a.SameLoad b p := by
  unfold SameShape at hshape
  unfold hashStream SameLoad
  generalize a.allocated = sections at hshape ⊢
  generalize b.allocated = others at hshape ⊢
  induction hshape with
  | nil => simp
  | cons hhead _ ih =>
    obtain ⟨hsize, -, hlen⟩ := hhead
    rw [List.flatMap_cons, List.flatMap_cons, hashPiece_append_eq_iff hsize hlen, ih,
      List.forall₂_cons]

/-- **What the ID depends on.**  Of images of one shape, in which no window overflows, the same
bytes are hashed exactly if the sections start at the same addresses and agree outside the value
bytes. -/
theorem hashInput_eq_hashInput_iff {a b : Image} {p : Nat} (ha : a.WindowsFit p)
    (hb : b.WindowsFit p) (hshape : a.SameShape b) :
    ∃ x y, a.hashInput p = .ok x ∧ a.buildId p = .ok (.ofHasher (Sha1.Hasher.start.update x)) ∧
      b.hashInput p = .ok y ∧ b.buildId p = .ok (.ofHasher (Sha1.Hasher.start.update y)) ∧
      (x = y ↔ a.SameLoad b p) ∧ (a.SameLoad b p → a.buildId p = b.buildId p) := by
  have hx := hashInput_eq_ok ha
  have hy := hashInput_eq_ok hb
  have hidx := buildId_eq_hashInput a p
  have hidy := buildId_eq_hashInput b p
  rw [hx] at hidx
  rw [hy] at hidy
  have hiff := hashStream_eq_hashStream_iff (p := p) hshape
  refine ⟨_, _, hx, hidx, hy, hidy, hiff, ?_⟩
  intro hload
  rw [hidx, hidy, hiff.2 hload]

/-- A linked image: a placeholder in the middle of a section, then a section without contents. -/
def linkedSample : Image where
  path := "a.elf"
  bytes := List.replicate 4 1 ++ Magic.standard.bytes ++ List.replicate 20 0 ++ [7, 8]
  sections := [⟨"text", 0x100, 30, 0, true, false⟩, ⟨"bss", 0x10c, 16, 0, true, true⟩]
  segments := []
  staticSymbols := none
  dynamicSymbols := none

/-- The same image stamped, moved about in its file and with a section that is not loaded. -/
def strippedSample : Image where
  path := "b.elf"
  bytes := [9, 9] ++ List.replicate 4 1 ++ Magic.standard.bytes ++ List.replicate 20 5 ++ [7, 8]
  sections := [⟨"note", 0, 2, 0, false, false⟩, ⟨"t", 0x100, 30, 2, true, false⟩,
    ⟨"b", 0x10c, 16, 1, true, true⟩]
  segments := []
  staticSymbols := none
  dynamicSymbols := some []

/-- The linked image with another byte behind the value bytes. -/
def changedSample : Image :=
  { linkedSample with
    bytes := List.replicate 4 1 ++ Magic.standard.bytes ++ List.replicate 20 0 ++ [7, 9] }

/-- Stamping and stripping leave what is hashed as it is, and with it the ID.  The byte behind the
value bytes changes it. -/
theorem buildId_linkedSample :
    linkedSample.WindowsFit 0x104 ∧ strippedSample.WindowsFit 0x104 ∧
      changedSample.WindowsFit 0x104 ∧
      (linkedSample.SameShape strippedSample ∧ linkedSample.SameLoad strippedSample 0x104 ∧
        linkedSample.buildId 0x104 = strippedSample.buildId 0x104 ∧
        ∃ x, linkedSample.hashInput 0x104 = .ok x ∧
          linkedSample.buildId 0x104 = .ok (.ofHasher (Sha1.Hasher.start.update x)) ∧
          strippedSample.hashInput 0x104 = .ok x ∧
          strippedSample.buildId 0x104 = .ok (.ofHasher (Sha1.Hasher.start.update x))) ∧
      (linkedSample.SameShape changedSample ∧ ¬ linkedSample.SameLoad changedSample 0x104 ∧
        ∃ x y, linkedSample.hashInput 0x104 = .ok x ∧ changedSample.hashInput 0x104 = .ok y ∧
          x ≠ y) := by
  have ha : linkedSample.WindowsFit 0x104 := by unfold WindowsFit; decide
  have hb : strippedSample.WindowsFit 0x104 := by unfold WindowsFit; decide
  have hc : changedSample.WindowsFit 0x104 := by unfold WindowsFit; decide
  have hshape : linkedSample.SameShape strippedSample :=
    .cons (by decide) (.cons (by decide) .nil)
  have hshape' : linkedSample.SameShape changedSample :=
    .cons (by decide) (.cons (by decide) .nil)
  have hsame : linkedSample.hashStream 0x104 = strippedSample.hashStream 0x104 := by
    decide +kernel
  have hother : linkedSample.hashStream 0x104 ≠ changedSample.hashStream 0x104 := by
    decide +kernel
  refine ⟨ha, hb, hc, ⟨hshape, ?_⟩, hshape', ?_⟩
  · obtain ⟨x, y, hx, hidx, hy, hidy, hiff, hid⟩ := hashInput_eq_hashInput_iff ha hb hshape
    obtain rfl : x = y := by
      rw [(hashInput_eq_ok_iff.1 hx).2, (hashInput_eq_ok_iff.1 hy).2, hsame]
    have hload := hiff.1 rfl
    exact ⟨hload, hid hload, x, hx, hidx, hy, hidy⟩
  · obtain ⟨x, y, hx, -, hy, -, hiff, -⟩ := hashInput_eq_hashInput_iff ha hc hshape'
    have hne : x ≠ y := by
      rwa [(hashInput_eq_ok_iff.1 hx).2, (hashInput_eq_ok_iff.1 hy).2]
    exact ⟨fun hload => hne (hiff.2 hload), x, y, hx, hy, hne⟩

end Image

end FirmwareStamp
