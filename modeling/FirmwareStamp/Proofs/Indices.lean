import FirmwareStamp.Identity
import FirmwareStamp.IntelHex.RoundTrip
import FirmwareStamp.Proofs.Narrow
import FirmwareStamp.Proofs.Windows

/-!
# Slices and indices in range

Windows of a file are cut off at its end, so that none is out of range.  A program has to do that
in the numbers it slices by: `between?` is a slice with a start and a stop, which there is only if
they are in order and in range.  The slices by clamped numbers are there, and are the windows:

    b.between? (min start b.length) (min (start + length) b.length) = some (b.slice start length)
                                                                              (between?_clamped)

An Intel HEX file is read and written by slots, a slot being the index of a record and an index in
its payload.  Slots are found before anything is written and are good in every listing of the same
outline (`slot_of_locate?`), so also while the bytes before them are written.
-/

namespace FirmwareStamp

/-! ## Slices -/

namespace Bytes

/-- The bytes from one index up to another, if the two are in order and in range. -/
def between? (b : Bytes) (start stop : Nat) : Option Bytes :=
  if start ≤ stop ∧ stop ≤ b.length then some (b.slice start (stop - start)) else none

/-- The sum of two words, or the greatest word if that is no word. -/
def saturatingAdd (m n : Nat) : Nat :=
  min (m + n) (Elf.wordLimit - 1)

theorem saturatingAdd_eq {m n : Nat} (h : m + n < Elf.wordLimit) : saturatingAdd m n = m + n := by
  unfold saturatingAdd
  omega

/-- A slice by numbers cut off at the end is the window that is cut off there. -/
theorem between?_clamped (b : Bytes) (start length : Nat) :
    b.between? (min start b.length) (min (start + length) b.length) =
      some (b.slice start length) := by
  unfold between?
  rw [if_pos (by omega)]
  congr 1
  apply List.ext_getElem?
  intro i
  rw [getElem?_slice, getElem?_slice]
  by_cases hi : start + i < b.length
  · rw [show min start b.length = start by omega]
    by_cases hlt : i < length
    · rw [if_pos hlt, if_pos (by omega)]
    · rw [if_neg hlt, if_neg (by omega)]
  · rw [if_neg (by omega), List.getElem?_eq_none (by omega), ite_self]

theorem between?_take (b : Bytes) (stop : Nat) :
    b.between? 0 (min stop b.length) = some (b.take stop) := by
  have h := b.between?_clamped 0 stop
  rw [Nat.zero_min, Nat.zero_add] at h
  rw [h, slice, List.drop_zero]

theorem between?_drop (b : Bytes) (start : Nat) :
    b.between? (min start b.length) b.length = some (b.drop start) := by
  have h := b.between?_clamped start b.length
  rw [show min (start + b.length) b.length = b.length by omega] at h
  rw [h, slice, List.take_of_length_le]
  rw [List.length_drop]
  omega

end Bytes

/-- A placeholder's window, in the numbers a file is sliced by. -/
theorem Bytes.between?_placeholder (b : Bytes) {offset : Nat} (h : offset < Elf.wordLimit) :
    ∃ found, b.between? (min offset b.length)
        (min (saturatingAdd (min offset b.length) placeholderLength) b.length) = some found ∧
      (b.length < Elf.wordLimit → found = b.slice offset placeholderLength) := by
  unfold between? saturatingAdd
  rw [if_pos (by omega)]
  refine ⟨_, rfl, fun hlength => ?_⟩
  have hclamped := b.between?_clamped offset placeholderLength
  unfold between? at hclamped
  rw [if_pos (by omega)] at hclamped
  injection hclamped with hclamped
  rw [← hclamped]
  congr 1
  omega

/-- The slices of the bytes in which a placeholder is looked for: the value is sliced off only after
the magic was found. -/
theorem Descriptor.between?_check (d : Descriptor) (found : Bytes) :
    found.between? 0 (min found.length Magic.length) = some (found.take Magic.length) ∧
      (found.take Magic.length = d.magic.bytes →
        found.between? Magic.length found.length = some (found.drop Magic.length)) := by
  refine ⟨?_, fun hmagic => ?_⟩
  · rw [Nat.min_comm]
    exact found.between?_take Magic.length
  · have hlength := congrArg List.length hmagic
    rw [List.length_take, d.magic.length_eq] at hlength
    have h := found.between?_drop Magic.length
    rwa [show min Magic.length found.length = Magic.length from hlength] at h

/-- Whether the slices an image is hashed by are in range and give what is hashed. -/
structure Image.SlicesFit (image : Image) (placeholder : Nat) : Prop where
  stored : ∀ s ∈ image.sections, image.bytes.between? (min s.offset.toNat image.bytes.length)
    (min (Bytes.saturatingAdd s.offset.toNat s.size.toNat) image.bytes.length) =
      some (image.stored s)
  hashed : ∀ s ∈ image.allocated, ∀ start stop,
    s.valueWindow? placeholder = .ok (some (start, stop)) →
      (image.stored s).between? 0 (min start (image.stored s).length) =
          some ((image.stored s).take start) ∧
        (image.stored s).between? (min stop (image.stored s).length) (image.stored s).length =
          some ((image.stored s).drop stop)

theorem Image.Narrow.slicesFit {image : Image} (h : image.Narrow) (placeholder : Nat) :
    image.SlicesFit placeholder where
  stored s hs := by
    obtain ⟨-, hoffset, hsize⟩ := h.sections s hs
    rw [Bytes.saturatingAdd_eq]
    · exact image.bytes.between?_clamped _ _
    · exact add_lt_wordLimit hoffset hsize
  hashed s _ start stop _ :=
    ⟨(image.stored s).between?_take start, (image.stored s).between?_drop stop⟩

/-! ## Slots -/

namespace IntelHex

namespace Record

/-- The index in the payload of the byte at an address, if the record covers it. -/
def posAt? (base address : Nat) : Record → Option Nat
  | .data offset payload =>
    if base + offset.toNat ≤ address ∧ address - (base + offset.toNat) < payload.length then
      some (address - (base + offset.toNat))
    else none
  | _ => none

theorem posAt?_outline (base address : Nat) (r : Record) :
    r.outline.posAt? base address = r.posAt? base address := by
  cases r <;> simp [outline, posAt?]

theorem baseAfter_outline (base : Nat) (r : Record) : r.outline.baseAfter base = r.baseAfter base := by
  cases r <;> rfl

theorem byteAt?_eq_none_iff {base address : Nat} {r : Record} :
    r.byteAt? base address = none ↔ r.posAt? base address = none := by
  cases r with
  | data offset payload =>
    unfold byteAt? posAt?
    dsimp only
    split
    · next hle => simp [hle]
    · next hlt => simp [hlt]
  | _ => simp [byteAt?, posAt?]

theorem byteAt?_of_posAt? {base address pos : Nat} {r : Record}
    (h : r.posAt? base address = some pos) : ∃ offset payload, r = .data offset payload ∧
      pos < payload.length ∧ r.byteAt? base address = payload[pos]? := by
  cases r with
  | data offset payload =>
    unfold posAt? at h
    dsimp only at h
    split at h
    · next hin =>
      injection h with h
      subst h
      exact ⟨offset, payload, rfl, hin.2, if_pos hin.1⟩
    · contradiction
  | _ => contradiction

end Record

namespace Listing

/-- The slot of an address, from a base address on. -/
def locateFrom? (address : Nat) : (base : Nat) → List Record → Option (Nat × Nat)
  | _, [] => none
  | base, r :: rest =>
    match r.posAt? base address with
    | some pos => some (0, pos)
    | none => (locateFrom? address (r.baseAfter base) rest).map fun slot => (slot.1 + 1, slot.2)

/-- The slot of an address: the index of the first record that covers it, and the index of its byte
in the payload. -/
def locate? (l : Listing) (address : Nat) : Option (Nat × Nat) :=
  if address < addressLimit then locateFrom? address 0 l.records else none

/-- Whether a slot is in range and holds the byte at an address. -/
def Slot (l : Listing) (address : Nat) (slot : Nat × Nat) : Prop :=
  ∃ offset payload, l.records[slot.1]? = some (.data offset payload) ∧
    slot.2 < payload.length ∧ l.get? address = payload[slot.2]?

theorem locateFrom?_outline (address base : Nat) (records : List Record) :
    locateFrom? address base (records.map Record.outline) = locateFrom? address base records := by
  induction records generalizing base with
  | nil => rfl
  | cons r rest ih =>
    simp only [List.map_cons, locateFrom?, Record.posAt?_outline, Record.baseAfter_outline, ih]

/-- Slots depend on the outline alone. -/
theorem locate?_congr {l m : Listing} (h : m.outline = l.outline) (address : Nat) :
    m.locate? address = l.locate? address := by
  unfold locate?
  rw [← locateFrom?_outline, ← locateFrom?_outline address 0 l.records]
  exact if_congr Iff.rfl (congrArg _ h) rfl

theorem locateFrom?_isSome (address base : Nat) (records : List Record) :
    (locateFrom? address base records).isSome = (getFrom? address base records).isSome := by
  induction records generalizing base with
  | nil => rfl
  | cons r rest ih =>
    simp only [locateFrom?, getFrom?]
    cases hpos : r.posAt? base address with
    | none =>
      rw [Record.byteAt?_eq_none_iff.2 hpos]
      simpa using ih (r.baseAfter base)
    | some pos =>
      obtain ⟨_, payload, -, hlt, hbyte⟩ := Record.byteAt?_of_posAt? hpos
      rw [hbyte, List.getElem?_eq_getElem hlt]
      rfl

/-- There is a slot exactly where a byte can be read. -/
theorem locate?_isSome (l : Listing) (address : Nat) :
    (l.locate? address).isSome = (l.get? address).isSome := by
  unfold locate? get?
  split
  · exact locateFrom?_isSome address 0 l.records
  · rfl

theorem slot_of_locateFrom? {address base : Nat} {records : List Record} {slot : Nat × Nat}
    (h : locateFrom? address base records = some slot) :
    ∃ offset payload, records[slot.1]? = some (.data offset payload) ∧
      slot.2 < payload.length ∧ getFrom? address base records = payload[slot.2]? := by
  induction records generalizing base slot with
  | nil => contradiction
  | cons r rest ih =>
    simp only [locateFrom?] at h
    cases hpos : r.posAt? base address with
    | some pos =>
      rw [hpos] at h
      cases h
      obtain ⟨offset, payload, rfl, hlt, hbyte⟩ := Record.byteAt?_of_posAt? hpos
      refine ⟨offset, payload, rfl, hlt, ?_⟩
      simp only [getFrom?, hbyte, List.getElem?_eq_getElem hlt]
    | none =>
      rw [hpos] at h
      obtain ⟨next, hnext, rfl⟩ := Option.map_eq_some_iff.1 h
      obtain ⟨offset, payload, hrecord, hlt, hget⟩ := ih hnext
      refine ⟨offset, payload, hrecord, hlt, ?_⟩
      simp only [getFrom?, Record.byteAt?_eq_none_iff.2 hpos, hget]

/-- **Slots stay good.**  A slot found in one listing is in range in every listing of its outline,
and holds there the byte at its address. -/
theorem slot_of_locate? {l m : Listing} {address : Nat} {slot : Nat × Nat}
    (houtline : m.outline = l.outline) (h : l.locate? address = some slot) :
    m.Slot address slot := by
  rw [← locate?_congr houtline] at h
  unfold locate? at h
  split at h
  · next hlt =>
    obtain ⟨offset, payload, hrecord, hpos, hget⟩ := slot_of_locateFrom? h
    refine ⟨offset, payload, hrecord, hpos, ?_⟩
    unfold get?
    rw [if_pos hlt, hget]
  · contradiction

end Listing

end IntelHex

end FirmwareStamp
