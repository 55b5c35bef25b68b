import FirmwareStamp.Proofs.HexMemory
import FirmwareStamp.Proofs.Indices

/-!
# Writing an Intel HEX file by slots

A program does not look up a byte and store it, one byte after the other: it finds the slots of all
bytes, and only if every byte has one it stores them.  Both come to the same:

    b.length < addressLimit → l.write? a b = l.writeBySlots? a b              (write?_eq_writeBySlots?)

Storing a byte moves no slot, so the slots found first are good for all bytes.  Different addresses
have different slots (`locate?_inj`), so that of two writes to the same addresses the second counts,
also for the bytes of records that others hide (`write?_write?`).
-/

namespace FirmwareStamp

namespace IntelHex

/-- A data record with the byte at an index of its payload changed. -/
def Record.setAt (pos : Nat) (byte : UInt8) : Record → Record
  | .data offset payload => .data offset (payload.set pos byte)
  | r => r

namespace Listing

/-- Stores a byte in a slot. -/
def store (l : Listing) (slot : Nat × Nat) (byte : UInt8) : Listing :=
  ⟨l.records.modify slot.1 (Record.setAt slot.2 byte)⟩

/-- Stores bytes in slots, one after the other. -/
def storeAll (l : Listing) (slots : List (Nat × Nat)) (b : Bytes) : Listing :=
  (slots.zip b).foldl (fun m entry => m.store entry.1 entry.2) l

/-- The slots of an address and those after it; none if some of the addresses are not covered. -/
def slots? (l : Listing) (address length : Nat) : Option (List (Nat × Nat)) :=
  (List.range' address length).mapM l.locate?

/-- Finds the slots of all bytes and then stores the bytes in them.  Lengths count modulo the size
of the address space. -/
def writeBySlots? (l : Listing) (address : Nat) (b : Bytes) : Option Listing :=
  (l.slots? address (b.length % addressLimit)).map fun slots => l.storeAll slots b

end Listing

/-! ## One slot -/

namespace Record

theorem setByte_of_posAt? {base address pos : Nat} {r : Record}
    (h : r.posAt? base address = some pos) (byte : UInt8) :
    r.setByte base address byte = r.setAt pos byte := by
  cases r with
  | data offset payload =>
    unfold posAt? at h
    dsimp only at h
    split at h
    · injection h with h
      rw [← h]
      rfl
    · contradiction
  | _ => contradiction

theorem posAt?_inj {base a b pos : Nat} {r : Record} (ha : r.posAt? base a = some pos)
    (hb : r.posAt? base b = some pos) : a = b := by
  cases r with
  | data offset payload =>
    unfold posAt? at ha hb
    dsimp only at ha hb
    split at ha
    · split at hb
      · injection ha with ha
        injection hb with hb
        omega
      · contradiction
    · contradiction
  | _ => contradiction

theorem outline_setAt (pos : Nat) (byte : UInt8) (r : Record) :
    (r.setAt pos byte).outline = r.outline := by
  cases r <;> simp [setAt, outline]

theorem setAt_setAt (pos : Nat) (x y : UInt8) (r : Record) :
    (r.setAt pos x).setAt pos y = r.setAt pos y := by
  cases r with
  | data offset payload => exact congrArg (Record.data offset) (List.set_set x)
  | _ => rfl

theorem setAt_comm {p q : Nat} (h : p ≠ q) (x y : UInt8) (r : Record) :
    (r.setAt p x).setAt q y = (r.setAt q y).setAt p x := by
  cases r with
  | data offset payload => exact congrArg (Record.data offset) (List.set_comm x y h)
  | _ => rfl

end Record

namespace Listing

variable {l m : Listing} {address a b length : Nat} {slot u : Nat × Nat} {byte x y : UInt8}

theorem outline_store (l : Listing) (slot : Nat × Nat) (byte : UInt8) :
    (l.store slot byte).outline = l.outline := by
  unfold outline store
  apply List.ext_getElem?
  intro i
  rw [List.getElem?_map, List.getElem?_map, List.getElem?_modify]
  cases l.records[i]? with
  | none => rfl
  | some r =>
    simp only [Option.map_eq_map, Option.map_some]
    split
    · rw [Record.outline_setAt]
    · rfl

/-- Of two bytes stored in one slot the second counts. -/
theorem store_store (l : Listing) (slot : Nat × Nat) (x y : UInt8) :
    (l.store slot x).store slot y = l.store slot y := by
  simp only [store, List.modify_modify_eq]
  congr 2
  funext r
  exact r.setAt_setAt slot.2 x y

theorem store_comm (h : slot ≠ u) (x y : UInt8) :
    (l.store slot x).store u y = (l.store u y).store slot x := by
  simp only [store]
  by_cases hrecord : slot.1 = u.1
  · -- two bytes of one record are at different indices
    have hpos : slot.2 ≠ u.2 := fun hpos => h (Prod.ext hrecord hpos)
    rw [hrecord, List.modify_modify_eq, List.modify_modify_eq]
    congr 2
    funext r
    exact r.setAt_comm hpos x y
  · rw [List.modify_modify_ne _ _ _ hrecord]

theorem setFrom?_eq_map (address : Nat) (byte : UInt8) (base : Nat) (records : List Record) :
    setFrom? address byte base records = (locateFrom? address base records).map fun slot =>
      records.modify slot.1 (Record.setAt slot.2 byte) := by
  induction records generalizing base with
  | nil => rfl
  | cons r rest ih =>
    simp only [setFrom?, locateFrom?]
    cases hpos : r.posAt? base address with
    | none =>
      rw [Record.byteAt?_eq_none_iff.2 hpos]
      dsimp only
      rw [ih, Option.map_map, Option.map_map]
      rfl
    | some pos =>
      obtain ⟨_, payload, -, hlt, hbyte⟩ := Record.byteAt?_of_posAt? hpos
      rw [hbyte, List.getElem?_eq_getElem hlt]
      dsimp only
      rw [Record.setByte_of_posAt? hpos]
      rfl

/-- Setting the byte at an address is storing it in the slot of the address. -/
theorem set?_eq_map (l : Listing) (address : Nat) (byte : UInt8) :
    l.set? address byte = (l.locate? address).map fun slot => l.store slot byte := by
  unfold set? locate?
  split
  · rw [setFrom?_eq_map, Option.map_map]
    rfl
  · rfl

theorem locateFrom?_inj {base : Nat} {records : List Record}
    (ha : locateFrom? a base records = some slot) (hb : locateFrom? b base records = some slot) :
    a = b := by
  induction records generalizing base slot with
  | nil => contradiction
  | cons r rest ih =>
    simp only [locateFrom?] at ha hb
    cases hposa : r.posAt? base a with
    | some p =>
      rw [hposa] at ha
      cases ha
      cases hposb : r.posAt? base b with
      | some q =>
        rw [hposb] at hb
        cases hb
        exact Record.posAt?_inj hposa hposb
      | none =>
        rw [hposb] at hb
        obtain ⟨_, -, hnext⟩ := Option.map_eq_some_iff.1 hb
        cases hnext
    | none =>
      rw [hposa] at ha
      obtain ⟨next, hnexta, rfl⟩ := Option.map_eq_some_iff.1 ha
      cases hposb : r.posAt? base b with
      | some q =>
        rw [hposb] at hb
        cases hb
      | none =>
        rw [hposb] at hb
        obtain ⟨next', hnextb, heq⟩ := Option.map_eq_some_iff.1 hb
        injection heq with hrecord hpos
        have : next' = next := Prod.ext (by omega) hpos
        subst this
        exact ih hnexta hnextb

/-- Different addresses have different slots. -/
theorem locate?_inj (ha : l.locate? a = some slot) (hb : l.locate? b = some slot) : a = b := by
  unfold locate? at ha hb
  split at ha
  · split at hb
    · exact locateFrom?_inj ha hb
    · contradiction
  · contradiction

/-! ## Slots of a run of addresses -/

theorem slots?_succ (l : Listing) (address length : Nat) :
    l.slots? address (length + 1) =
      (l.locate? address).bind fun slot => (l.slots? (address + 1) length).map (slot :: ·) := by
  unfold slots?
  rw [List.range'_succ, List.mapM_cons]
  cases l.locate? address with
  | none => rfl
  | some slot => cases List.mapM l.locate? (List.range' (address + 1) length) <;> rfl

theorem slots?_congr (h : m.outline = l.outline) (address length : Nat) :
    m.slots? address length = l.slots? address length := by
  unfold slots?
  rw [funext (locate?_congr h)]

theorem exists_locate?_of_mem_slots? {slots : List (Nat × Nat)}
    (h : l.slots? address length = some slots) (hslot : slot ∈ slots) :
    ∃ a, address ≤ a ∧ l.locate? a = some slot := by
  induction length generalizing address slots with
  | zero =>
    injection h with h
    rw [← h] at hslot
    contradiction
  | succ length ih =>
    rw [slots?_succ] at h
    obtain ⟨first, hfirst, h⟩ := Option.bind_eq_some_iff.1 h
    obtain ⟨rest, hrest, rfl⟩ := Option.map_eq_some_iff.1 h
    rcases List.mem_cons.1 hslot with rfl | hslot
    · exact ⟨address, Nat.le_refl _, hfirst⟩
    · obtain ⟨a, hle, ha⟩ := ih hrest hslot
      exact ⟨a, by omega, ha⟩

theorem nodup_of_slots? {slots : List (Nat × Nat)} (h : l.slots? address length = some slots) :
    slots.Nodup := by
  induction length generalizing address slots with
  | zero =>
    injection h with h
    rw [← h]
    exact .nil
  | succ length ih =>
    rw [slots?_succ] at h
    obtain ⟨first, hfirst, h⟩ := Option.bind_eq_some_iff.1 h
    obtain ⟨rest, hrest, rfl⟩ := Option.map_eq_some_iff.1 h
    refine List.nodup_cons.2 ⟨fun hmem => ?_, ih hrest⟩
    obtain ⟨a, hle, ha⟩ := exists_locate?_of_mem_slots? hrest hmem
    have := locate?_inj hfirst ha
    omega

/-! ## Writing -/

theorem storeAll_cons (l : Listing) (slot : Nat × Nat) (slots : List (Nat × Nat)) (byte : UInt8)
    (rest : Bytes) :
    l.storeAll (slot :: slots) (byte :: rest) = (l.store slot byte).storeAll slots rest := rfl

/-- Writing byte by byte is storing the bytes in the slots of their addresses. -/
theorem write?_eq_map (l : Listing) (address : Nat) (b : Bytes) :
    l.write? address b = (l.slots? address b.length).map fun slots => l.storeAll slots b := by
  induction b generalizing l address with
  | nil => rfl
  | cons byte rest ih =>
    rw [write?, set?_eq_map, List.length_cons, slots?_succ]
    cases l.locate? address with
    | none => rfl
    | some slot =>
      simp only [Option.map_some, Option.bind_some]
      rw [ih, slots?_congr (outline_store l slot byte), Option.map_map]
      rfl

/-- **Slots first.**  A write of fewer bytes than there are addresses can find all slots before it
stores a byte. -/
theorem write?_eq_writeBySlots? (l : Listing) (address : Nat) {b : Bytes}
    (h : b.length < addressLimit) : l.write? address b = l.writeBySlots? address b := by
  rw [write?_eq_map, writeBySlots?, Nat.mod_eq_of_lt h]

theorem store_storeAll {slots : List (Nat × Nat)} (h : slot ∉ slots) (b : Bytes) (byte : UInt8) :
    (l.storeAll slots b).store slot byte = (l.store slot byte).storeAll slots b := by
  induction slots generalizing l b with
  | nil => rfl
  | cons first slots ih =>
    rw [List.mem_cons, not_or] at h
    cases b with
    | nil => rfl
    | cons x rest => rw [storeAll_cons, storeAll_cons, ih h.2, store_comm (Ne.symm h.1)]

theorem storeAll_storeAll {slots : List (Nat × Nat)} (h : slots.Nodup) {b c : Bytes}
    (hlength : b.length = c.length) :
    (l.storeAll slots b).storeAll slots c = l.storeAll slots c := by
  induction slots generalizing l b c with
  | nil => rfl
  | cons slot slots ih =>
    obtain ⟨hslot, hslots⟩ := List.nodup_cons.1 h
    cases b with
    | nil =>
      rw [List.eq_nil_of_length_eq_zero hlength.symm]
      rfl
    | cons x rest =>
      cases c with
      | nil => contradiction
      | cons y last =>
        have hrest : rest.length = last.length := by simpa using hlength
        calc (l.storeAll (slot :: slots) (x :: rest)).storeAll (slot :: slots) (y :: last)
            = (((l.store slot x).storeAll slots rest).store slot y).storeAll slots last := rfl
          _ = (((l.store slot x).store slot y).storeAll slots rest).storeAll slots last := by
              rw [store_storeAll hslot]
          _ = ((l.store slot y).storeAll slots rest).storeAll slots last := by rw [store_store]
          _ = (l.store slot y).storeAll slots last := ih hslots hrest

/-- **The second write counts.**  After a write, writing as many bytes at the same address gives
what it gives without the first. -/
theorem write?_write? {b c : Bytes} (h : l.write? address b = some m)
    (hlength : b.length = c.length) : m.write? address c = l.write? address c := by
  have houtline : m.outline = l.outline := outline_write? h
  rw [write?_eq_map] at h
  obtain ⟨slots, hslots, rfl⟩ := Option.map_eq_some_iff.1 h
  rw [write?_eq_map, write?_eq_map, slots?_congr houtline, ← hlength, hslots, Option.map_some,
    Option.map_some, storeAll_storeAll (nodup_of_slots? hslots) hlength]

end Listing

end IntelHex

end FirmwareStamp
