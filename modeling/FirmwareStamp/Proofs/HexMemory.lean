import FirmwareStamp.IntelHex.RoundTrip

/-!
# Runs of bytes in an Intel HEX file

`l.Holds a b` says that the bytes `b` stand at the address `a` and after.  Reading and writing in
these terms:

    l.run b.length a = b ↔ l.Holds a b                                          (run_eq_iff)
    l.write? a b = some m → m.get? x = if a ≤ x ∧ x < a + b.length then b[x - a]? else l.get? x
                                                                                (get?_write?)
    l.Holds a b → l.write? a b = some l                                         (write?_eq_self)
-/

namespace FirmwareStamp

namespace IntelHex

namespace Listing

/-- Whether bytes stand at an address and after. -/
def Holds (l : Listing) (address : Nat) (b : Bytes) : Prop :=
  ∀ k, k < b.length → l.get? (address + k) = b[k]?

theorem holds_cons_iff {l : Listing} {address : Nat} {byte : UInt8} {rest : Bytes} :
    l.Holds address (byte :: rest) ↔
      l.get? address = some byte ∧ l.Holds (address + 1) rest := by
  constructor
  · intro h
    refine ⟨h 0 (by simp), ?_⟩
    intro k hk
    have := h (k + 1) (by simpa using hk)
    rwa [List.getElem?_cons_succ, show address + (k + 1) = address + 1 + k by omega] at this
  · rintro ⟨hfirst, hrest⟩ k hk
    cases k with
    | zero => exact hfirst
    | succ k =>
      rw [List.getElem?_cons_succ, show address + (k + 1) = address + 1 + k by omega]
      exact hrest k (by simpa using hk)

/-! ## Reading -/

/-- Where bytes stand there is a byte at each address. -/
theorem Holds.get?_isSome {l : Listing} {address : Nat} {b : Bytes} (h : l.Holds address b)
    {k : Nat} (hk : k < b.length) : (l.get? (address + k)).isSome = true := by
  rw [h k hk, List.getElem?_eq_getElem hk]
  rfl

theorem Holds.lt_addressLimit {l : Listing} {address : Nat} {b : Bytes} (h : l.Holds address b)
    {k : Nat} (hk : k < b.length) : address + k < addressLimit := by
  have hsome := h.get?_isSome hk
  unfold get? at hsome
  split at hsome
  · next hlt => exact hlt
  · contradiction

theorem run_eq_iff {l : Listing} {address : Nat} {b : Bytes} :
    l.run b.length address = b ↔ l.Holds address b := by
  induction b generalizing address with
  | nil =>
    constructor
    · intro _ k hk
      contradiction
    · intro _
      rfl
  | cons byte rest ih =>
    rw [holds_cons_iff, List.length_cons, run]
    cases hget : l.get? address with
    | none => simp
    | some found =>
      simp only [List.cons.injEq, Option.some.injEq]
      rw [ih]

/-- Bytes fewer than there are addresses are read exactly where they stand. -/
theorem read_eq_iff {l : Listing} {address : Nat} {b : Bytes} (h : b.length < addressLimit) :
    l.read address b.length = b ↔ l.Holds address b := by
  rw [read, Nat.mod_eq_of_lt h]
  exact run_eq_iff

/-! ## Writing -/

/-- A write changes what is read at its addresses and nowhere else. -/
theorem get?_write? {l m : Listing} {address : Nat} {b : Bytes}
    (h : l.write? address b = some m) (x : Nat) :
    m.get? x = if address ≤ x ∧ x < address + b.length then b[x - address]? else l.get? x := by
  induction b generalizing l address with
  | nil =>
    injection h with h
    rw [h, if_neg (by simp only [List.length_nil]; omega)]
  | cons byte rest ih =>
    obtain ⟨k, hset, hrest⟩ := Option.bind_eq_some_iff.1 h
    rw [ih hrest, get?_set? hset, List.length_cons]
    by_cases hx : x = address
    · subst hx
      rw [if_neg (by omega), if_pos rfl, if_pos (by omega), Nat.sub_self, List.getElem?_cons_zero]
    · rw [if_neg hx]
      by_cases hin : address + 1 ≤ x ∧ x < address + 1 + rest.length
      · rw [if_pos hin, if_pos (by omega), show x - address = x - (address + 1) + 1 by omega,
          List.getElem?_cons_succ]
      · rw [if_neg hin, if_neg (by omega)]

/-- What was written stands where it was written. -/
theorem holds_of_write? {l m : Listing} {address : Nat} {b : Bytes}
    (h : l.write? address b = some m) : m.Holds address b := by
  intro k hk
  rw [get?_write? h, if_pos (by omega), Nat.add_sub_cancel_left]

/-- A write succeeds if all its addresses are covered. -/
theorem write?_isSome {l : Listing} {address : Nat} {b : Bytes}
    (h : ∀ k, k < b.length → (l.get? (address + k)).isSome = true) :
    (l.write? address b).isSome = true := by
  induction b generalizing l address with
  | nil => rfl
  | cons byte rest ih =>
    have hfirst := h 0 (by simp)
    rw [Nat.add_zero, ← set?_isSome l address byte] at hfirst
    obtain ⟨m, hset⟩ := Option.isSome_iff_exists.1 hfirst
    rw [write?, hset, Option.bind_some]
    apply ih
    intro k hk
    have := h (k + 1) (by simpa using hk)
    rw [get?_set? hset, if_neg (by omega), show address + 1 + k = address + (k + 1) by omega]
    exact this

theorem setFrom?_eq_self {address base : Nat} {byte : UInt8} {records : List Record}
    (h : getFrom? address base records = some byte) :
    setFrom? address byte base records = some records := by
  induction records generalizing base with
  | nil => contradiction
  | cons r rest ih =>
    simp only [getFrom?] at h
    simp only [setFrom?]
    cases hbyte : r.byteAt? base address with
    | none =>
      rw [hbyte] at h
      rw [ih h]
      rfl
    | some old =>
      rw [hbyte] at h
      injection h with h
      subst h
      -- the record covers the address, so it is one of data
      cases r with
      | data offset payload =>
        simp only [Record.byteAt?] at hbyte
        split at hbyte
        · obtain ⟨hlt, hget⟩ := List.getElem?_eq_some_iff.1 hbyte
          simp only [Record.setByte]
          rw [← hget, List.set_getElem_self]
        · contradiction
      | _ => contradiction

theorem set?_eq_self {l : Listing} {address : Nat} {byte : UInt8}
    (h : l.get? address = some byte) : l.set? address byte = some l := by
  unfold get? at h
  unfold set?
  split at h
  · next hlt => rw [if_pos hlt, setFrom?_eq_self h]; rfl
  · contradiction

/-- Writing what stands there already changes nothing. -/
theorem write?_eq_self {l : Listing} {address : Nat} {b : Bytes} (h : l.Holds address b) :
    l.write? address b = some l := by
  induction b generalizing address with
  | nil => rfl
  | cons byte rest ih =>
    obtain ⟨hfirst, hrest⟩ := holds_cons_iff.1 h
    rw [write?, set?_eq_self hfirst, Option.bind_some, ih hrest]

/-- A listing written into stays well formed. -/
theorem WellFormed.write? {l m : Listing} {address : Nat} {b : Bytes} (hl : l.WellFormed)
    (h : l.write? address b = some m) : m.WellFormed :=
  hl.of_outline (outline_write? h)

/-- A well-formed listing with its end-of-file record can be rendered. -/
theorem WellFormed.render_eq_ok {l : Listing} (hl : l.WellFormed) (hend : .endOfFile ∈ l.records) :
    ∃ text, l.render = .ok text := by
  have hlast : l.records.getLast? = some .endOfFile := by
    rw [List.mem_iff_append] at hend
    obtain ⟨before, after, hrecords⟩ := hend
    cases after with
    | nil => simp [hrecords]
    | cons r rest =>
      -- a record after it would put it before the last one
      refine absurd ?_ hl.endOfFile_last
      rw [hrecords, List.dropLast_append_of_ne_nil (by simp),
        List.dropLast_cons_of_ne_nil (by simp)]
      simp
  unfold render
  rw [if_pos hlast]
  exact ⟨_, rfl⟩

/-- Where all addresses are covered a well-formed listing with its end-of-file record can be written
into and rendered. -/
theorem WellFormed.exists_write? {l : Listing} (hl : l.WellFormed) (hend : .endOfFile ∈ l.records)
    {address : Nat} {b : Bytes} (h : ∀ k, k < b.length → (l.get? (address + k)).isSome = true) :
    ∃ m text, l.write? address b = some m ∧ m.render = .ok text := by
  obtain ⟨m, hm⟩ := Option.isSome_iff_exists.1 (write?_isSome h)
  have houtline : m.records.map Record.outline = l.records.map Record.outline := outline_write? hm
  have hend' : .endOfFile ∈ m.records := by
    rw [← mem_map_outline_iff, houtline, mem_map_outline_iff]
    exact hend
  obtain ⟨text, htext⟩ := (hl.write? hm).render_eq_ok hend'
  exact ⟨m, text, hm, htext⟩

end Listing

end IntelHex

end FirmwareStamp
