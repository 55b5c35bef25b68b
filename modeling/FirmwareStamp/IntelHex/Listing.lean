import FirmwareStamp.IntelHex.Record

/-!
# Intel HEX files as sparse memory

A `Listing` keeps its records as they were read.  Each data record is a region: its payload at the
running base address plus its offset.  `get?` looks an address up in the first region that covers
it, `write?` changes bytes in place and fails unless every address is covered:

    l.set? a x = some m → m.get? a = some x ∧ ∀ b ≠ a, m.get? b = l.get? b     (get?_set?)

Reading stops after the first end-of-file record and writing requires it to be last.
-/

namespace FirmwareStamp

namespace IntelHex

/-- The records of a file, in order. -/
structure Listing where
  records : List Record
deriving DecidableEq, Repr

/-- Addresses are below this. -/
def addressLimit : Nat := UInt32.size

namespace Record

/-- The base address after a record. -/
def baseAfter (base : Nat) : Record → Nat
  | .extendedLinear upper => upper.toNat * 65536
  | .extendedSegment segment => segment.toNat * 16
  | _ => base

/-- The byte a record holds at an address. -/
def byteAt? (base : Nat) (address : Nat) : Record → Option UInt8
  | .data offset payload =>
    if base + offset.toNat ≤ address then payload[address - (base + offset.toNat)]? else none
  | _ => none

/-- A data record with the byte at an address changed. -/
def setByte (base address : Nat) (byte : UInt8) : Record → Record
  | .data offset payload => .data offset (payload.set (address - (base + offset.toNat)) byte)
  | r => r

end Record

namespace Listing

/-! ## Text -/

/-- Drops the carriage return at the end of every line that a line feed ends. -/
def dropReturns : List (List Char) → List (List Char)
  | [] => []
  | [last] => [last]
  | line :: next :: rest =>
    (if line.getLast? = some '\r' then line.dropLast else line) :: dropReturns (next :: rest)

/-- The lines of a text, without their ends. -/
def lines (text : List Char) : List (List Char) :=
  dropReturns (text.splitOn '\n')

/-- The records of lines, up to the first end of file; empty lines are passed over. -/
def ofLines : List (List Char) → Except Fault (List Record)
  | [] => .ok []
  | line :: rest =>
    if line = [] then ofLines rest
    else do
      let r ← Record.ofLine line
      if r = .endOfFile then return [r] else return r :: (← ofLines rest)

/-- Reads a file. -/
def parse (text : String) : Except Fault Listing :=
  return ⟨← ofLines (lines text.toList)⟩

/-- Writes a file, a line per record. -/
def render (l : Listing) : Except Fault String :=
  if l.records.getLast? = some .endOfFile then
    .ok (String.ofList (l.records.flatMap fun r => r.line ++ ['\n']))
  else .error .missingEndOfFile

/-! ## Memory -/

/-- The payloads with the addresses they start at, from a base address on. -/
def regionsFrom : (base : Nat) → List Record → List (Nat × Bytes)
  | _, [] => []
  | base, .data offset payload :: rest => (base + offset.toNat, payload) :: regionsFrom base rest
  | base, r :: rest => regionsFrom (r.baseAfter base) rest

/-- The payloads of a file, with the addresses they start at. -/
def regions (l : Listing) : List (Nat × Bytes) :=
  regionsFrom 0 l.records

/-- The byte at an address in the first record that covers it, from a base address on. -/
def getFrom? (address : Nat) : (base : Nat) → List Record → Option UInt8
  | _, [] => none
  | base, r :: rest =>
    match r.byteAt? base address with
    | some byte => some byte
    | none => getFrom? address (r.baseAfter base) rest

/-- The byte at an address. -/
def get? (l : Listing) (address : Nat) : Option UInt8 :=
  if address < addressLimit then getFrom? address 0 l.records else none

/-- Changes the byte at an address in the first record that covers it. -/
def setFrom? (address : Nat) (byte : UInt8) : (base : Nat) → List Record → Option (List Record)
  | _, [] => none
  | base, r :: rest =>
    match r.byteAt? base address with
    | some _ => some (r.setByte base address byte :: rest)
    | none => (setFrom? address byte (r.baseAfter base) rest).map (r :: ·)

/-- Changes the byte at an address, if a record covers it. -/
def set? (l : Listing) (address : Nat) (byte : UInt8) : Option Listing :=
  if address < addressLimit then (setFrom? address byte 0 l.records).map (⟨·⟩) else none

/-- At most `length` bytes from an address on, up to the first that no record covers. -/
def run (l : Listing) : (length : Nat) → (address : Nat) → Bytes
  | 0, _ => []
  | length + 1, address =>
    match l.get? address with
    | some byte => byte :: l.run length (address + 1)
    | none => []

/-- The bytes at an address and after.  Lengths count modulo the size of the address space. -/
def read (l : Listing) (address length : Nat) : Bytes :=
  l.run (length % addressLimit) address

/-- Writes bytes at an address and after; none if some of the addresses are not covered. -/
def write? (l : Listing) (address : Nat) : Bytes → Option Listing
  | [] => some l
  | byte :: rest => (l.set? address byte).bind fun m => m.write? (address + 1) rest

/-! ## Lemmas -/

theorem byteAt?_setByte {base address : Nat} {old : UInt8} {r : Record}
    (h : r.byteAt? base address = some old) (byte : UInt8) (b : Nat) :
    (r.setByte base address byte).byteAt? base b =
      if b = address then some byte else r.byteAt? base b := by
  cases r with
  | data offset payload =>
    simp only [Record.byteAt?, Record.setByte] at h ⊢
    split at h
    · next hle =>
      obtain ⟨hlt, -⟩ := List.getElem?_eq_some_iff.1 h
      by_cases hb : base + offset.toNat ≤ b
      · rw [if_pos hb, if_pos hb, List.getElem?_set]
        by_cases hab : b = address
        · subst hab; simp [hlt]
        · rw [if_neg (by omega), if_neg hab]
      · rw [if_neg hb, if_neg hb, if_neg (by omega)]
    · contradiction
  | _ => simp [Record.byteAt?] at h

theorem baseAfter_setByte (base address : Nat) (byte : UInt8) (r : Record) (b : Nat) :
    (r.setByte base address byte).baseAfter b = r.baseAfter b := by
  cases r <;> rfl

theorem getFrom?_setFrom? {address base : Nat} {byte : UInt8} {records changed : List Record}
    (h : setFrom? address byte base records = some changed) (b : Nat) :
    getFrom? b base changed = if b = address then some byte else getFrom? b base records := by
  induction records generalizing base changed with
  | nil => simp [setFrom?] at h
  | cons r rest ih =>
    simp only [setFrom?] at h
    split at h
    · next old hold =>
      injection h with h
      subst h
      simp only [getFrom?, byteAt?_setByte hold, baseAfter_setByte]
      by_cases hb : b = address
      · simp [hb]
      · simp [hb]
    · next hnone =>
      obtain ⟨rest', hrest, rfl⟩ := Option.map_eq_some_iff.1 h
      simp only [getFrom?, ih hrest]
      by_cases hb : b = address
      · subst hb; simp [hnone]
      · simp [hb]

/-- Setting a byte changes what is read at its address and nowhere else. -/
theorem get?_set? {l m : Listing} {address : Nat} {byte : UInt8}
    (h : l.set? address byte = some m) (b : Nat) :
    m.get? b = if b = address then some byte else l.get? b := by
  simp only [set?] at h
  split at h
  · next hlt =>
    obtain ⟨changed, hchanged, rfl⟩ := Option.map_eq_some_iff.1 h
    simp only [get?, getFrom?_setFrom? hchanged]
    by_cases hb : b = address
    · subst hb; simp [hlt]
    · simp [hb]
  · contradiction

theorem setFrom?_isSome (address : Nat) (byte : UInt8) (base : Nat) (records : List Record) :
    (setFrom? address byte base records).isSome = (getFrom? address base records).isSome := by
  induction records generalizing base with
  | nil => rfl
  | cons r rest ih =>
    simp only [setFrom?, getFrom?]
    cases r.byteAt? base address with
    | some old => rfl
    | none => simpa using ih (r.baseAfter base)

/-- A byte can be set exactly where one can be read. -/
theorem set?_isSome (l : Listing) (address : Nat) (byte : UInt8) :
    (l.set? address byte).isSome = (l.get? address).isSome := by
  simp only [set?, get?]
  split
  · simpa using setFrom?_isSome address byte 0 l.records
  · rfl

end Listing

end IntelHex

end FirmwareStamp
