import FirmwareStamp.Bytes
import FirmwareStamp.Elf.Fault

/-!
# Reading records out of an ELF file

A record is read field by field from where it starts.  An `Encoding` says how wide words are and in
which order their bytes stand.  Faults count positions from the start of the record, except that of
the start itself, which counts from the start of the file.
-/

namespace FirmwareStamp

namespace Elf

/-! ## Encodings -/

inductive Width where
  | bits32
  | bits64
deriving DecidableEq, Repr

inductive ByteOrder where
  | little
  | big
deriving DecidableEq, Repr

/-- How the fields of a file are stored. -/
structure Encoding where
  width : Width
  order : ByteOrder
deriving DecidableEq, Repr

/-- Bytes in an address, offset or size. -/
def Width.wordLength : Width → Nat
  | .bits32 => 4
  | .bits64 => 8

/-- The number that bytes in an order stand for. -/
def ByteOrder.decode : ByteOrder → Bytes → Nat
  | .little, b => Bytes.ofLittle b
  | .big, b => Bytes.ofBig b

/-! ## Windows -/

/-- The window of `length` bytes at `offset`.  Not even an empty window may start at the end. -/
def window (b : Bytes) (offset length : Nat) : Except Fault Bytes :=
  match b.drop offset with
  | [] => .error (.badOffset offset)
  | rest =>
    if rest.length < length then .error (.tooBig length rest.length)
    else .ok (rest.take length)

/-! ## Fields -/

/-- Where a record is being read: the position in it and what is left of the file. -/
structure Cursor where
  position : Nat
  rest : Bytes
deriving DecidableEq, Repr

/-- Reads part of a record and moves on. -/
abbrev Reader := StateT Cursor (Except Fault)

namespace Reader

/-- The next `length` bytes. -/
def take (length : Nat) : Reader Bytes := fun c =>
  if c.rest.isEmpty then .error (.badOffset c.position)
  else
    let taken := c.rest.take length
    if taken.length < length then .error (.tooBig length c.rest.length)
    else .ok (taken, ⟨c.position + length, c.rest.drop length⟩)

/-- The next field of two bytes. -/
def half (e : Encoding) : Reader UInt16 :=
  return UInt16.ofNat (e.order.decode (← take 2))

/-- The next field of four bytes. -/
def long (e : Encoding) : Reader UInt32 :=
  return UInt32.ofNat (e.order.decode (← take 4))

/-- The next address, offset or size. -/
def word (e : Encoding) : Reader UInt64 :=
  return UInt64.ofNat (e.order.decode (← take e.width.wordLength))

/-- Reads a record that starts at `offset`. -/
def runAt {α : Type} (r : Reader α) (b : Bytes) (offset : Nat) : Except Fault α :=
  match b.drop offset with
  | [] => .error (.badOffset offset)
  | rest => Prod.fst <$> r.run ⟨0, rest⟩

end Reader

/-! ## Lemmas -/

theorem window_eq_ok_iff {b : Bytes} {offset length : Nat} {w : Bytes} :
    window b offset length = .ok w ↔
      offset < b.length ∧ offset + length ≤ b.length ∧ w = b.slice offset length := by
  have hrest : (b.drop offset).length = b.length - offset := List.length_drop
  unfold window
  split
  · next hnil =>
    rw [hnil, List.length_nil] at hrest
    simp only [reduceCtorEq, false_iff, not_and]
    omega
  · next rest hne =>
    have hpos : 0 < (b.drop offset).length := List.length_pos_iff.2 hne
    split
    · next hlt =>
      simp only [reduceCtorEq, false_iff, not_and]
      omega
    · next hle =>
      simp only [Except.ok.injEq, Bytes.slice]
      constructor
      · rintro rfl
        exact ⟨by omega, by omega, rfl⟩
      · rintro ⟨-, -, rfl⟩
        rfl

end Elf

end FirmwareStamp
