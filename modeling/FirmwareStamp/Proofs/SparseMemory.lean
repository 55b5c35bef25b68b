import FirmwareStamp.Proofs.HexSlots

/-!
# Intel HEX files are sparse memories

The memory of a listing holds at an address what the first data record, in the order of the file,
that covers the address holds there.  A record starts at its offset from the base address that was
set last before it, and starts below 2^32.  Reading and writing a listing is reading and writing its
memory:

    l.get? a = l.memory a                                                        (get?_eq_memory)
    l.write? a b = if l.memory.Covers a b.length then some m else none, where
      m.memory = l.memory.overwrite a b                           (write?_isSome_iff, memory_write?)

Accesses one after the other are answered as the memory answers them, a write that is refused
changes nothing, and no access changes the outline of the records (`accesses_eq_memory`).
-/

namespace FirmwareStamp

namespace IntelHex

/-! ## Memories -/

/-- The bytes at addresses, where there are any. -/
abbrev Memory := Nat → Option UInt8

/-- An access to bytes by their address. -/
inductive Access where
  | get (address : UInt32)
  | write (address : UInt32) (b : Bytes)
deriving DecidableEq

inductive Answer where
  | byte (found : Option UInt8)
  /-- Whether all bytes were written; if not, none was. -/
  | written (all : Bool)
deriving DecidableEq

namespace Memory

/-- Whether there is a byte at every address of a run, and no address is past the last. -/
def Covers (m : Memory) (address length : Nat) : Prop :=
  ∀ k, k < length → address + k < addressLimit ∧ (m (address + k)).isSome = true

instance decidableCovers (m : Memory) (address length : Nat) : Decidable (m.Covers address length) :=
  inferInstanceAs (Decidable (∀ k, k < length →
    address + k < addressLimit ∧ (m (address + k)).isSome = true))

/-- The memory with bytes at an address and after, and what it has everywhere else. -/
def overwrite (m : Memory) (address : Nat) (b : Bytes) : Memory := fun x =>
  if address ≤ x ∧ x < address + b.length then b[x - address]? else m x

def answer (m : Memory) : Access → Answer
  | .get address => .byte (m address.toNat)
  | .write address b => .written (decide (m.Covers address.toNat b.length))

def after (m : Memory) : Access → Memory
  | .get _ => m
  | .write address b =>
    if m.Covers address.toNat b.length then m.overwrite address.toNat b else m

/-- What accesses are answered, one after the other. -/
def answers (m : Memory) : List Access → List Answer
  | [] => []
  | access :: rest => m.answer access :: (m.after access).answers rest

end Memory

/-! ## The memory of a listing -/

/-- The base address that a record sets for the data after it. -/
def Record.base? : Record → Option Nat
  | .extendedLinear upper => some (upper.toNat <<< 16)
  | .extendedSegment segment => some (segment.toNat <<< 4)
  | _ => none

namespace Listing

/-- The base address at an index: the one that was set last before it, or else the given one. -/
def baseAt (base : Nat) (records : List Record) (i : Nat) : Nat :=
  ((records.take i).filterMap Record.base?).getLast?.getD base

/-- The byte at an address of the record at an index, if that is a data record and covers the
address. -/
def heldBy? (base : Nat) (records : List Record) (address i : Nat) : Option UInt8 :=
  match records[i]? with
  | some (.data offset payload) =>
    let start := baseAt base records i + offset.toNat
    if start ≤ address then payload[address - start]? else none
  | _ => none

/-- The byte at an address of the first data record that covers it, in the order of the file. -/
def memory (l : Listing) : Memory := fun address =>
  if address < addressLimit then
    (List.range l.records.length).findSome? (heldBy? 0 l.records address)
  else none

def answer (l : Listing) : Access → Answer
  | .get address => .byte (l.get? address.toNat)
  | .write address b => .written (l.write? address.toNat b).isSome

def after (l : Listing) : Access → Listing
  | .get _ => l
  | .write address b => (l.write? address.toNat b).getD l

/-- What accesses are answered, one after the other. -/
def answers (l : Listing) : List Access → List Answer
  | [] => []
  | access :: rest => l.answer access :: (l.after access).answers rest

/-! ## Where records start -/

theorem base?_le {r : Record} {base : Nat} (h : r.base? = some base) : base ≤ 65535 * 65536 := by
  cases r with
  | extendedLinear upper =>
    injection h with h
    have := upper.toNat_lt
    rw [Nat.shiftLeft_eq] at h
    omega
  | extendedSegment segment =>
    injection h with h
    have := segment.toNat_lt
    rw [Nat.shiftLeft_eq] at h
    omega
  | _ => contradiction

/-- No record starts past the last address. -/
theorem baseAt_add_lt (records : List Record) (i : Nat) (offset : UInt16) :
    baseAt 0 records i + offset.toNat < addressLimit := by
  have hoffset := offset.toNat_lt
  have hbase : baseAt 0 records i ≤ 65535 * 65536 := by
    unfold baseAt
    cases hlast : ((records.take i).filterMap Record.base?).getLast? with
    | none => exact Nat.zero_le _
    | some base =>
      obtain ⟨r, -, hr⟩ := List.mem_filterMap.1 (List.mem_of_getLast? hlast)
      exact base?_le hr
  show _ < 4294967296
  omega

theorem baseAt_cons_succ (base : Nat) (r : Record) (rest : List Record) (i : Nat) :
    baseAt base (r :: rest) (i + 1) = baseAt (r.baseAfter base) rest i := by
  unfold baseAt
  rw [List.take_succ_cons, List.filterMap_cons]
  cases r with
  | extendedLinear upper =>
    simp only [Record.base?, Record.baseAfter, Nat.shiftLeft_eq, List.getLast?_cons,
      Option.getD_some]
  | extendedSegment segment =>
    simp only [Record.base?, Record.baseAfter, Nat.shiftLeft_eq, List.getLast?_cons,
      Option.getD_some]
  | _ => rfl

/-! ## Reading and writing -/

theorem heldBy?_cons_zero (base : Nat) (r : Record) (rest : List Record) (address : Nat) :
    heldBy? base (r :: rest) address 0 = r.byteAt? base address := by
  cases r <;> rfl

theorem heldBy?_cons_succ (base : Nat) (r : Record) (rest : List Record) (address i : Nat) :
    heldBy? base (r :: rest) address (i + 1) = heldBy? (r.baseAfter base) rest address i := by
  unfold heldBy?
  rw [List.getElem?_cons_succ, baseAt_cons_succ]

theorem getFrom?_eq_findSome?_heldBy? (address base : Nat) (records : List Record) :
    getFrom? address base records =
      (List.range records.length).findSome? (heldBy? base records address) := by
  induction records generalizing base with
  | nil => rfl
  | cons r rest ih =>
    rw [List.length_cons, List.range_succ_eq_map, List.findSome?_cons, heldBy?_cons_zero,
      List.findSome?_map]
    have htail : heldBy? base (r :: rest) address ∘ Nat.succ =
        heldBy? (r.baseAfter base) rest address :=
      funext fun i => heldBy?_cons_succ base r rest address i
    rw [htail, ← ih, getFrom?]
    cases r.byteAt? base address <;> rfl

variable {l m : Listing} {address : Nat} {b : Bytes}

theorem get?_eq_memory (l : Listing) (address : Nat) : l.get? address = l.memory address := by
  unfold get? memory
  rw [getFrom?_eq_findSome?_heldBy?]

/-- Bytes are written exactly if there is one at every address. -/
theorem write?_isSome_iff :
    (l.write? address b).isSome = true ↔ l.memory.Covers address b.length := by
  constructor
  · intro h k hk
    obtain ⟨m, hm⟩ := Option.isSome_iff_exists.1 h
    have hlt : address + k < addressLimit := (holds_of_write? hm).lt_addressLimit hk
    -- the outline is as before, so there was a slot at every address where there is one now
    have houtline : m.outline = l.outline := outline_write? hm
    have hsome := (holds_of_write? hm).get?_isSome hk
    rw [← locate?_isSome, locate?_congr houtline, locate?_isSome] at hsome
    rw [← get?_eq_memory]
    exact ⟨hlt, hsome⟩
  · intro h
    refine write?_isSome fun k hk => ?_
    rw [get?_eq_memory]
    exact (h k hk).2

theorem memory_write? (h : l.write? address b = some m) :
    m.memory = l.memory.overwrite address b := by
  funext x
  unfold Memory.overwrite
  rw [← get?_eq_memory, ← get?_eq_memory, get?_write? h]

/-! ## Accesses -/

theorem answer_eq_memory (l : Listing) (access : Access) :
    l.answer access = l.memory.answer access := by
  cases access with
  | get address => exact congrArg Answer.byte (get?_eq_memory l address.toNat)
  | write address b =>
    refine congrArg Answer.written ?_
    rw [Bool.eq_iff_iff, write?_isSome_iff, decide_eq_true_eq]

/-- **One access.**  It leaves the memory of a listing as it leaves the memory. -/
theorem memory_after (l : Listing) (access : Access) :
    (l.after access).memory = l.memory.after access := by
  cases access with
  | get address => rfl
  | write address b =>
    simp only [after, Memory.after]
    cases hwrite : l.write? address.toNat b with
    | none =>
      rw [if_neg]
      · rfl
      · rw [← write?_isSome_iff, hwrite]
        simp
    | some m =>
      rw [if_pos]
      · exact memory_write? hwrite
      · rw [← write?_isSome_iff, hwrite]
        rfl

theorem outline_after (l : Listing) (access : Access) : (l.after access).outline = l.outline := by
  cases access with
  | get address => rfl
  | write address b =>
    simp only [after]
    cases hwrite : l.write? address.toNat b with
    | none => rfl
    | some m => exact outline_write? hwrite

theorem answers_eq_memory (l : Listing) (accesses : List Access) :
    l.answers accesses = l.memory.answers accesses := by
  induction accesses generalizing l with
  | nil => rfl
  | cons access rest ih => rw [answers, Memory.answers, answer_eq_memory, ih, memory_after]

theorem memory_foldl_after (l : Listing) (accesses : List Access) :
    (accesses.foldl after l).memory = accesses.foldl Memory.after l.memory := by
  induction accesses generalizing l with
  | nil => rfl
  | cons access rest ih => rw [List.foldl_cons, List.foldl_cons, ih, memory_after]

theorem outline_foldl_after (l : Listing) (accesses : List Access) :
    (accesses.foldl after l).outline = l.outline := by
  induction accesses generalizing l with
  | nil => rfl
  | cons access rest ih => rw [List.foldl_cons, ih, outline_after]

theorem after_of_refused {access : Access} (h : l.answer access = .written false) :
    l.after access = l := by
  cases access with
  | get address => rfl
  | write address b =>
    simp only [answer, Answer.written.injEq, Option.isSome_eq_false_iff, Option.isNone_iff_eq_none]
      at h
    simp only [after, h, Option.getD_none]

/-- **A sparse memory.**  Accesses to a listing, one after the other, are answered as its memory
answers them and leave it as they leave the memory; the records keep their number, order, kinds,
offsets and lengths.  A write that is refused changes nothing, and one that finds all slots before
it stores a byte comes to the same.  No record starts past the last address. -/
theorem accesses_eq_memory (l : Listing) (accesses : List Access) :
    l.answers accesses = l.memory.answers accesses ∧
    (accesses.foldl after l).memory = accesses.foldl Memory.after l.memory ∧
    (accesses.foldl after l).outline = l.outline ∧
    (∀ access, (accesses.foldl after l).answer access = .written false →
      (accesses.foldl after l).after access = accesses.foldl after l) ∧
    (∀ address b, b.length < addressLimit →
      (accesses.foldl after l).write? address b =
        (accesses.foldl after l).writeBySlots? address b) ∧
    ∀ i offset payload, l.records[i]? = some (.data offset payload) →
      baseAt 0 l.records i + offset.toNat < addressLimit := by
  refine ⟨answers_eq_memory l accesses, memory_foldl_after l accesses,
    outline_foldl_after l accesses, fun access h => after_of_refused h, ?_, ?_⟩
  · intro address b h
    exact write?_eq_writeBySlots? _ address h
  · intro i offset payload _
    exact baseAt_add_lt l.records i offset

/-- Records on both sides of a base address, two that overlap, one in a segment, and one that runs
past the last address. -/
def overlappingListing : Listing where
  records := [.extendedLinear 0x0800, .data 0xfffc [1, 2, 3, 4], .extendedLinear 0x0801,
    .data 0 [5, 6], .data 1 [7, 8], .extendedSegment 0xffff, .data 0xffff [9],
    .extendedLinear 0xffff, .data 0xfffe [10, 11, 12], .endOfFile]

def overlappingAccesses : List Access :=
  [.get 0x08010001, .write 0x0800ffff [20, 21, 22, 23], .get 0x08010001, .get 0x08010002,
    .write 0xffffffff [24, 25], .get 0xffffffff, .write 0x0010ffee [26, 27], .get 0x0010ffef]

/-- A write across records is found in each of them, and where two overlap in the first; one past
the last address and one with a gap before it are refused. -/
theorem accesses_overlappingListing :
    overlappingListing.memory.answers overlappingAccesses =
      [.byte (some 6), .written true, .byte (some 22), .byte (some 23), .written false,
        .byte (some 11), .written false, .byte (some 9)] ∧
    (overlappingAccesses.foldl after overlappingListing).records =
      [.extendedLinear 0x0800, .data 0xfffc [1, 2, 3, 20], .extendedLinear 0x0801,
        .data 0 [21, 22], .data 1 [7, 23], .extendedSegment 0xffff, .data 0xffff [9],
        .extendedLinear 0xffff, .data 0xfffe [10, 11, 12], .endOfFile] ∧
    (overlappingAccesses.foldl after overlappingListing).after (.write 0x0010ffee [26, 27]) =
      overlappingAccesses.foldl after overlappingListing := by
  have haccesses := accesses_eq_memory overlappingListing overlappingAccesses
  refine ⟨?_, by decide +kernel, haccesses.2.2.2.1 _ (by decide +kernel)⟩
  rw [← haccesses.1]
  decide +kernel

end Listing

end IntelHex

end FirmwareStamp
