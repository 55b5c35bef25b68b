import Mathlib.Order.Bounds.Basic
import FirmwareStamp.Proofs.SparseMemory

/-!
# Reading a run of addresses

Reading goes on from an address up to the first that holds no byte, or up to a limit.  `IsRunOf`
says so of any source of bytes, a file or a sparse memory.  There is one such run, cut short it is
the run with a lower limit, and no longer one is covered:

    b.IsRunOf held start limit →
      IsGreatest {n | n ≤ limit ∧ ∀ k < n, (held (start + k)).isSome} b.length (IsRunOf.isGreatest)

A listing is read like this, except that lengths count modulo 2^32.  The longest run of at most
`length` addresses is found exactly if `length` is less than that, or if the run ends within what is
left of it (`read_longest`); with a length of 2^32 nothing is read at all (`read_pairText`).
-/

namespace FirmwareStamp

namespace Bytes

/-- Whether `b` is what `held` has from `start` on, up to the first place where it has nothing and
`limit` bytes at most. -/
structure IsRunOf (b : Bytes) (held : Nat → Option UInt8) (start limit : Nat) : Prop where
  length_le : b.length ≤ limit
  getElem?_eq : ∀ k, k < b.length → b[k]? = held (start + k)
  stops : b.length < limit → held (start + b.length) = none

namespace IsRunOf

variable {b c : Bytes} {held : Nat → Option UInt8} {start limit : Nat}

theorem isSome (h : b.IsRunOf held start limit) {k : Nat} (hk : k < b.length) :
    (held (start + k)).isSome = true := by
  rw [← h.getElem?_eq k hk, List.getElem?_eq_getElem hk]
  rfl

/-- A run is the longest one that is covered. -/
theorem isGreatest (h : b.IsRunOf held start limit) :
    IsGreatest {n | n ≤ limit ∧ ∀ k, k < n → (held (start + k)).isSome = true} b.length := by
  constructor
  · exact ⟨h.length_le, fun k hk => h.isSome hk⟩
  · rintro n ⟨hn, hcovered⟩
    by_contra hlt
    have hsome := hcovered b.length (by omega)
    rw [h.stops (by omega)] at hsome
    contradiction

theorem unique (hb : b.IsRunOf held start limit) (hc : c.IsRunOf held start limit) : b = c := by
  have hlength : b.length = c.length := hb.isGreatest.unique hc.isGreatest
  apply List.ext_getElem?
  intro k
  by_cases hk : k < b.length
  · rw [hb.getElem?_eq k hk, hc.getElem?_eq k (by omega)]
  · rw [List.getElem?_eq_none (by omega), List.getElem?_eq_none (by omega)]

/-- Nothing is read up to a limit of 0, and where nothing is held. -/
theorem nil (h : limit = 0 ∨ held start = none) : IsRunOf [] held start limit where
  length_le := Nat.zero_le limit
  getElem?_eq k hk := absurd hk (Nat.not_lt_zero k)
  stops hlt := by
    rcases h with rfl | h
    · exact absurd hlt (Nat.lt_irrefl 0)
    · exact h

theorem cons {byte : UInt8} (hbyte : held start = some byte)
    (h : b.IsRunOf held (start + 1) limit) : IsRunOf (byte :: b) held start (limit + 1) where
  length_le := Nat.succ_le_succ h.length_le
  getElem?_eq k hk := by
    cases k with
    | zero => exact hbyte.symm
    | succ k =>
      rw [List.getElem?_cons_succ, h.getElem?_eq k (Nat.lt_of_succ_lt_succ hk),
        Nat.add_right_comm, Nat.add_assoc]
  stops hlt := by
    rw [List.length_cons, Nat.add_comm b.length 1, ← Nat.add_assoc]
    exact h.stops (Nat.lt_of_succ_lt_succ hlt)

/-- A run cut short is the run with that limit. -/
theorem take (h : b.IsRunOf held start limit) {less : Nat} (hless : less ≤ limit) :
    IsRunOf (b.take less) held start less where
  length_le := List.length_take_le less b
  getElem?_eq k hk := by
    rw [List.length_take] at hk
    rw [List.getElem?_take_of_lt (by omega), h.getElem?_eq k (by omega)]
  stops hlt := by
    rw [List.length_take] at hlt ⊢
    rw [Nat.min_eq_right (by omega)]
    exact h.stops (by omega)

end IsRunOf

/-- A window of a file is the run of its bytes there. -/
theorem isRunOf_slice (b : Bytes) (offset limit : Nat) :
    (b.slice offset limit).IsRunOf (fun i => b[i]?) offset limit where
  length_le := List.length_take_le limit _
  getElem?_eq k hk := by
    rw [length_slice] at hk
    rw [slice, List.getElem?_take_of_lt (by omega), List.getElem?_drop]
  stops hlt := by
    rw [length_slice] at hlt ⊢
    exact List.getElem?_eq_none (by omega)

end Bytes

namespace IntelHex

namespace Listing

variable {l : Listing} {address length limit : Nat}

/-- A run of addresses is covered exactly if there is a byte at each: there is none past the last
address. -/
theorem covers_memory_iff :
    l.memory.Covers address length ↔
      ∀ k, k < length → (l.memory (address + k)).isSome = true := by
  constructor
  · intro h k hk
    exact (h k hk).2
  · intro h k hk
    refine ⟨?_, h k hk⟩
    by_contra hout
    have hsome := h k hk
    rw [memory, if_neg hout] at hsome
    contradiction

theorem isRunOf_run (l : Listing) (limit address : Nat) :
    (l.run limit address).IsRunOf l.memory address limit := by
  induction limit generalizing address with
  | zero => exact .nil (.inl rfl)
  | succ limit ih =>
    rw [run]
    cases hbyte : l.get? address with
    | none =>
      rw [get?_eq_memory] at hbyte
      exact .nil (.inr hbyte)
    | some byte =>
      rw [get?_eq_memory] at hbyte
      exact (ih (address + 1)).cons hbyte

theorem isGreatest_run (l : Listing) (limit address : Nat) :
    IsGreatest {n | n ≤ limit ∧ l.memory.Covers address n} (l.run limit address).length := by
  simp only [covers_memory_iff]
  exact (isRunOf_run l limit address).isGreatest

/-- A run with a lower limit is the run cut short. -/
theorem run_eq_take {less : Nat} (h : less ≤ limit) :
    l.run less address = (l.run limit address).take less :=
  (isRunOf_run l less address).unique ((isRunOf_run l limit address).take h)

/-- A run is a prefix of the run with another limit exactly if it is within that limit. -/
theorem run_prefix_run_iff {limit' : Nat} :
    l.run limit address <+: l.run limit' address ↔ (l.run limit address).length ≤ limit' := by
  constructor
  · intro h
    exact Nat.le_trans h.length_le (isRunOf_run l limit' address).length_le
  · intro h
    by_cases hle : limit ≤ limit'
    · rw [run_eq_take hle]
      exact List.take_prefix limit _
    · have hlower : limit' ≤ limit := Nat.le_of_not_le hle
      have hsame : l.run limit' address = l.run limit address := by
        rw [run_eq_take hlower, List.take_of_length_le h]
      exact hsame ▸ List.prefix_refl _

/-- **What is read.**  The bytes that a listing holds at the longest run of addresses that it covers
and that is no longer than the length modulo 2^32.  It is the longest within the length itself
exactly if that is less than 2^32 or the run is over by then, and it is a prefix of what is read
with another length exactly if it is within what is left of that. -/
theorem read_longest (l : Listing) (address length : Nat) :
    IsGreatest {n | n ≤ length % addressLimit ∧ l.memory.Covers address n}
      (l.read address length).length ∧
    (∀ k, k < (l.read address length).length →
      (l.read address length)[k]? = l.get? (address + k)) ∧
    (IsGreatest {n | n ≤ length ∧ l.memory.Covers address n} (l.read address length).length ↔
      length < addressLimit ∨ ¬ l.memory.Covers address (length % addressLimit + 1)) ∧
    ∀ length', l.read address length <+: l.read address length' ↔
      (l.read address length).length ≤ length' % addressLimit := by
  have hgreatest : IsGreatest {n | n ≤ length % addressLimit ∧ l.memory.Covers address n}
      (l.read address length).length :=
    isGreatest_run l (length % addressLimit) address
  have hmod : length % addressLimit ≤ length := Nat.mod_le length addressLimit
  refine ⟨hgreatest, ?_, ?_, fun length' => run_prefix_run_iff⟩
  · intro k hk
    rw [get?_eq_memory]
    exact (isRunOf_run l _ address).getElem?_eq k hk
  · constructor
    · intro hwhole
      by_contra hshort
      rw [not_or, not_not] at hshort
      obtain ⟨hlong, hcovered⟩ := hshort
      have hlt : length % addressLimit < addressLimit := Nat.mod_lt _ (by decide)
      -- one address more is covered, and within the length since that goes past the last address
      have hle := hwhole.2 ⟨(by omega : length % addressLimit + 1 ≤ length), hcovered⟩
      have hread := hgreatest.1.1
      omega
    · rintro (hlt | hends)
      · rw [read, Nat.mod_eq_of_lt hlt]
        exact isGreatest_run l length address
      · refine ⟨⟨Nat.le_trans hgreatest.1.1 hmod, hgreatest.1.2⟩, ?_⟩
        rintro n ⟨-, hcovered⟩
        refine hgreatest.2 ⟨?_, hcovered⟩
        by_contra hlonger
        exact hends fun k hk => hcovered k (by omega)

/-- Two bytes at the first two addresses. -/
def pairText : String :=
  ":0200000041427B\n:00000001FF\n"

def pairListing : Listing where
  records := [.data 0 [0x41, 0x42], .endOfFile]

/-- Both are read with a length of 3, and with one of 2^32 + 2. -/
theorem read_pairListing :
    IsGreatest {n | n ≤ 3 ∧ pairListing.memory.Covers 0 n} (pairListing.read 0 3).length ∧
    IsGreatest {n | n ≤ 0x100000002 ∧ pairListing.memory.Covers 0 n}
      (pairListing.read 0 0x100000002).length ∧
    pairListing.read 0 3 <+: pairListing.read 0 0x100000002 := by
  refine ⟨(read_longest pairListing 0 3).2.2.1.2 (.inl (by decide)),
    (read_longest pairListing 0 0x100000002).2.2.1.2 (.inr (by decide +kernel)),
    ((read_longest pairListing 0 3).2.2.2 0x100000002).2 (by decide +kernel)⟩

/-- With a length of 2^32 neither is read, and with one more only the first. -/
theorem read_pairText :
    parse pairText = .ok pairListing ∧
    pairListing.memory.Covers 0 2 ∧
    pairListing.read 0 2 = [0x41, 0x42] ∧
    pairListing.read 0 0x100000000 = [] ∧
    pairListing.read 0 0x100000001 = [0x41] ∧
    ¬ IsGreatest {n | n ≤ 0x100000000 ∧ pairListing.memory.Covers 0 n}
      (pairListing.read 0 0x100000000).length ∧
    ¬ pairListing.read 0 2 <+: pairListing.read 0 0x100000000 := by
  have hcovered : pairListing.memory.Covers 0 2 := by decide +kernel
  have hnothing : pairListing.read 0 0x100000000 = [] := by decide +kernel
  refine ⟨by decide +kernel, hcovered, by decide +kernel, hnothing, by decide +kernel, ?_, ?_⟩
  · rw [hnothing]
    intro hwhole
    have hle := hwhole.2 ⟨(by decide : 2 ≤ 0x100000000), hcovered⟩
    exact absurd hle (by decide)
  · rw [hnothing]
    decide +kernel

end Listing

end IntelHex

end FirmwareStamp
