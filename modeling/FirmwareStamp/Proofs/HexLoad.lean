import FirmwareStamp.Proofs.SparseMemory

/-!
# Devices loaded from an Intel HEX file

A device is loaded with the data records of a file one after the other, in the order of the file:
of the records that cover an address the last one counts (`loaded_eq`).  Reading and writing a file
go by the first one.  So a write reaches the device where one record covers the address, and nowhere
else:

    l.write? a b = some m →
      m.loaded x = if a ≤ x ∧ x < a + b.length ∧ l.CoveredOnce x then b[x - a]? else l.loaded x
                                                                                     (loaded_write?)

Two files merged into one can cover an address twice.  A write to it is carried out and read back,
and the device is loaded with the old byte (`write?_mergedText`).
-/

namespace FirmwareStamp

namespace IntelHex

/-- A memory with regions written into it, one after the other. -/
def Memory.loadAll (m : Memory) (regions : List (Nat × Bytes)) : Memory :=
  regions.foldl (fun m region => m.overwrite region.1 region.2) m

namespace Listing

/-- What an empty device holds once it is loaded with a file. -/
def loaded (l : Listing) : Memory :=
  Memory.loadAll (fun _ => none) l.regions

/-- Whether the record at an index is the first that covers an address. -/
def HoldsFirst (base : Nat) (records : List Record) (address i : Nat) : Prop :=
  (heldBy? base records address i).isSome = true ∧
    ∀ j, j < i → heldBy? base records address j = none

/-- Whether the record at an index is the last that covers an address. -/
def HoldsLast (base : Nat) (records : List Record) (address i : Nat) : Prop :=
  (heldBy? base records address i).isSome = true ∧
    ∀ j, i < j → heldBy? base records address j = none

/-- Whether no two records cover an address. -/
def CoveredOnce (l : Listing) (address : Nat) : Prop :=
  ∀ i, i < l.records.length → ∀ j, j < l.records.length →
    (heldBy? 0 l.records address i).isSome = true →
    (heldBy? 0 l.records address j).isSome = true → i = j

instance decidableHoldsFirst (base : Nat) (records : List Record) (address i : Nat) :
    Decidable (HoldsFirst base records address i) :=
  inferInstanceAs (Decidable ((heldBy? base records address i).isSome = true ∧
    ∀ j, j < i → heldBy? base records address j = none))

instance decidableCoveredOnce (l : Listing) (address : Nat) : Decidable (l.CoveredOnce address) :=
  inferInstanceAs (Decidable (∀ i, i < l.records.length → ∀ j, j < l.records.length →
    (heldBy? 0 l.records address i).isSome = true →
    (heldBy? 0 l.records address j).isSome = true → i = j))

/-! ## Loading -/

variable {l m : Listing} {base address i : Nat} {records changed : List Record} {byte : UInt8}
  {b : Bytes}

theorem holdsLast_cons_succ {r : Record} :
    HoldsLast base (r :: records) address (i + 1) ↔
      HoldsLast (r.baseAfter base) records address i := by
  unfold HoldsLast
  rw [heldBy?_cons_succ]
  refine and_congr_right fun _ => ⟨fun h j hj => ?_, fun h j hj => ?_⟩
  · rw [← heldBy?_cons_succ base r]
    exact h (j + 1) (by omega)
  · obtain ⟨j, rfl⟩ : ∃ k, j = k + 1 := ⟨j - 1, by omega⟩
    rw [heldBy?_cons_succ]
    exact h j (by omega)

/-- The regions of a record and of those after it. -/
theorem loadAll_regionsFrom_cons (m : Memory) (base : Nat) (r : Record) (rest : List Record) :
    ∃ n : Memory, m.loadAll (regionsFrom base (r :: rest)) =
        n.loadAll (regionsFrom (r.baseAfter base) rest) ∧
      ∀ x, n x = (r.byteAt? base x).or (m x) := by
  cases r with
  | data offset payload =>
    refine ⟨m.overwrite (base + offset.toNat) payload, rfl, fun x => ?_⟩
    unfold Memory.overwrite Record.byteAt?
    dsimp only
    by_cases hle : base + offset.toNat ≤ x
    · by_cases hlt : x < base + offset.toNat + payload.length
      · rw [if_pos ⟨hle, hlt⟩, if_pos hle, List.getElem?_eq_getElem (by omega), Option.some_or]
      · rw [if_neg (by omega), if_pos hle, List.getElem?_eq_none (by omega), Option.none_or]
    · rw [if_neg (by omega), if_neg hle, Option.none_or]
  | _ => exact ⟨m, rfl, fun x => rfl⟩

/-- Of the records that cover an address the last one counts; where there is none the memory stays
as it was. -/
theorem loadAll_regionsFrom (m : Memory) (base : Nat) (records : List Record) (address : Nat) :
    (∃ i, HoldsLast base records address i ∧
      m.loadAll (regionsFrom base records) address = heldBy? base records address i) ∨
    (∀ i, heldBy? base records address i = none) ∧
      m.loadAll (regionsFrom base records) address = m address := by
  induction records generalizing base m with
  | nil => exact .inr ⟨fun i => rfl, rfl⟩
  | cons r rest ih =>
    obtain ⟨n, hload, hn⟩ := loadAll_regionsFrom_cons m base r rest
    rw [hload]
    rcases ih n (r.baseAfter base) with ⟨i, hlast, hvalue⟩ | ⟨hnone, hvalue⟩
    · refine .inl ⟨i + 1, holdsLast_cons_succ.2 hlast, ?_⟩
      rw [hvalue, heldBy?_cons_succ]
    rw [hvalue, hn]
    -- no record after this one covers the address
    have hrest : ∀ j, 0 < j → heldBy? base (r :: rest) address j = none := by
      intro j hj
      obtain ⟨j, rfl⟩ : ∃ k, j = k + 1 := ⟨j - 1, by omega⟩
      rw [heldBy?_cons_succ]
      exact hnone j
    rw [← heldBy?_cons_zero base r rest]
    cases hhead : heldBy? base (r :: rest) address 0 with
    | some byte =>
      refine .inl ⟨0, ⟨by rw [hhead]; rfl, hrest⟩, ?_⟩
      rw [hhead, Option.some_or]
    | none =>
      refine .inr ⟨fun j => ?_, Option.none_or⟩
      rcases Nat.eq_zero_or_pos j with rfl | hj
      · exact hhead
      · exact hrest j hj

/-- **Loading.**  A device holds what the last record that covers the address holds there. -/
theorem loaded_eq (l : Listing) (address : Nat) :
    (∃ i, HoldsLast 0 l.records address i ∧
      l.loaded address = heldBy? 0 l.records address i) ∨
    (∀ i, heldBy? 0 l.records address i = none) ∧ l.loaded address = none :=
  loadAll_regionsFrom (fun _ => none) 0 l.records address

theorem HoldsLast.ne_none (h : HoldsLast base records address i) :
    heldBy? base records address i ≠ none :=
  Option.isSome_iff_ne_none.1 h.1

theorem HoldsLast.unique {j : Nat} (hi : HoldsLast base records address i)
    (hj : HoldsLast base records address j) : i = j := by
  rcases Nat.lt_trichotomy i j with hij | rfl | hji
  · exact absurd (hi.2 j hij) hj.ne_none
  · rfl
  · exact absurd (hj.2 i hji) hi.ne_none

theorem loaded_of_holdsLast (h : HoldsLast 0 l.records address i) :
    l.loaded address = heldBy? 0 l.records address i := by
  rcases l.loaded_eq address with ⟨j, hlast, hvalue⟩ | ⟨hnone, -⟩
  · rwa [h.unique hlast]
  · exact absurd (hnone i) h.ne_none

/-! ## Writing -/

theorem holdsFirst_cons_succ {r : Record} (hnone : r.byteAt? base address = none) :
    HoldsFirst base (r :: records) address (i + 1) ↔
      HoldsFirst (r.baseAfter base) records address i := by
  unfold HoldsFirst
  rw [heldBy?_cons_succ]
  refine and_congr_right fun _ => ⟨fun h j hj => ?_, fun h j hj => ?_⟩
  · rw [← heldBy?_cons_succ base r]
    exact h (j + 1) (by omega)
  · cases j with
    | zero => rw [heldBy?_cons_zero, hnone]
    | succ j =>
      rw [heldBy?_cons_succ]
      exact h j (by omega)

/-- Setting a byte changes it in the first record that covers its address, and nothing else. -/
theorem heldBy?_setFrom? (h : setFrom? address byte base records = some changed) (x i : Nat) :
    heldBy? base changed x i =
      if x = address ∧ HoldsFirst base records address i then some byte
      else heldBy? base records x i := by
  induction records generalizing base changed i with
  | nil => contradiction
  | cons r rest ih =>
    simp only [setFrom?] at h
    cases hhead : r.byteAt? base address with
    | some old =>
      rw [hhead] at h
      cases h
      cases i with
      | zero =>
        have hfirst : HoldsFirst base (r :: rest) address 0 :=
          ⟨by rw [heldBy?_cons_zero, hhead]; rfl, fun j hj => absurd hj (by omega)⟩
        rw [heldBy?_cons_zero, heldBy?_cons_zero, byteAt?_setByte hhead]
        simp only [hfirst, and_true]
      | succ i =>
        have hnot : ¬ HoldsFirst base (r :: rest) address (i + 1) := by
          intro hfirst
          have := hfirst.2 0 (by omega)
          rw [heldBy?_cons_zero, hhead] at this
          contradiction
        rw [heldBy?_cons_succ, heldBy?_cons_succ, baseAfter_setByte, if_neg fun h => hnot h.2]
    | none =>
      rw [hhead] at h
      obtain ⟨rest', hrest, rfl⟩ := Option.map_eq_some_iff.1 h
      cases i with
      | zero =>
        rw [heldBy?_cons_zero, heldBy?_cons_zero, if_neg]
        rintro ⟨-, hsome, -⟩
        rw [heldBy?_cons_zero, hhead] at hsome
        contradiction
      | succ i =>
        rw [heldBy?_cons_succ, heldBy?_cons_succ, ih hrest]
        exact if_congr (and_congr_right fun _ => (holdsFirst_cons_succ hhead).symm) rfl rfl

theorem heldBy?_set? (h : l.set? address byte = some m) (x i : Nat) :
    heldBy? 0 m.records x i =
      if x = address ∧ HoldsFirst 0 l.records address i then some byte
      else heldBy? 0 l.records x i := by
  unfold set? at h
  split at h
  · obtain ⟨changed, hchanged, rfl⟩ := Option.map_eq_some_iff.1 h
    exact heldBy?_setFrom? hchanged x i
  · contradiction

/-- Setting a byte leaves alone which records cover an address. -/
theorem isSome_heldBy?_set? (h : l.set? address byte = some m) (x i : Nat) :
    (heldBy? 0 m.records x i).isSome = (heldBy? 0 l.records x i).isSome := by
  rw [heldBy?_set? h]
  split
  · next hfirst =>
    obtain ⟨rfl, hsome, -⟩ := hfirst
    rw [hsome]
    rfl
  · rfl

theorem holdsFirst_congr {records' : List Record}
    (h : ∀ i, (heldBy? base records' address i).isSome = (heldBy? base records address i).isSome) :
    HoldsFirst base records' address i ↔ HoldsFirst base records address i := by
  simp only [HoldsFirst, ← Option.not_isSome_iff_eq_none, h]

theorem holdsLast_congr {records' : List Record}
    (h : ∀ i, (heldBy? base records' address i).isSome = (heldBy? base records address i).isSome) :
    HoldsLast base records' address i ↔ HoldsLast base records address i := by
  simp only [HoldsLast, ← Option.not_isSome_iff_eq_none, h]

theorem isSome_heldBy?_write? (h : l.write? address b = some m) (x i : Nat) :
    (heldBy? 0 m.records x i).isSome = (heldBy? 0 l.records x i).isSome := by
  induction b generalizing l address with
  | nil =>
    cases h
    rfl
  | cons byte rest ih =>
    obtain ⟨k, hset, hrest⟩ := Option.bind_eq_some_iff.1 h
    rw [ih hrest, isSome_heldBy?_set? hset]

/-- A write changes each byte in the first record that covers its address, and nothing else. -/
theorem heldBy?_write? (h : l.write? address b = some m) (x i : Nat) :
    heldBy? 0 m.records x i =
      if (address ≤ x ∧ x < address + b.length) ∧ HoldsFirst 0 l.records x i then b[x - address]?
      else heldBy? 0 l.records x i := by
  induction b generalizing l address with
  | nil =>
    cases h
    rw [if_neg]
    rintro ⟨hin, -⟩
    rw [List.length_nil] at hin
    omega
  | cons byte rest ih =>
    obtain ⟨k, hset, hrest⟩ := Option.bind_eq_some_iff.1 h
    have hfirst : HoldsFirst 0 k.records x i ↔ HoldsFirst 0 l.records x i :=
      holdsFirst_congr (isSome_heldBy?_set? hset x)
    rw [ih hrest, heldBy?_set? hset, List.length_cons]
    simp only [hfirst]
    by_cases hx : x = address
    · subst hx
      rw [if_neg (by omega), Nat.sub_self, List.getElem?_cons_zero]
      refine if_congr (and_congr_left fun _ => ?_) rfl rfl
      exact ⟨fun _ => by omega, fun _ => rfl⟩
    rw [if_neg fun h : x = address ∧ _ => hx h.1]
    by_cases hin : address + 1 ≤ x
    · rw [show x - address = x - (address + 1) + 1 by omega, List.getElem?_cons_succ]
      refine if_congr (and_congr_left fun _ => ?_) rfl rfl
      exact ⟨fun _ => by omega, fun _ => by omega⟩
    · rw [if_neg (by omega), if_neg (by omega)]

theorem lt_length_of_heldBy? (h : (heldBy? base records address i).isSome = true) :
    i < records.length := by
  unfold heldBy? at h
  split at h
  · next hrecord => exact (List.getElem?_eq_some_iff.1 hrecord).1
  · contradiction

/-- The last record that covers an address is the first as well exactly if no other covers it. -/
theorem HoldsLast.holdsFirst_iff (h : HoldsLast 0 l.records address i) :
    HoldsFirst 0 l.records address i ↔ l.CoveredOnce address := by
  have hlength := lt_length_of_heldBy? h.1
  constructor
  · intro hfirst
    have honly : ∀ j, (heldBy? 0 l.records address j).isSome = true → j = i := by
      intro j hj
      rcases Nat.lt_trichotomy i j with hij | rfl | hij
      · rw [h.2 j hij] at hj
        contradiction
      · rfl
      · rw [hfirst.2 j hij] at hj
        contradiction
    intro j _ k _ hj hk
    rw [honly j hj, honly k hk]
  · intro honce
    refine ⟨h.1, fun j hj => ?_⟩
    rw [← Option.not_isSome_iff_eq_none]
    intro hsome
    have := honce j (by omega) i hlength hsome h.1
    omega

theorem loaded_of_write? (h : l.write? address b = some m) (x : Nat) :
    m.loaded x =
      if (address ≤ x ∧ x < address + b.length) ∧ l.CoveredOnce x then b[x - address]?
      else l.loaded x := by
  rcases l.loaded_eq x with ⟨i, hlast, hvalue⟩ | ⟨hnone, hvalue⟩
  · rw [loaded_of_holdsLast ((holdsLast_congr (isSome_heldBy?_write? h x)).2 hlast),
      heldBy?_write? h, hvalue]
    exact if_congr (and_congr_right fun _ => hlast.holdsFirst_iff) rfl rfl
  · -- no record covers the address, so it is none of those that are written
    have hnone' : ∀ i, heldBy? 0 m.records x i = none := by
      intro i
      rw [← Option.not_isSome_iff_eq_none, isSome_heldBy?_write? h, hnone i]
      simp
    have hout : ¬ (address ≤ x ∧ x < address + b.length) := by
      rintro ⟨hle, hlt⟩
      have hcovers := (write?_isSome_iff.1 (Option.isSome_of_eq_some h)) (x - address) (by omega)
      rw [Nat.add_sub_cancel' hle] at hcovers
      have hsome := hcovers.2
      unfold memory at hsome
      rw [if_pos hcovers.1, List.findSome?_eq_none_iff.2 fun i _ => hnone i] at hsome
      contradiction
    rw [if_neg fun h => hout h.1, hvalue]
    rcases m.loaded_eq x with ⟨i, hlast, -⟩ | ⟨-, hvalue'⟩
    · exact absurd (hnone' i) hlast.ne_none
    · exact hvalue'

/-- **What a write puts on a device.**  Each byte is changed in the first record that covers its
address.  The device is loaded with it where that is the only one, and holds everywhere else what
it is loaded with before.  So the write reaches the device exactly if each address is covered once
or loaded with the byte already. -/
theorem loaded_write? (h : l.write? address b = some m) :
    (∀ x i, heldBy? 0 m.records x i =
      if (address ≤ x ∧ x < address + b.length) ∧ HoldsFirst 0 l.records x i then b[x - address]?
      else heldBy? 0 l.records x i) ∧
    (∀ x, m.loaded x =
      if (address ≤ x ∧ x < address + b.length) ∧ l.CoveredOnce x then b[x - address]?
      else l.loaded x) ∧
    ((∀ k, k < b.length → m.loaded (address + k) = b[k]?) ↔
      ∀ k, k < b.length → l.CoveredOnce (address + k) ∨ l.loaded (address + k) = b[k]?) := by
  refine ⟨heldBy?_write? h, loaded_of_write? h, ?_⟩
  refine forall_congr' fun k => imp_congr_right fun hk => ?_
  rw [loaded_of_write? h, Nat.add_sub_cancel_left]
  have hin : address ≤ address + k ∧ address + k < address + b.length := by omega
  by_cases honce : l.CoveredOnce (address + k)
  · rw [if_pos ⟨hin, honce⟩]
    exact ⟨fun _ => .inl honce, fun _ => rfl⟩
  · rw [if_neg fun h => honce h.2]
    exact ⟨.inr, fun h => h.resolve_left honce⟩

/-- A file of two that were merged: a record of four bytes, and one that begins at its third. -/
def mergedText : String :=
  ":0401000001020304F1\n:0401020005060708DF\n:00000001FF\n"

def mergedListing : Listing where
  records := [.data 0x100 [1, 2, 3, 4], .data 0x102 [5, 6, 7, 8], .endOfFile]

/-- A write to the bytes that are covered once reaches the device, here that to the first two and
the last two. -/
theorem loaded_mergedListing :
    ∃ m n, mergedListing.write? 0x100 [9, 10] = some m ∧ m.write? 0x104 [11, 12] = some n ∧
      (∀ k, k < 2 → m.loaded (0x100 + k) = [9, 10][k]?) ∧
      (∀ k, k < 2 → n.loaded (0x104 + k) = [11, 12][k]?) := by
  have hfirst : mergedListing.write? 0x100 [9, 10] =
      some ⟨[.data 0x100 [9, 10, 3, 4], .data 0x102 [5, 6, 7, 8], .endOfFile]⟩ := by
    decide +kernel
  have hlast : (⟨[.data 0x100 [9, 10, 3, 4], .data 0x102 [5, 6, 7, 8], .endOfFile]⟩ :
      Listing).write? 0x104 [11, 12] =
        some ⟨[.data 0x100 [9, 10, 3, 4], .data 0x102 [5, 6, 11, 12], .endOfFile]⟩ := by
    decide +kernel
  refine ⟨_, _, hfirst, hlast, (loaded_write? hfirst).2.2.2 ?_, (loaded_write? hlast).2.2.2 ?_⟩
  · decide +kernel
  · decide +kernel

/-- A write to bytes that both records cover is carried out and read back.  It changes the first
record, and the device is loaded with the bytes of the second. -/
theorem write?_mergedText :
    parse mergedText = .ok mergedListing ∧
      ∃ m, mergedListing.write? 0x101 [0xaa, 0xbb, 0xcc] = some m ∧
        m.read 0x101 3 = [0xaa, 0xbb, 0xcc] ∧
        m.loaded 0x101 = some 0xaa ∧ m.loaded 0x102 = some 5 ∧ m.loaded 0x103 = some 6 := by
  have hwrite : mergedListing.write? 0x101 [0xaa, 0xbb, 0xcc] =
      some ⟨[.data 0x100 [1, 0xaa, 0xbb, 0xcc], .data 0x102 [5, 6, 7, 8], .endOfFile]⟩ := by
    decide +kernel
  refine ⟨by decide +kernel, _, hwrite, ?_⟩
  decide +kernel

end Listing

end IntelHex

end FirmwareStamp
