import FirmwareStamp.Proofs.Indices
import FirmwareStamp.Proofs.SecondPlaceholder
import Mathlib.Data.List.Sort
import Mathlib.Data.Set.Insert

/-!
# Where the placeholder of a raw binary is found

The places of a file are the offsets at which the magic stands with room for the value bytes.  A
placeholder is found at the place where its load address puts it, whatever other places there are,
or else at the only place:

    m.places b = {o} → t.rawOffset? b = .ok (some o)                              (rawOffset?_eq)

The test at one offset slices what is left of a placeholder there and sees whether it is whole; the
search slides a window of its length along the file.  Both take the same offsets for places, and
none in the last 23 bytes (`standsAt_iff_mem_places`, `hits_eq_filter`).
-/

namespace FirmwareStamp

namespace Magic

/-- The offsets at which the magic stands with room for the value bytes after it. -/
def places (m : Magic) (b : Bytes) : Set Nat :=
  {o | o + placeholderLength ≤ b.length ∧ b.slice o length = m.bytes}

instance decidableMemPlaces (m : Magic) (b : Bytes) (o : Nat) : Decidable (o ∈ m.places b) :=
  inferInstanceAs (Decidable (o + placeholderLength ≤ b.length ∧ b.slice o length = m.bytes))

variable {m : Magic} {b : Bytes} {o : Nat}

theorem standsAt_iff_mem_places : m.standsAt b o = true ↔ o ∈ m.places b :=
  standsAt_iff_slice_magic

theorem mem_hits_iff_mem_places : o ∈ m.hits b ↔ o ∈ m.places b :=
  (m.mem_hits_iff b o).trans standsAt_iff_mem_places

/-- The window at a place starts with the magic, and there is a window wherever a placeholder has
room. -/
theorem mem_places_iff_window :
    o ∈ m.places b ↔ o < b.length + 1 - placeholderLength ∧
      m.bytes.isPrefixOf (b.slice o placeholderLength) = true := by
  have hroom : o + placeholderLength ≤ b.length ↔ o < b.length + 1 - placeholderLength := by
    have : 0 < placeholderLength := by decide
    omega
  have hsplit : b.slice o placeholderLength =
      b.slice o length ++ b.slice (o + length) BuildId.length :=
    (Bytes.slice_append_slice b o length BuildId.length).symm
  show (_ ∧ _) ↔ _
  rw [hroom, List.isPrefixOf_iff_prefix]
  refine and_congr_right fun hlt => ⟨fun hmagic => ?_, fun hprefix => ?_⟩
  · rw [hsplit, hmagic]
    exact List.prefix_append _ _
  · have hlength : (b.slice o length).length = m.bytes.length := by
      rw [Bytes.length_slice, m.length_eq]
      simp only [placeholderLength, length, BuildId.length] at hlt ⊢
      omega
    obtain ⟨rest, hrest⟩ := hprefix
    rw [hsplit] at hrest
    exact (List.append_inj hrest hlength.symm).1.symm

/-- The search slides a window of a placeholder's length along the file. -/
theorem hits_eq_filter (m : Magic) (b : Bytes) :
    m.hits b = (List.range (b.length + 1 - placeholderLength)).filter fun o =>
      m.bytes.isPrefixOf (b.slice o placeholderLength) := by
  have hsearch : (m.hits b).Pairwise (· < ·) := m.hitsFrom_pairwise 0 b
  refine hsearch.eq_of_mem_iff (List.pairwise_lt_range.filter _) fun o => ?_
  rw [mem_hits_iff_mem_places, mem_places_iff_window, List.mem_filter, List.mem_range]

/-- The test slices a placeholder with both ends cut off at the end of the file, as far as numbers
of 64 bits go. -/
theorem mem_places_iff_between? (ho : o < Elf.wordLimit) (hb : b.length < Elf.wordLimit) :
    ∃ found, b.between? (min o b.length)
        (min (Bytes.saturatingAdd (min o b.length) placeholderLength) b.length) = some found ∧
      (o ∈ m.places b ↔
        found.length = placeholderLength ∧ m.bytes.isPrefixOf found = true) := by
  obtain ⟨found, hfound, hslice⟩ := b.between?_placeholder ho
  refine ⟨found, hfound, ?_⟩
  rw [hslice hb, ← standsAt_iff_mem_places, standsAt, Bool.and_eq_true, decide_eq_true_eq]

theorem places_eq_singleton_iff : m.places b = {o} ↔ m.hits b = [o] := by
  rw [hits_eq_singleton_iff, Set.ext_iff]
  refine forall_congr' fun x => ?_
  rw [standsAt_iff_mem_places, Set.mem_singleton_iff]

/-- A magic with an ID after it is at a place. -/
theorem mem_places_append (m : Magic) (front back : Bytes) (id : BuildId) :
    front.length ∈ m.places (front ++ (m.bytes ++ id.bytes ++ back)) := by
  constructor
  · rw [List.length_append, List.length_append, placeholderLength_eq]
    omega
  · have hmagic : m.bytes.length = length := m.length_eq
    rw [Bytes.slice, List.drop_left, List.append_assoc, ← hmagic, List.take_left]

end Magic

namespace Target

variable {t : Target} {address base : Nat} {b : Bytes}

theorem rawOffset?_of_mem_places (haddress : t.image.loadAddress t.address = .ok address)
    (hbase : t.image.baseAddress = .ok base) (hle : base ≤ address)
    (hplace : address - base ∈ t.descriptor.magic.places b) :
    t.rawOffset? b = .ok (some (address - base)) := by
  have hstands := Magic.standsAt_iff_mem_places.2 hplace
  exact rawOffset?_eq_some_iff.2 ⟨address, base, haddress, hbase, .inl ⟨hle, rfl, hstands⟩⟩

/-- A placeholder that does not stand where it should is found at the only place. -/
theorem rawOffset?_eq_some_iff_places (haddress : t.image.loadAddress t.address = .ok address)
    (hbase : t.image.baseAddress = .ok base)
    (hnot : ¬ (base ≤ address ∧ address - base ∈ t.descriptor.magic.places b)) {o : Nat} :
    t.rawOffset? b = .ok (some o) ↔ t.descriptor.magic.places b = {o} := by
  rw [rawOffset?_eq_some_iff, Magic.places_eq_singleton_iff]
  rw [← Magic.standsAt_iff_mem_places] at hnot
  constructor
  · rintro ⟨address', base', haddress', hbase', hfound⟩
    obtain rfl : address = address' := Except.ok.inj (haddress.symm.trans haddress')
    obtain rfl : base = base' := Except.ok.inj (hbase.symm.trans hbase')
    rcases hfound with ⟨hle, rfl, hstands⟩ | ⟨-, hhits⟩
    · exact absurd ⟨hle, hstands⟩ hnot
    · exact hhits
  · intro hhits
    exact ⟨address, base, haddress, hbase, .inr ⟨hnot, hhits⟩⟩

/-- Once the addresses are known the search gives an answer. -/
theorem exists_rawOffset? (haddress : t.image.loadAddress t.address = .ok address)
    (hbase : t.image.baseAddress = .ok base) (b : Bytes) :
    ∃ offset?, t.rawOffset? b = .ok offset? := by
  unfold rawOffset?
  simp only [haddress, hbase, ok_bind]
  split
  · exact ⟨_, rfl⟩
  · split <;> exact ⟨_, rfl⟩

/-- A placeholder at the only place is found there, whether or not it should be there. -/
theorem rawOffset?_of_places_eq (haddress : t.image.loadAddress t.address = .ok address)
    (hbase : t.image.baseAddress = .ok base) {o : Nat}
    (hplaces : t.descriptor.magic.places b = {o}) : t.rawOffset? b = .ok (some o) := by
  by_cases hhere : base ≤ address ∧ address - base ∈ t.descriptor.magic.places b
  · rw [rawOffset?_of_mem_places haddress hbase hhere.1 hhere.2]
    have hsame := hhere.2
    rw [hplaces, Set.mem_singleton_iff] at hsame
    rw [hsame]
  · exact (rawOffset?_eq_some_iff_places haddress hbase hhere).2 hplaces

/-- **Where a placeholder is found.**  At the place where its load address puts it, whatever other
places there are; else at the only place; else nowhere.  The test at one offset and the search take
the same offsets for places, each as it goes about it, and none where the file ends too soon.  What
precedes the only placeholder of a file is no matter. -/
theorem rawOffset?_eq (haddress : t.image.loadAddress t.address = .ok address)
    (hbase : t.image.baseAddress = .ok base) (b : Bytes) :
    (base ≤ address → address - base ∈ t.descriptor.magic.places b →
      t.rawOffset? b = .ok (some (address - base))) ∧
    (¬ (base ≤ address ∧ address - base ∈ t.descriptor.magic.places b) →
      (∀ o, t.descriptor.magic.places b = {o} → t.rawOffset? b = .ok (some o)) ∧
      ((∀ o, t.descriptor.magic.places b ≠ {o}) → t.rawOffset? b = .ok none)) ∧
    (∀ o, (t.descriptor.magic.standsAt b o = true ↔ o ∈ t.descriptor.magic.places b) ∧
      (o ∈ t.descriptor.magic.hits b ↔ o ∈ t.descriptor.magic.places b) ∧
      (b.length < o + placeholderLength → o ∉ t.descriptor.magic.hits b)) ∧
    (t.descriptor.magic.hits b =
      (List.range (b.length + 1 - placeholderLength)).filter fun o =>
        t.descriptor.magic.bytes.isPrefixOf (b.slice o placeholderLength)) ∧
    (∀ o, o < Elf.wordLimit → b.length < Elf.wordLimit →
      ∃ found, b.between? (min o b.length)
          (min (Bytes.saturatingAdd (min o b.length) placeholderLength) b.length) = some found ∧
        (o ∈ t.descriptor.magic.places b ↔ found.length = placeholderLength ∧
          t.descriptor.magic.bytes.isPrefixOf found = true)) ∧
    (∀ front back (id : BuildId), b = front ++ (t.descriptor.magic.bytes ++ id.bytes ++ back) →
      (∀ o ∈ t.descriptor.magic.places b, o = front.length) →
      t.rawOffset? b = .ok (some front.length)) := by
  refine ⟨rawOffset?_of_mem_places haddress hbase, fun hnot => ⟨?_, ?_⟩, fun o => ⟨?_, ?_, ?_⟩,
    Magic.hits_eq_filter _ b, ?_, ?_⟩
  · intro o hplaces
    exact rawOffset?_of_places_eq haddress hbase hplaces
  · intro hmany
    obtain ⟨offset?, hanswer⟩ := exists_rawOffset? haddress hbase b
    cases offset? with
    | none => exact hanswer
    | some o =>
      have honly := (rawOffset?_eq_some_iff_places haddress hbase hnot).1 hanswer
      exact absurd honly (hmany o)
  · exact Magic.standsAt_iff_mem_places
  · exact Magic.mem_hits_iff_mem_places
  · intro hshort hhit
    have hroom := (Magic.mem_hits_iff_mem_places.1 hhit).1
    omega
  · intro o ho hb
    exact Magic.mem_places_iff_between? ho hb
  · intro front back id hb honly
    refine rawOffset?_of_places_eq haddress hbase (Set.eq_singleton_iff_unique_mem.2 ⟨?_, honly⟩)
    rw [hb]
    exact Magic.mem_places_append _ front back id

/-- The magic whose four bytes are the same, so that it begins again inside itself. -/
def evenTarget : Target :=
  { loneTarget with descriptor := ⟨"id", ⟨[0xaa, 0xaa, 0xaa, 0xaa], rfl⟩⟩ }

/-- Two places, one where the placeholder should be; the same two behind a prefix; the only place
behind a prefix; and one byte too few. -/
theorem rawOffset?_evenTarget :
    evenTarget.image.loadAddress evenTarget.address = .ok 0x8000 ∧
      evenTarget.image.baseAddress = .ok 0x8000 ∧
      evenTarget.rawOffset? (List.replicate 25 0xaa) = .ok (some 0) ∧
      evenTarget.rawOffset? (0xe9 :: List.replicate 25 0xaa) = .ok none ∧
      evenTarget.rawOffset? ([0xe9, 0xe9] ++ List.replicate 24 0xaa) = .ok (some 2) ∧
      evenTarget.rawOffset? ([0xe9, 0xe9] ++ List.replicate 23 0xaa) = .ok none := by
  have haddress : evenTarget.image.loadAddress evenTarget.address = .ok 0x8000 := by
    decide +kernel
  have hbase : evenTarget.image.baseAddress = .ok 0x8000 := by decide +kernel
  have hmany {b : Bytes} (hhits : (evenTarget.descriptor.magic.hits b).length ≠ 1) (o : Nat) :
      evenTarget.descriptor.magic.places b ≠ {o} := by
    intro hplaces
    rw [Magic.places_eq_singleton_iff.1 hplaces] at hhits
    exact hhits rfl
  refine ⟨haddress, hbase, ?_, ?_, ?_, ?_⟩
  · exact (rawOffset?_eq haddress hbase _).1 (by decide) (by decide +kernel)
  · exact ((rawOffset?_eq haddress hbase _).2.1 (by decide +kernel)).2 (hmany (by decide +kernel))
  · exact ((rawOffset?_eq haddress hbase _).2.1 (by decide +kernel)).1 2
      (Magic.places_eq_singleton_iff.2 (by decide +kernel))
  · exact ((rawOffset?_eq haddress hbase _).2.1 (by decide +kernel)).2 (hmany (by decide +kernel))

end Target

end FirmwareStamp
