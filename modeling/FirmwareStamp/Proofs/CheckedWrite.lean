import FirmwareStamp.Proofs.OneFile
import FirmwareStamp.Proofs.SparseMemory

/-!
# Writing into an Intel HEX file after the check

Reading a listing stops at the first address that no data record covers, and past the last address
of all.  The check wants a whole placeholder, so where it passes every address of one is covered and
the write that follows is not refused:

    d.check path a (l.read a placeholderLength) = .ok old →
      l.memory.Covers a placeholderLength                                          (covers_of_check)

So once a file has passed the check all that can fail is to render it, and stamping never ends with
an address that no record covers (`stampIntelHex_after_check`).
-/

namespace FirmwareStamp

namespace IntelHex

theorem Memory.Covers.add {m : Memory} {address i n : Nat} (h : m.Covers address (i + n)) :
    m.Covers (address + i) n := by
  intro k hk
  rw [Nat.add_assoc]
  exact h (i + k) (by omega)

namespace Listing

/-- Whether a data record of a listing covers an address. -/
def IsCovered (l : Listing) (address : Nat) : Prop :=
  ∃ i offset payload, l.records[i]? = some (.data offset payload) ∧
    baseAt 0 l.records i + offset.toNat ≤ address ∧
    address < baseAt 0 l.records i + offset.toNat + payload.length

variable {l : Listing} {address i : Nat}

theorem isSome_heldBy?_iff :
    (heldBy? 0 l.records address i).isSome = true ↔
      ∃ offset payload, l.records[i]? = some (.data offset payload) ∧
        baseAt 0 l.records i + offset.toNat ≤ address ∧
        address < baseAt 0 l.records i + offset.toNat + payload.length := by
  unfold heldBy?
  constructor
  · intro h
    split at h
    · next offset payload hrecord =>
      dsimp only at h
      split at h
      · next hle =>
        rw [isSome_getElem?] at h
        exact ⟨offset, payload, hrecord, hle, by omega⟩
      · contradiction
    · contradiction
  · rintro ⟨offset, payload, hrecord, hle, hlt⟩
    rw [hrecord]
    dsimp only
    rw [if_pos hle, isSome_getElem?]
    omega

/-- There is a byte at what is an address exactly if a data record covers it. -/
theorem isSome_memory_iff :
    (l.memory address).isSome = true ↔ address < addressLimit ∧ l.IsCovered address := by
  unfold memory
  split
  · next hlt =>
    rw [List.findSome?_isSome_iff]
    constructor
    · rintro ⟨i, -, hi⟩
      exact ⟨hlt, i, isSome_heldBy?_iff.1 hi⟩
    · rintro ⟨-, i, offset, payload, hrecord, hin⟩
      have hlength := (List.getElem?_eq_some_iff.1 hrecord).1
      exact ⟨i, List.mem_range.2 hlength, isSome_heldBy?_iff.2 ⟨offset, payload, hrecord, hin⟩⟩
  · next hlt => simp [hlt]

end Listing

end IntelHex

theorem Store.exists_file_of_listing {s : Store} {path : String} {l : IntelHex.Listing}
    (h : s.listing path = .ok l) : ∃ loc b, s.file path = .ok (loc, b) := by
  cases hfile : s.file path with
  | ok entry => exact ⟨entry.1, entry.2, rfl⟩
  | error fault =>
    unfold listing readText at h
    rw [read_eq_error hfile] at h
    contradiction

namespace Target

variable {t : Target} {path : String} {id old : BuildId} {w w' : Workspace}
  {l : IntelHex.Listing} {d : Descriptor} {address : Nat} {e : Error}

/-! ## What a check that passes says -/

/-- A placeholder that passes the check has all its addresses. -/
theorem covers_of_check
    (h : d.check path address (l.read address placeholderLength) = .ok old) :
    l.memory.Covers address placeholderLength := by
  have hholds := check_read_eq_ok_iff.1 h
  intro k hk
  rw [← placeholderLength_eq d.magic old] at hk
  rw [← IntelHex.Listing.get?_eq_memory]
  exact ⟨hholds.lt_addressLimit hk, hholds.get?_isSome hk⟩

/-- The value bytes of a placeholder that passes the check can be written, found slot by slot. -/
theorem exists_write?_of_check
    (h : d.check path address (l.read address placeholderLength) = .ok old) (id : BuildId) :
    ∃ m, l.write? (address + Magic.length) id.bytes = some m ∧
      l.writeBySlots? (address + Magic.length) id.bytes = some m ∧
      m.memory = l.memory.overwrite (address + Magic.length) id.bytes := by
  have hvalue : l.memory.Covers (address + Magic.length) id.bytes.length := by
    rw [id.length_eq]
    exact (covers_of_check h).add
  have hshort : id.bytes.length < IntelHex.addressLimit := by
    rw [id.length_eq]
    decide
  obtain ⟨m, hm⟩ := Option.isSome_iff_exists.1 (IntelHex.Listing.write?_isSome_iff.2 hvalue)
  refine ⟨m, hm, ?_, IntelHex.Listing.memory_write? hm⟩
  rw [← IntelHex.Listing.write?_eq_writeBySlots? l _ hshort, hm]

/-! ## Stamping -/

/-- Once the check passes, the ID is written into the listing, and all that can fail is to render
it. -/
theorem run_stampIntelHex_of_check (haddress : t.hexAddress path = .ok address)
    (hlisting : w.store.listing path = .ok l)
    (hcheck : t.descriptor.check path address (l.read address placeholderLength) = .ok old)
    (id : BuildId) :
    ∃ m loc b, l.write? (address + Magic.length) id.bytes = some m ∧
      w.store.file path = .ok (loc, b) ∧
      (t.stampIntelHex path id).run w =
        w.edited loc (w.notices ++ [.stamping .intelHex path id (address + Magic.length)])
          ((fun text => some ⟨address + Magic.length, Bytes.ofText text⟩) <$>
            m.render.mapError (.hex path)) := by
  obtain ⟨m, hwrite, -, -⟩ := exists_write?_of_check hcheck id
  obtain ⟨loc, b, hfile⟩ := Store.exists_file_of_listing hlisting
  have hplace : address + Magic.length < IntelHex.addressLimit :=
    (covers_of_check hcheck Magic.length (by decide)).1
  refine ⟨m, loc, b, hwrite, hfile, ?_⟩
  unfold stampIntelHex
  rw [haddress, Session.bind_ok (Session.run_lift_ok _ _), Session.bind_ok (Session.run_store _),
    hlisting, Session.bind_ok (Session.run_lift_ok _ _), hcheck,
    Session.bind_ok (Session.run_lift_ok _ _), if_neg (by omega),
    Session.bind_ok (Session.run_tell _ _), hwrite]
  dsimp only
  cases m.render with
  | error fault => rfl
  | ok text =>
    rw [mapError_ok, Session.bind_ok (Session.run_lift_ok _ _), Store.write_eq_ok hfile,
      Session.bind_ok (Session.run_commit_ok _ _ _)]
    rfl

/-- Stamping fails to find the address of the placeholder, to read the file, at the check, or to
render the file. -/
theorem stampIntelHex_eq_error (h : (t.stampIntelHex path id).run w = .error e w') :
    t.hexAddress path = .error e ∨ w.store.listing path = .error e ∨
      (∃ address l, w.store.listing path = .ok l ∧
        t.descriptor.check path address (l.read address placeholderLength) = .error e) ∨
      ∃ fault, e = .hex path fault := by
  have hrun := h
  unfold stampIntelHex at h
  rcases Session.lift_bind_eq_error_iff.1 h with ⟨haddress, -⟩ | ⟨address, haddress, h⟩
  · exact .inl haddress
  rw [Session.bind_ok (Session.run_store w)] at h
  rcases Session.lift_bind_eq_error_iff.1 h with ⟨hlisting, -⟩ | ⟨l, hlisting, h⟩
  · exact .inr (.inl hlisting)
  rcases Session.lift_bind_eq_error_iff.1 h with ⟨hcheck, -⟩ | ⟨old, hcheck, -⟩
  · exact .inr (.inr (.inl ⟨address, l, hlisting, hcheck⟩))
  -- past the check the whole run is known
  obtain ⟨m, loc, b, -, -, hafter⟩ := run_stampIntelHex_of_check haddress hlisting hcheck id
  rw [hrun] at hafter
  cases hrender : m.render with
  | ok text =>
    rw [hrender] at hafter
    contradiction
  | error fault =>
    rw [hrender] at hafter
    injection hafter with he
    exact .inr (.inr (.inr ⟨fault, he⟩))

/-- Where the placeholder is loaded is no matter of records. -/
theorem hexAddress_ne_hexRecord (p : String) (a : Nat) :
    t.hexAddress path ≠ .error (.notMapped p a .hexRecord) := by
  intro h
  unfold hexAddress at h
  cases haddress : t.image.loadAddress t.address with
  | ok address =>
    rw [haddress, ok_bind] at h
    split at h
    · contradiction
    · injection h with h
      injection h with _ _ hregion
      contradiction
  | error e =>
    rw [haddress] at h
    injection h with h
    subst h
    unfold Image.loadAddress checkWord at haddress
    split at haddress
    · split at haddress
      · contradiction
      · injection haddress with h
        contradiction
    · injection haddress with h
      injection h with _ _ hregion
      contradiction

theorem listing_ne_hexRecord {s : Store} (p : String) (a : Nat) :
    s.listing path ≠ .error (.notMapped p a .hexRecord) := by
  intro h
  unfold Store.listing at h
  cases htext : s.readText path with
  | error fault =>
    rw [htext] at h
    injection h with h
    contradiction
  | ok text =>
    rw [htext, mapError_ok, ok_bind] at h
    cases hparse : IntelHex.Listing.parse text with
    | error fault =>
      rw [hparse] at h
      injection h with h
      contradiction
    | ok l =>
      rw [hparse] at h
      contradiction

theorem check_ne_hexRecord {place : Nat} {found : Bytes} (p : String) (a : Nat) :
    d.check path place found ≠ .error (.notMapped p a .hexRecord) := by
  intro h
  unfold Descriptor.check at h
  dsimp only at h
  split at h
  · injection h with h
    contradiction
  · split at h
    · contradiction
    · injection h with h
      contradiction

/-- **After the check.**  Where a placeholder passes the check, the addresses of its value bytes do
not overflow and each is covered by a data record, and writing them is not refused, whatever the
order of the records and whatever they share.  So stamping goes on to render the listing with the ID
in it, and it never ends with an address that no record covers. -/
theorem stampIntelHex_after_check (t : Target) (path : String) (id : BuildId) :
    (∀ (l : IntelHex.Listing) (address : Nat) (old : BuildId),
      t.descriptor.check path address (l.read address placeholderLength) = .ok old →
        address + Magic.length < IntelHex.addressLimit ∧
        (∀ a, address + Magic.length ≤ a → a < address + Magic.length + BuildId.length →
          a < IntelHex.addressLimit ∧ l.IsCovered a) ∧
        ∃ m, l.write? (address + Magic.length) id.bytes = some m ∧
          l.writeBySlots? (address + Magic.length) id.bytes = some m ∧
          m.memory = l.memory.overwrite (address + Magic.length) id.bytes) ∧
    (∀ w address l old, t.hexAddress path = .ok address → w.store.listing path = .ok l →
      t.descriptor.check path address (l.read address placeholderLength) = .ok old →
        ∃ m loc b, l.write? (address + Magic.length) id.bytes = some m ∧
          w.store.file path = .ok (loc, b) ∧
          (t.stampIntelHex path id).run w =
            w.edited loc (w.notices ++ [.stamping .intelHex path id (address + Magic.length)])
              ((fun text => some ⟨address + Magic.length, Bytes.ofText text⟩) <$>
                m.render.mapError (.hex path))) ∧
    ∀ w w' p a, (t.stampIntelHex path id).run w ≠ .error (.notMapped p a .hexRecord) w' := by
  refine ⟨fun l address old hcheck => ?_, fun w address l old haddress hlisting hcheck => ?_,
    fun w w' p a h => ?_⟩
  · have hcovers : l.memory.Covers (address + Magic.length) BuildId.length :=
      (covers_of_check hcheck).add
    refine ⟨(hcovers 0 (by decide)).1, fun a hle hlt => ?_, exists_write?_of_check hcheck id⟩
    obtain ⟨-, hbyte⟩ := hcovers (a - (address + Magic.length)) (by omega)
    rw [Nat.add_sub_cancel' hle] at hbyte
    exact IntelHex.Listing.isSome_memory_iff.1 hbyte
  · exact run_stampIntelHex_of_check haddress hlisting hcheck id
  · rcases stampIntelHex_eq_error h with haddress | hlisting | ⟨_, _, -, hcheck⟩ | ⟨fault, hrender⟩
    · exact hexAddress_ne_hexRecord p a haddress
    · exact listing_ne_hexRecord p a hlisting
    · exact check_ne_hexRecord p a hcheck
    · contradiction

/-- An image whose placeholder is loaded at the last addresses there are. -/
def topTarget : Target where
  image := { loneTarget.image with segments := [⟨1, 0x1000, 0xffffffe8, 0, 24, 24, 4⟩] }
  address := 0x1000
  descriptor := .standard

/-- The Intel HEX file of the image.  The end of the ID is in the first record, which hides the end
of the second. -/
def topText : Bytes :=
  Bytes.ofText
    (":02000004FFFFFC\n:0CFFF40000000000000000000000000001\n" ++
      ":0EFFE800F02514000000000000000000AABB7D\n:00000001FF\n")

def topBuild : Workspace where
  store := ⟨[(["fw.hex"], .file topText)]⟩
  notices := []

def topListing : IntelHex.Listing where
  records := [.extendedLinear 0xffff, .data 0xfff4 (List.replicate 12 0),
    .data 0xffe8 (Magic.standard.bytes ++ List.replicate 8 0 ++ [0xaa, 0xbb]), .endOfFile]

/-- The listing with the ID in it. -/
def topStamped : IntelHex.Listing where
  records := [.extendedLinear 0xffff, .data 0xfff4 (List.replicate 12 9),
    .data 0xffe8 (Magic.standard.bytes ++ List.replicate 8 9 ++ [0xaa, 0xbb]), .endOfFile]

/-- The build with its file stamped. -/
def topEnd : Workspace where
  store := ⟨[(["fw.hex"], .file (Bytes.ofText
    (":02000004FFFFFC\n:0CFFF40009090909090909090909090995\n" ++
      ":0EFFE800F02514000909090909090909AABB35\n:00000001FF\n")))]⟩
  notices := [.stamping .intelHex "fw.hex" loneId 0xffffffec]

theorem stampIntelHex_topBuild :
    topTarget.descriptor.check "fw.hex" 0xffffffe8
        (topListing.read 0xffffffe8 placeholderLength) = .ok blankId ∧
      (∀ a, 0xffffffec ≤ a → a < 0x100000000 → topListing.IsCovered a) ∧
      topListing.writeBySlots? 0xffffffec loneId.bytes = some topStamped ∧
      (topTarget.stampIntelHex "fw.hex" loneId).run topBuild =
        .ok (.stamped 0xffffffec) topEnd := by
  have haddress : topTarget.hexAddress "fw.hex" = .ok 0xffffffe8 := by decide +kernel
  have hlisting : topBuild.store.listing "fw.hex" = .ok topListing := by decide +kernel
  have hcheck : topTarget.descriptor.check "fw.hex" 0xffffffe8
      (topListing.read 0xffffffe8 placeholderLength) = .ok blankId := by
    decide +kernel
  have hwrite : topListing.write? 0xffffffec loneId.bytes = some topStamped := by decide +kernel
  have hfile : topBuild.store.file "fw.hex" = .ok (["fw.hex"], topText) := by decide +kernel
  obtain ⟨hpasses, hrun, -⟩ := stampIntelHex_after_check topTarget "fw.hex" loneId
  obtain ⟨-, hcovered, m, hm, hslots, -⟩ := hpasses topListing 0xffffffe8 blankId hcheck
  obtain ⟨m', loc, b, hm', hfile', hrun⟩ :=
    hrun topBuild 0xffffffe8 topListing blankId haddress hlisting hcheck
  cases hwrite.symm.trans hm
  cases hwrite.symm.trans hm'
  cases hfile.symm.trans hfile'
  refine ⟨hcheck, fun a hle hlt => (hcovered a hle hlt).2, hslots, ?_⟩
  rw [hrun]
  decide +kernel

end Target

end FirmwareStamp
