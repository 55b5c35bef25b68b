import FirmwareStamp.Proofs.HashStream
import FirmwareStamp.Proofs.Session
import FirmwareStamp.Verify

/-!
# Section boundaries in what is hashed

A section is hashed as its address and its contents, without a word on how long they are.  Nothing
in the hash says where one section ends: the address of the next one can be taken for contents of
the section before it.  That is the only way for two images to be hashed alike:

    stream xs = stream ys ↔ xs = ys ∨ RunsOn xs ys ∨ RunsOn ys xs           (stream_eq_stream_iff)

where a piece of `ys` runs on over the end of one of `xs`.  If pieces that correspond are equally
long, none does.  Two images with different pieces, one running on over the other, have one ID
(`verify_partedElf`).
-/

namespace FirmwareStamp

/-! ## Pieces -/

/-- What is hashed of a section: where it starts and its contents outside the value bytes. -/
structure Piece where
  address : UInt64
  contents : Bytes
deriving DecidableEq, Repr

namespace Piece

def bytes (s : Piece) : Bytes :=
  Bytes.little 8 s.address.toNat ++ s.contents

/-- What is hashed of pieces, one after the other. -/
def stream (pieces : List Piece) : Bytes :=
  pieces.flatMap bytes

/-- Whether, after pieces that are the same, the contents of the next piece of `ys` run on over the
end of that of `xs`, into what is hashed after it. -/
def RunsOn (xs ys : List Piece) : Prop :=
  ∃ same address contents more next rest others, more ≠ [] ∧
    xs = same ++ ⟨address, contents⟩ :: next :: rest ∧
    ys = same ++ ⟨address, contents ++ more⟩ :: others ∧
    stream (next :: rest) = more ++ stream others

/-- Whether pieces at the same index are equally long, as far as both lists go. -/
def SameLengths (xs ys : List Piece) : Prop :=
  ∀ (i : Nat) (s t : Piece), xs[i]? = some s → ys[i]? = some t →
    s.contents.length = t.contents.length

end Piece

namespace Image

/-- The pieces of an image, in the order of its sections. -/
def pieces (image : Image) (placeholder : Nat) : List Piece :=
  image.allocated.map fun s =>
    ⟨s.address, without (image.loaded s) (s.valueRange? placeholder)⟩

end Image

/-! ## Telling pieces apart -/

namespace Piece

variable {xs ys : List Piece} {s t : Piece} {x y : Bytes}

theorem stream_cons (s : Piece) (xs : List Piece) : stream (s :: xs) = s.bytes ++ stream xs :=
  List.flatMap_cons

theorem stream_append (xs ys : List Piece) : stream (xs ++ ys) = stream xs ++ stream ys :=
  List.flatMap_append

/-- A piece is never hashed as nothing. -/
theorem stream_eq_nil_iff : stream xs = [] ↔ xs = [] := by
  cases xs with
  | nil => simp [stream]
  | cons s rest =>
    simp only [stream_cons, bytes, List.append_eq_nil_iff, reduceCtorEq, iff_false]
    rintro ⟨⟨haddress, -⟩, -⟩
    have := congrArg List.length haddress
    rw [Bytes.length_little] at this
    contradiction

/-- Of what is hashed, the address at the start can be told from the rest. -/
theorem bytes_append_eq_iff :
    s.bytes ++ x = t.bytes ++ y ↔ s.address = t.address ∧ s.contents ++ x = t.contents ++ y := by
  unfold bytes
  rw [List.append_assoc, List.append_assoc]
  constructor
  · intro h
    obtain ⟨haddress, hrest⟩ := List.append_inj h (by simp)
    exact ⟨Bytes.little_toNat_inj haddress, hrest⟩
  · rintro ⟨haddress, hrest⟩
    rw [haddress, hrest]

theorem RunsOn.cons (h : RunsOn xs ys) (s : Piece) : RunsOn (s :: xs) (s :: ys) := by
  obtain ⟨same, address, contents, more, next, rest, others, hmore, rfl, rfl, hstream⟩ := h
  exact ⟨s :: same, address, contents, more, next, rest, others, hmore, rfl, rfl, hstream⟩

/-- A piece that begins with the contents of another is the same, or it runs on over its end. -/
theorem eq_or_runsOn {more : Bytes} (haddress : s.address = t.address)
    (hcontents : t.contents = s.contents ++ more) (hstream : stream xs = more ++ stream ys) :
    (s = t ∧ stream xs = stream ys) ∨ RunsOn (s :: xs) (t :: ys) := by
  obtain ⟨address, contents⟩ := s
  obtain ⟨address', contents'⟩ := t
  obtain rfl : address = address' := haddress
  obtain rfl : contents' = contents ++ more := hcontents
  by_cases hmore : more = []
  · subst hmore
    exact .inl ⟨by rw [List.append_nil], hstream⟩
  · cases xs with
    | nil =>
      rw [stream_eq_nil_iff.2 rfl, eq_comm, List.append_eq_nil_iff] at hstream
      exact absurd hstream.1 hmore
    | cons next rest =>
      exact .inr ⟨[], address, contents, more, next, rest, ys, hmore, rfl, rfl, hstream⟩

theorem RunsOn.stream_eq (h : RunsOn xs ys) : stream xs = stream ys := by
  obtain ⟨same, address, contents, more, next, rest, others, -, rfl, rfl, hstream⟩ := h
  rw [stream_append, stream_append, stream_cons ⟨address, contents⟩, hstream, stream_cons]
  simp only [bytes, List.append_assoc]

/-- **Boundaries.**  Two runs of pieces are hashed alike exactly if they are the same, or a piece of
one runs on over the end of one of the other. -/
theorem stream_eq_stream_iff (xs ys : List Piece) :
    stream xs = stream ys ↔ xs = ys ∨ RunsOn xs ys ∨ RunsOn ys xs := by
  constructor
  · intro h
    induction xs generalizing ys with
    | nil => exact .inl (stream_eq_nil_iff.1 h.symm).symm
    | cons s xs ih =>
      cases ys with
      | nil => exact .inl (stream_eq_nil_iff.1 h)
      | cons t ys =>
        have hsame (hrest : stream xs = stream ys) :
            s :: xs = s :: ys ∨ RunsOn (s :: xs) (s :: ys) ∨ RunsOn (s :: ys) (s :: xs) := by
          rcases ih ys hrest with rfl | hruns | hruns
          · exact .inl rfl
          · exact .inr (.inl (hruns.cons s))
          · exact .inr (.inr (hruns.cons s))
        rw [stream_cons, stream_cons, bytes_append_eq_iff] at h
        obtain ⟨haddress, h⟩ := h
        -- the contents of the shorter piece are the start of those of the longer one
        rcases List.append_eq_append_iff.1 h with ⟨more, ht, hxs⟩ | ⟨more, hs, hys⟩
        · rcases eq_or_runsOn haddress ht hxs with ⟨rfl, hrest⟩ | hruns
          · exact hsame hrest
          · exact .inr (.inl hruns)
        · rcases eq_or_runsOn haddress.symm hs hys with ⟨rfl, hrest⟩ | hruns
          · exact hsame hrest.symm
          · exact .inr (.inr hruns)
  · rintro (rfl | hruns | hruns)
    · rfl
    · exact hruns.stream_eq
    · exact hruns.stream_eq.symm

/-- A piece that runs on is longer than the one it runs over. -/
theorem RunsOn.not_sameLengths (h : RunsOn xs ys) : ¬ SameLengths xs ys := by
  obtain ⟨same, address, contents, more, next, rest, others, hmore, rfl, rfl, -⟩ := h
  intro hsame
  have hlength : contents.length = (contents ++ more).length :=
    hsame same.length ⟨address, contents⟩ ⟨address, contents ++ more⟩ (by simp) (by simp)
  rw [List.length_append] at hlength
  exact hmore (List.eq_nil_of_length_eq_zero (by omega))

theorem SameLengths.symm (h : SameLengths xs ys) : SameLengths ys xs :=
  fun i s t hs ht => (h i t s ht hs).symm

theorem stream_inj (h : SameLengths xs ys) : stream xs = stream ys ↔ xs = ys := by
  rw [stream_eq_stream_iff]
  constructor
  · rintro (heq | hruns | hruns)
    · exact heq
    · exact absurd h hruns.not_sameLengths
    · exact absurd h.symm hruns.not_sameLengths
  · exact .inl

end Piece

/-! ## Two images -/

namespace Image

variable {a b : Image} {p q : Nat} {x y : Bytes}

theorem hashStream_eq_stream (image : Image) (placeholder : Nat) :
    image.hashStream placeholder = Piece.stream (image.pieces placeholder) := by
  unfold hashStream pieces Piece.stream
  rw [List.flatMap_map]
  rfl

/-- **Images that are hashed alike.**  Of two images, whatever their sections and placeholders, the
same bytes are hashed exactly if their pieces are the same, or after some that are the same a piece
of one runs on over the end of one of the other.  The latter cannot be if pieces that correspond are
equally long.  So two images that have one ID have the same pieces, or one runs on, or different
bytes have one digest. -/
theorem hashInput_eq_iff_runsOn (hx : a.hashInput p = .ok x) (hy : b.hashInput q = .ok y) :
    (x = y ↔ a.pieces p = b.pieces q ∨ Piece.RunsOn (a.pieces p) (b.pieces q) ∨
      Piece.RunsOn (b.pieces q) (a.pieces p)) ∧
    (Piece.SameLengths (a.pieces p) (b.pieces q) → (x = y ↔ a.pieces p = b.pieces q)) ∧
    (a.buildId p = b.buildId q → a.pieces p = b.pieces q ∨
      Piece.RunsOn (a.pieces p) (b.pieces q) ∨ Piece.RunsOn (b.pieces q) (a.pieces p) ∨
      (x ≠ y ∧ Sha1.sha1 x = Sha1.sha1 y)) := by
  obtain ⟨-, rfl⟩ := hashInput_eq_ok_iff.1 hx
  obtain ⟨-, rfl⟩ := hashInput_eq_ok_iff.1 hy
  have hiff : a.hashStream p = b.hashStream q ↔ a.pieces p = b.pieces q ∨
      Piece.RunsOn (a.pieces p) (b.pieces q) ∨ Piece.RunsOn (b.pieces q) (a.pieces p) := by
    rw [hashStream_eq_stream, hashStream_eq_stream]
    exact Piece.stream_eq_stream_iff _ _
  refine ⟨hiff, fun hsame => ?_, fun hid => ?_⟩
  · rw [hashStream_eq_stream, hashStream_eq_stream]
    exact Piece.stream_inj hsame
  · by_cases hstream : a.hashStream p = b.hashStream q
    · rcases hiff.1 hstream with hpieces | hruns | hruns
      · exact .inl hpieces
      · exact .inr (.inl hruns)
      · exact .inr (.inr (.inl hruns))
    · obtain ⟨id, hida, hdigesta⟩ := exists_buildId hx
      obtain ⟨id', hidb, hdigestb⟩ := exists_buildId hy
      obtain rfl : id = id' := by
        rw [hida, hidb] at hid
        exact Except.ok.inj hid
      exact .inr (.inr (.inr ⟨hstream, hdigesta.symm.trans hdigestb⟩))

end Image

/-! ## Two images with one ID -/

/-- An ELF file of 32 bits: contents from offset 52 on, the symbol of the placeholder and its name,
and the headers. -/
def boundaryElf (headers : Nat) (contents : Bytes) (contentHeaders : List Nat) : Bytes :=
  let symbols := 52 + contents.length
  [0x7f, 0x45, 0x4c, 0x46, 1, 1, 1] ++ List.replicate 9 0 ++
    [2, 40].flatMap (Bytes.little 2) ++ [1, 0, 0, symbols + 20, 0].flatMap (Bytes.little 4) ++
    [52, 32, 0, 40, headers, headers - 1].flatMap (Bytes.little 2) ++ contents ++
    [1, 0x1000, 24, 0].flatMap (Bytes.little 4) ++ [0, 0x69, 0x64, 0] ++
    contentHeaders.flatMap (Bytes.little 4) ++
    [0, 2, 0, 0, symbols, 16, headers - 1, 0, 0, 16,
     0, 3, 0, 0, symbols + 16, 4, 0, 0, 0, 0].flatMap (Bytes.little 4)

/-- An image that loads 16 bytes at 0x2000, of which the middle ones read as the address 0x3000. -/
def joinedElf : Bytes :=
  boundaryElf 4
    (Magic.standard.bytes ++ List.replicate 20 0 ++
      [1, 2, 3, 4, 0x00, 0x30, 0, 0, 0, 0, 0, 0, 5, 6, 7, 8])
    [0, 1, 2, 0x1000, 52, 24, 0, 0, 0, 0,
     0, 1, 2, 0x2000, 76, 16, 0, 0, 0, 0]

def joinedId : BuildId :=
  ⟨[0x5c, 0x9e, 0xda, 0xfb, 0x1d, 0xc2, 0xcc, 0x80, 0x94, 0x4f,
    0xeb, 0xfc, 0x5b, 0x51, 0xcd, 0xcc, 0x59, 0x3f, 0x71, 0x89], rfl⟩

/-- An image that loads four bytes at 0x2000 and four at 0x3000, stamped with the ID of the other. -/
def partedElf : Bytes :=
  boundaryElf 5
    (Magic.standard.bytes ++ joinedId.bytes ++ [1, 2, 3, 4, 5, 6, 7, 8])
    [0, 1, 2, 0x1000, 52, 24, 0, 0, 0, 0,
     0, 1, 2, 0x2000, 76, 4, 0, 0, 0, 0,
     0, 1, 2, 0x3000, 80, 4, 0, 0, 0, 0]

/-- What is read from the first image. -/
def joinedTarget : Target where
  image := {
    path := "a.elf"
    bytes := joinedElf
    sections := [⟨"", 0x1000, 24, 52, true, false⟩, ⟨"", 0x2000, 16, 76, true, false⟩,
      ⟨"", 0, 16, 92, false, false⟩, ⟨"", 0, 4, 108, false, false⟩]
    segments := []
    staticSymbols := some [⟨"id", 0x1000, 24⟩]
    dynamicSymbols := none }
  address := 0x1000
  descriptor := ⟨"id", .standard⟩

/-- What is read from the second image. -/
def partedTarget : Target where
  image := {
    path := "b.elf"
    bytes := partedElf
    sections := [⟨"", 0x1000, 24, 52, true, false⟩, ⟨"", 0x2000, 4, 76, true, false⟩,
      ⟨"", 0x3000, 4, 80, true, false⟩, ⟨"", 0, 16, 84, false, false⟩,
      ⟨"", 0, 4, 100, false, false⟩]
    segments := []
    staticSymbols := some [⟨"id", 0x1000, 24⟩]
    dynamicSymbols := none }
  address := 0x1000
  descriptor := ⟨"id", .standard⟩

def boundaryBuild : Workspace where
  store := ⟨[(["a.elf"], .file joinedElf), (["b.elf"], .file partedElf)]⟩
  notices := []

/-- What is hashed of either image. -/
def boundaryStream : Bytes :=
  Bytes.little 8 0x1000 ++ Magic.standard.bytes ++
    Bytes.little 8 0x2000 ++ [1, 2, 3, 4] ++ Bytes.little 8 0x3000 ++ [5, 6, 7, 8]

/-- The pieces of the two images are not the same, so that one runs on over the end of one of the
other. -/
theorem runsOn_joinedElf :
    joinedTarget.image.hashInput 0x1000 = .ok boundaryStream ∧
      partedTarget.image.hashInput 0x1000 = .ok boundaryStream ∧
      (Piece.RunsOn (joinedTarget.image.pieces 0x1000) (partedTarget.image.pieces 0x1000) ∨
        Piece.RunsOn (partedTarget.image.pieces 0x1000) (joinedTarget.image.pieces 0x1000)) := by
  have hjoined : joinedTarget.image.hashInput 0x1000 = .ok boundaryStream := by decide +kernel
  have hparted : partedTarget.image.hashInput 0x1000 = .ok boundaryStream := by decide +kernel
  have hpieces : joinedTarget.image.pieces 0x1000 ≠ partedTarget.image.pieces 0x1000 := by
    decide +kernel
  have hruns := (Image.hashInput_eq_iff_runsOn hjoined hparted).1.1 rfl
  exact ⟨hjoined, hparted, hruns.resolve_left hpieces⟩

/-- The images load different bytes at different addresses.  The same bytes are hashed of both, and
the second is verified with the ID of the first. -/
theorem verify_partedElf :
    Target.load boundaryBuild.store "a.elf" ⟨"id", .standard⟩ = .ok (joinedTarget, joinedId) ∧
      Target.load boundaryBuild.store "b.elf" ⟨"id", .standard⟩ = .ok (partedTarget, joinedId) ∧
      joinedTarget.image.hashInput 0x1000 = partedTarget.image.hashInput 0x1000 ∧
      joinedTarget.image.pieces 0x1000 =
        [⟨0x1000, Magic.standard.bytes⟩,
          ⟨0x2000, [1, 2, 3, 4, 0x00, 0x30, 0, 0, 0, 0, 0, 0, 5, 6, 7, 8]⟩] ∧
      partedTarget.image.pieces 0x1000 =
        [⟨0x1000, Magic.standard.bytes⟩, ⟨0x2000, [1, 2, 3, 4]⟩, ⟨0x3000, [5, 6, 7, 8]⟩] ∧
      joinedTarget.image.pieces 0x1000 ≠ partedTarget.image.pieces 0x1000 ∧
      (verify "b.elf" [] ⟨"id", .standard⟩).run boundaryBuild = .ok joinedId boundaryBuild := by
  decide +kernel

end FirmwareStamp
