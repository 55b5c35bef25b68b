import FirmwareStamp.Bytes

/-!
# SHA-1 as a running hash

A `Hasher` takes its message one byte at a time and folds every 64 of them into five chaining
words.  Only the concatenation of what it was fed counts:

    (h.update a).update b = h.update (a ++ b)     (update_append)
    h.updateZeros n = h.update (replicate n 0)    (updateZeros_eq)

so long runs of zeros need not be materialized, and `sha1` of a message is the digest of any way
of feeding it.
-/

namespace FirmwareStamp

namespace Sha1

/-! ## Algorithm -/

/-- The five chaining words. -/
structure Chain where
  a : UInt32
  b : UInt32
  c : UInt32
  d : UInt32
  e : UInt32
deriving DecidableEq, Repr

def Chain.initial : Chain :=
  ⟨0x67452301, 0xEFCDAB89, 0x98BADCFE, 0x10325476, 0xC3D2E1F0⟩

def rotateLeft (w : UInt32) (n : UInt32) : UInt32 :=
  (w <<< n) ||| (w >>> (32 - n))

/-- The Boolean mix of round `t`, with the constant of its group of twenty rounds added. -/
def mix (t : Nat) (b c d : UInt32) : UInt32 :=
  if t < 20 then ((b &&& c) ||| (~~~b &&& d)) + 0x5A827999
  else if t < 40 then (b ^^^ c ^^^ d) + 0x6ED9EBA1
  else if t < 60 then ((b &&& c) ||| (b &&& d) ||| (c &&& d)) + 0x8F1BBCDC
  else (b ^^^ c ^^^ d) + 0xCA62C1D6

/-- Round `t` with schedule word `w`. -/
def Chain.round (s : Chain) (t : Nat) (w : UInt32) : Chain :=
  ⟨rotateLeft s.a 5 + mix t s.b s.c s.d + s.e + w, s.a, rotateLeft s.b 30, s.c, s.d⟩

/-- Puts the next schedule word in front of the words so far, newest first. -/
def extend (words : List UInt32) : List UInt32 :=
  rotateLeft (words.getD 2 0 ^^^ words.getD 7 0 ^^^ words.getD 13 0 ^^^ words.getD 15 0) 1 :: words

/-- The eighty schedule words of a block of 64 bytes. -/
def schedule (block : Bytes) : List UInt32 :=
  let words := (List.range 16).map fun i => UInt32.ofNat (Bytes.ofBig (block.slice (4 * i) 4))
  (Nat.repeat extend 64 words.reverse).reverse

/-- Folds one block into the chaining words. -/
def Chain.compress (s : Chain) (block : Bytes) : Chain :=
  let r := (schedule block).zipIdx.foldl (fun s (w, t) => s.round t w) s
  ⟨s.a + r.a, s.b + r.b, s.c + r.c, s.d + r.d, s.e + r.e⟩

/-- A message in the making: the blocks folded so far, the bytes of the block that is not full
yet (newest first) and the number of bytes fed. -/
structure Hasher where
  chain : Chain
  pending : Bytes
  length : Nat
deriving Repr

namespace Hasher

/-- Nothing fed yet. -/
def start : Hasher := ⟨.initial, [], 0⟩

/-- Feeds one byte. -/
def push (h : Hasher) (byte : UInt8) : Hasher :=
  let pending := byte :: h.pending
  let length := h.length + 1
  if length % 64 = 0 then ⟨h.chain.compress pending.reverse, [], length⟩
  else ⟨h.chain, pending, length⟩

/-- Feeds bytes in order. -/
def update (h : Hasher) (b : Bytes) : Hasher :=
  b.foldl push h

/-- How many zeros are fed at a time. -/
def pageLength : Nat := 4096

/-- Feeds `n` zeros page by page. -/
def updateZeros (h : Hasher) (n : Nat) : Hasher :=
  let page := List.replicate pageLength 0
  (Nat.repeat (·.update page) (n / pageLength) h).update (page.take (n % pageLength))

/-- What closes a message of `length` bytes: a one bit, zeros up to the last 8 bytes of a block,
and the number of bits. -/
def padding (length : Nat) : Bytes :=
  0x80 :: (List.replicate ((119 - length % 64) % 64) 0 ++ Bytes.big 8 (8 * length))

/-- The digest of everything fed, 20 bytes. -/
def digest (h : Hasher) : Bytes :=
  let s := (h.update (padding h.length)).chain
  [s.a, s.b, s.c, s.d, s.e].flatMap fun w => Bytes.big 4 w.toNat

end Hasher

/-- The digest of a whole message. -/
def sha1 (message : Bytes) : Bytes :=
  (Hasher.start.update message).digest

/-! ## Lemmas -/

namespace Hasher

theorem update_append (h : Hasher) (a b : Bytes) : h.update (a ++ b) = (h.update a).update b :=
  List.foldl_append

theorem repeat_update_replicate (h : Hasher) (byte : UInt8) (n k : Nat) :
    Nat.repeat (·.update (List.replicate n byte)) k h =
      h.update (List.replicate (n * k) byte) := by
  induction k with
  | zero => rfl
  | succ k ih =>
    rw [Nat.repeat, ih, ← update_append, List.replicate_append_replicate, Nat.mul_succ]

/-- Feeding zeros by pages feeds exactly that many zeros. -/
theorem updateZeros_eq (h : Hasher) (n : Nat) :
    h.updateZeros n = h.update (List.replicate n 0) := by
  have hle : n % pageLength ≤ pageLength := Nat.le_of_lt (Nat.mod_lt _ (by decide))
  rw [updateZeros, repeat_update_replicate, List.take_replicate, Nat.min_eq_left hle,
    ← update_append, List.replicate_append_replicate, Nat.div_add_mod]

theorem length_digest (h : Hasher) : h.digest.length = 20 := by
  simp [digest]

end Hasher

/-- The digest of the three bytes `abc`. -/
example : sha1 [0x61, 0x62, 0x63] =
    [0xa9, 0x99, 0x3e, 0x36, 0x47, 0x06, 0x81, 0x6a, 0xba, 0x3e,
     0x25, 0x71, 0x78, 0x50, 0xc2, 0x6c, 0x9c, 0xd0, 0xd8, 0x9d] := by
  decide +kernel

end Sha1

end FirmwareStamp
