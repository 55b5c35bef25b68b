/-!
# Bytes: windows, in-place writes, fixed-width words

A file is a list of bytes.  `slice` is the window that still lies inside the file and
`overwrite` replaces a window, so for a window inside the file

    offset + new.length ≤ b.length → slice (overwrite b offset new) offset new.length = new   (slice_overwrite)

and every other byte and the length stay as they were (`getElem?_overwrite`, `length_overwrite`).
Words are stored least or most significant byte first; reading back gives the word (`ofLittle_little`).
-/

namespace FirmwareStamp

/-- The contents of a file, or of a part of one. -/
abbrev Bytes := List UInt8

namespace Bytes

/-! ## Windows -/

/-- The bytes at `offset` and after, at most `length` of them and none past the end. -/
def slice (b : Bytes) (offset length : Nat) : Bytes :=
  (b.drop offset).take length

/-- `b` with `new` written at `offset`; a gap past the end is filled with zeros. -/
def overwrite (b : Bytes) (offset : Nat) (new : Bytes) : Bytes :=
  b.take offset ++ List.replicate (offset - b.length) 0 ++ new ++ b.drop (offset + new.length)

/-! ## Words -/

/-- How many numbers `width` bytes can tell apart. -/
def capacity : (width : Nat) → Nat
  | 0 => 1
  | width + 1 => 256 * capacity width

/-- The low `width` bytes of `n`, least significant first. -/
def little : (width : Nat) → (n : Nat) → Bytes
  | 0, _ => []
  | width + 1, n => UInt8.ofNat n :: little width (n / 256)

/-- The low `width` bytes of `n`, most significant first. -/
def big (width n : Nat) : Bytes :=
  (little width n).reverse

/-- The number whose bytes are `b`, least significant first. -/
def ofLittle (b : Bytes) : Nat :=
  b.foldr (fun byte high => byte.toNat + 256 * high) 0

/-- The number whose bytes are `b`, most significant first. -/
def ofBig (b : Bytes) : Nat :=
  b.foldl (fun high byte => 256 * high + byte.toNat) 0

/-! ## Text -/

/-- The text that `b` encodes, if it is well-formed UTF-8. -/
def text? (b : Bytes) : Option String :=
  String.fromUTF8? b.toByteArray

/-- The UTF-8 encoding of a text. -/
def ofText (s : String) : Bytes :=
  s.toByteArray.data.toList

/-! ## Lemmas -/

theorem length_slice (b : Bytes) (offset length : Nat) :
    (slice b offset length).length = min length (b.length - offset) := by
  simp [slice]

theorem length_overwrite (b : Bytes) (offset : Nat) (new : Bytes)
    (h : offset + new.length ≤ b.length) : (overwrite b offset new).length = b.length := by
  simp only [overwrite, List.length_append, List.length_take, List.length_replicate,
    List.length_drop]
  omega

/-- A write inside the file changes the bytes of its window and no other. -/
theorem getElem?_overwrite (b : Bytes) (offset : Nat) (new : Bytes)
    (h : offset + new.length ≤ b.length) (i : Nat) :
    (overwrite b offset new)[i]? =
      if offset ≤ i ∧ i < offset + new.length then new[i - offset]? else b[i]? := by
  have hpad : offset - b.length = 0 := by omega
  simp only [overwrite, hpad, List.replicate_zero, List.append_nil, List.append_assoc]
  have hlen : (b.take offset).length = offset := by rw [List.length_take]; omega
  rw [List.getElem?_append, hlen]
  split
  · next hi => rw [List.getElem?_take_of_lt hi, if_neg (by omega)]
  · next hi =>
    rw [List.getElem?_append]
    split
    · next hn => rw [if_pos (by omega)]
    · next hn =>
      rw [List.getElem?_drop, if_neg (by omega)]
      congr 1
      omega

/-- Reading the window just written gives what was written. -/
theorem slice_overwrite (b : Bytes) (offset : Nat) (new : Bytes)
    (h : offset + new.length ≤ b.length) :
    slice (overwrite b offset new) offset new.length = new := by
  have hpad : offset - b.length = 0 := by omega
  have hlen : (b.take offset).length = offset := by rw [List.length_take]; omega
  simp only [slice, overwrite, hpad, List.replicate_zero, List.append_nil, List.append_assoc]
  rw [List.drop_append_of_le_length (by omega), List.drop_of_length_le (by omega), List.nil_append,
    List.take_left]

@[simp] theorem length_little (width n : Nat) : (little width n).length = width := by
  induction width generalizing n with
  | zero => rfl
  | succ width ih => simp [little, ih]

@[simp] theorem length_big (width n : Nat) : (big width n).length = width := by
  simp [big]

/-- A number that fits the width is read back from its bytes. -/
theorem ofLittle_little (width n : Nat) (h : n < capacity width) :
    ofLittle (little width n) = n := by
  induction width generalizing n with
  | zero => simp only [capacity] at h; simp only [little, ofLittle, List.foldr_nil]; omega
  | succ width ih =>
    have hdiv : n / 256 < capacity width := by
      simp only [capacity] at h
      omega
    have := ih (n / 256) hdiv
    simp only [ofLittle] at this
    simp only [little, ofLittle, List.foldr_cons, this, UInt8.toNat_ofNat']
    omega

theorem ofLittle_lt (b : Bytes) : ofLittle b < capacity b.length := by
  induction b with
  | nil => decide
  | cons byte rest ih =>
    have hb := byte.toNat_lt
    simp only [ofLittle, List.foldr_cons, List.length_cons, capacity] at ih ⊢
    omega

/-- The two byte orders read a word from mirrored bytes. -/
theorem ofBig_reverse (b : Bytes) : ofBig b.reverse = ofLittle b := by
  simp only [ofBig, ofLittle, List.foldl_reverse]
  congr 1
  funext byte high
  omega

/-- Encoded text decodes. -/
theorem text?_ofText (s : String) : text? (ofText s) = some s := by
  have h : s.toByteArray.data.toList.toByteArray = s.toByteArray := by
    ext1
    simp
  simp only [text?, ofText, h, String.fromUTF8?]
  rw [dif_pos s.isValidUTF8]
  rfl

theorem ofBig_big (width n : Nat) (h : n < capacity width) : ofBig (big width n) = n := by
  rw [big, ofBig_reverse, ofLittle_little width n h]

end Bytes

end FirmwareStamp
