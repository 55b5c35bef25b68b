import FirmwareStamp.Bytes

/-!
# Hexadecimal text

Two digits per byte, high half first.  Digits are written in one letter case and read in either:

    decode? (encode letters b) = some b     (decode?_encode)

Addresses are written as `0x` and at least eight digits.
-/

namespace FirmwareStamp

namespace Hexadecimal

/-! ## Digits -/

/-- Which letters stand for the digits from ten on. -/
inductive Letters where
  | lower
  | upper
deriving DecidableEq, Repr

/-- The digit of a value below 16. -/
def digit (letters : Letters) (value : Nat) : Char :=
  if value < 10 then Char.ofNat ('0'.toNat + value)
  else match letters with
    | .lower => Char.ofNat ('a'.toNat + (value - 10))
    | .upper => Char.ofNat ('A'.toNat + (value - 10))

/-- The value of a digit, in either letter case. -/
def value? (c : Char) : Option Nat :=
  if '0' ≤ c ∧ c ≤ '9' then some (c.toNat - '0'.toNat)
  else if 'a' ≤ c ∧ c ≤ 'f' then some (c.toNat - 'a'.toNat + 10)
  else if 'A' ≤ c ∧ c ≤ 'F' then some (c.toNat - 'A'.toNat + 10)
  else none

def isDigit (c : Char) : Bool :=
  (value? c).isSome

/-! ## Bytes -/

/-- The two digits of one byte. -/
def digits (letters : Letters) (byte : UInt8) : List Char :=
  [digit letters (byte.toNat / 16), digit letters (byte.toNat % 16)]

def encode (letters : Letters) (b : Bytes) : List Char :=
  b.flatMap (digits letters)

/-- The bytes that pairs of digits denote; none for an odd count or another character. -/
def decode? : List Char → Option Bytes
  | [] => some []
  | [_] => none
  | high :: low :: rest => do
    let h ← value? high
    let l ← value? low
    let b ← decode? rest
    return UInt8.ofNat (16 * h + l) :: b

/-- Bytes as lowercase text. -/
def ofBytes (b : Bytes) : String :=
  String.ofList (encode .lower b)

/-! ## Numbers -/

/-- A number in lowercase digits, without leading zeros. -/
def ofNat (n : Nat) : String :=
  String.ofList (Nat.toDigits 16 n)

/-- An address: `0x` and at least eight digits. -/
def address (n : Nat) : String :=
  let ds := Nat.toDigits 16 n
  "0x" ++ String.ofList (List.replicate (8 - ds.length) '0' ++ ds)

/-! ## Lemmas -/

theorem value?_digit (letters : Letters) (value : Nat) (h : value < 16) :
    value? (digit letters value) = some value := by
  have all : ∀ v : Fin 16, value? (digit .lower v) = some v.val ∧
      value? (digit .upper v) = some v.val := by decide
  cases letters with
  | lower => exact (all ⟨value, h⟩).1
  | upper => exact (all ⟨value, h⟩).2

/-- Written bytes read back. -/
theorem decode?_encode (letters : Letters) (b : Bytes) : decode? (encode letters b) = some b := by
  induction b with
  | nil => rfl
  | cons byte rest ih =>
    have hb := byte.toNat_lt
    have hsplit : 16 * (byte.toNat / 16) + byte.toNat % 16 = byte.toNat := Nat.div_add_mod _ _
    rw [encode] at ih
    simp only [encode, List.flatMap_cons, digits, List.cons_append, List.nil_append, decode?,
      value?_digit letters _ (show byte.toNat / 16 < 16 by omega),
      value?_digit letters _ (show byte.toNat % 16 < 16 by omega), ih, hsplit,
      UInt8.ofNat_toNat, Option.bind_eq_bind, Option.bind_some, Option.pure_def]

@[simp] theorem length_encode (letters : Letters) (b : Bytes) :
    (encode letters b).length = 2 * b.length := by
  induction b with
  | nil => rfl
  | cons byte rest ih => simp only [encode] at ih; simp [encode, digits, ih]; omega

theorem all_isDigit_encode (letters : Letters) (b : Bytes) :
    (encode letters b).all isDigit = true := by
  simp only [encode, List.all_flatMap, List.all_eq_true]
  intro byte _ c hc
  have hb := byte.toNat_lt
  simp only [digits, List.mem_cons, List.not_mem_nil, or_false] at hc
  rcases hc with rfl | rfl
  · simp [isDigit, value?_digit letters _ (show byte.toNat / 16 < 16 by omega)]
  · simp [isDigit, value?_digit letters _ (show byte.toNat % 16 < 16 by omega)]

end Hexadecimal

end FirmwareStamp
