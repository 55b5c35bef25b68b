import FirmwareStamp.Text.Hexadecimal

/-!
# Intel HEX records

One line of an Intel HEX file: a colon, then pairs of digits for the payload length, the address
(two bytes), the type, the payload and a checksum that makes all bytes of the line add up to zero.
A record reads back from its own line:

    r.payload.length < 256 → Record.ofLine r.line = .ok r     (ofLine_line)
-/

namespace FirmwareStamp

namespace IntelHex

/-- Why a text is no Intel HEX file. -/
inductive Fault where
  | missingColon
  | notHexadecimal
  | tooShort
  | tooLong
  | oddDigits
  | checksum (computed stored : UInt8)
  | payloadLength
  | unknownType (type : UInt8)
  | payloadLengthForType
  | missingEndOfFile
deriving DecidableEq, Repr

/-- A byte as two uppercase digits. -/
def byteText (byte : UInt8) : String :=
  String.ofList (Hexadecimal.digits .upper byte)

def Fault.message : Fault → String
  | .missingColon => "missing start code ':'"
  | .notHexadecimal => "invalid characters encountered in record"
  | .tooShort => "too short"
  | .tooLong => "too long"
  | .oddDigits => "record does not contain a whole number of bytes"
  | .checksum computed stored =>
    "invalid checksum '" ++ byteText computed ++ "', expecting '" ++ byteText stored ++ "'"
  | .payloadLength => "payload length does not match record header"
  | .unknownType type => "unsupported IHEX record type '" ++ byteText type ++ "'"
  | .payloadLengthForType => "payload length invalid for record type"
  | .missingEndOfFile => "object is missing end of file record"

/-! ## Records -/

inductive Record where
  /-- Bytes at an offset from the running base address. -/
  | data (offset : UInt16) (payload : Bytes)
  | endOfFile
  /-- The base address of the data that follows, in units of 16 bytes. -/
  | extendedSegment (segment : UInt16)
  | startSegment (codeSegment instructionPointer : UInt16)
  /-- The base address of the data that follows, its upper 16 bits. -/
  | extendedLinear (upper : UInt16)
  | startLinear (entry : UInt32)
deriving DecidableEq, Repr

namespace Record

def type : Record → UInt8
  | .data .. => 0
  | .endOfFile => 1
  | .extendedSegment _ => 2
  | .startSegment .. => 3
  | .extendedLinear _ => 4
  | .startLinear _ => 5

/-- The address field: only data has one. -/
def address : Record → UInt16
  | .data offset _ => offset
  | _ => 0

def payload : Record → Bytes
  | .data _ payload => payload
  | .endOfFile => []
  | .extendedSegment segment => Bytes.big 2 segment.toNat
  | .startSegment cs ip => Bytes.big 2 cs.toNat ++ Bytes.big 2 ip.toNat
  | .extendedLinear upper => Bytes.big 2 upper.toNat
  | .startLinear entry => Bytes.big 4 entry.toNat

/-! ## Lines -/

/-- The byte that makes a line add up to zero. -/
def checksum (b : Bytes) : UInt8 :=
  0 - b.foldl (· + ·) 0

/-- The bytes of a line before the checksum. -/
def body (r : Record) : Bytes :=
  UInt8.ofNat r.payload.length :: (Bytes.big 2 r.address.toNat ++ r.type :: r.payload)

/-- The line of a record. -/
def line (r : Record) : List Char :=
  ':' :: Hexadecimal.encode .upper (r.body ++ [checksum r.body])

/-- The record of a type, with an address and a payload. -/
def ofFields (type : UInt8) (address : UInt16) (payload : Bytes) : Except Fault Record :=
  if type = 0 then .ok (.data address payload)
  else if type = 1 then
    match payload with
    | [] => .ok .endOfFile
    | _ => .error .payloadLengthForType
  else if type = 2 then
    match payload with
    | [_, _] => .ok (.extendedSegment (UInt16.ofNat (Bytes.ofBig payload)))
    | _ => .error .payloadLengthForType
  else if type = 3 then
    match payload with
    | [a, b, c, d] =>
      .ok (.startSegment (UInt16.ofNat (Bytes.ofBig [a, b])) (UInt16.ofNat (Bytes.ofBig [c, d])))
    | _ => .error .payloadLengthForType
  else if type = 4 then
    match payload with
    | [_, _] => .ok (.extendedLinear (UInt16.ofNat (Bytes.ofBig payload)))
    | _ => .error .payloadLengthForType
  else if type = 5 then
    match payload with
    | [_, _, _, _] => .ok (.startLinear (UInt32.ofNat (Bytes.ofBig payload)))
    | _ => .error .payloadLengthForType
  else .error (.unknownType type)

/-- The record whose line, after the colon, holds these bytes. -/
def ofBytes (b : Bytes) : Except Fault Record :=
  let body := b.dropLast
  let stored := b.getLast?.getD 0
  if checksum body ≠ stored then .error (.checksum (checksum body) stored)
  else match body with
    | length :: high :: low :: type :: payload =>
      if payload.length ≠ length.toNat then .error .payloadLength
      else ofFields type (UInt16.ofNat (Bytes.ofBig [high, low])) payload
    | _ => .error .tooShort

/-- Fewest digits of a line: length, address, type and checksum. -/
def minDigits : Nat := 10

/-- Most digits of a line: the same around 255 bytes. -/
def maxDigits : Nat := 520

/-- The record of a line without its end. -/
def ofLine : List Char → Except Fault Record
  | ':' :: ds =>
    if ¬ ds.all Hexadecimal.isDigit then .error .notHexadecimal
    else if ds.length < minDigits then .error .tooShort
    else if maxDigits < ds.length then .error .tooLong
    else match Hexadecimal.decode? ds with
      | some b => ofBytes b
      | none => .error .oddDigits
  | _ => .error .missingColon

/-! ## Lemmas -/

theorem big_two (n : Nat) : Bytes.big 2 n = [UInt8.ofNat (n / 256), UInt8.ofNat n] := rfl

theorem length_body (r : Record) : r.body.length = r.payload.length + 4 := by
  simp [body]; omega

/-- The fields of a record give the record. -/
theorem ofFields_self (r : Record) : ofFields r.type r.address r.payload = .ok r := by
  have word (n : UInt16) : UInt16.ofNat (Bytes.ofBig (Bytes.big 2 n.toNat)) = n := by
    rw [Bytes.ofBig_big 2 _ n.toNat_lt, UInt16.ofNat_toNat]
  have long (n : UInt32) : UInt32.ofNat (Bytes.ofBig (Bytes.big 4 n.toNat)) = n := by
    rw [Bytes.ofBig_big 4 _ n.toNat_lt, UInt32.ofNat_toNat]
  cases r with
  | data => rfl
  | endOfFile => rfl
  | extendedSegment segment => exact congrArg (Except.ok ∘ extendedSegment) (word segment)
  | startSegment cs ip =>
    show Except.ok (startSegment (UInt16.ofNat (Bytes.ofBig (Bytes.big 2 cs.toNat)))
      (UInt16.ofNat (Bytes.ofBig (Bytes.big 2 ip.toNat)))) = _
    rw [word, word]
  | extendedLinear upper => exact congrArg (Except.ok ∘ extendedLinear) (word upper)
  | startLinear entry => exact congrArg (Except.ok ∘ startLinear) (long entry)

/-- The bytes of a line, checksum included, give the record. -/
theorem ofBytes_body (r : Record) (h : r.payload.length < 256) :
    ofBytes (r.body ++ [checksum r.body]) = .ok r := by
  have hlen : r.payload.length = (UInt8.ofNat r.payload.length).toNat := by
    rw [UInt8.toNat_ofNat_of_lt' h]
  have haddr : UInt16.ofNat (Bytes.ofBig [UInt8.ofNat (r.address.toNat / 256),
      UInt8.ofNat r.address.toNat]) = r.address := by
    rw [← big_two, Bytes.ofBig_big 2 _ r.address.toNat_lt, UInt16.ofNat_toNat]
  simp only [ofBytes, List.dropLast_concat, List.getLast?_concat, Option.getD_some, ne_eq,
    not_true_eq_false, if_false]
  simp only [body, big_two, List.cons_append, List.nil_append]
  rw [if_neg (by simpa using hlen), haddr]
  exact ofFields_self r

/-- A record reads back from its own line. -/
theorem ofLine_line (r : Record) (h : r.payload.length < 256) : ofLine r.line = .ok r := by
  have hdigits := Hexadecimal.all_isDigit_encode .upper (r.body ++ [checksum r.body])
  have hlength := Hexadecimal.length_encode .upper (r.body ++ [checksum r.body])
  rw [List.length_append, length_body, List.length_singleton] at hlength
  simp only [line, ofLine]
  rw [if_neg (by simpa using hdigits), if_neg (by rw [hlength, minDigits]; omega),
    if_neg (by rw [hlength, maxDigits]; omega), Hexadecimal.decode?_encode]
  exact ofBytes_body r h

end Record

end IntelHex

end FirmwareStamp
