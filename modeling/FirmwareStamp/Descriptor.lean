import FirmwareStamp.BuildId

/-!
# Descriptors: where firmware keeps its build ID

The linker emits a placeholder at a known symbol: 4 magic bytes, then 20 zero bytes that are to
hold the ID.  A `Descriptor` names the symbol and the magic.  A magic given as text is 8
characters of ASCII, two to a byte; each pair may be a plus sign and a digit.
-/

namespace FirmwareStamp

/-- The four bytes that open a placeholder. -/
structure Magic where
  bytes : Bytes
  length_eq : bytes.length = 4
deriving DecidableEq

/-- Bytes in a magic. -/
def Magic.length : Nat := 4

/-- Bytes in a placeholder: the magic and the ID. -/
def placeholderLength : Nat := Magic.length + BuildId.length

namespace Magic

/-- Binary descriptor 0x5f0 of type "bytes" and length 20. -/
def standard : Magic := ⟨[0xf0, 0x25, 0x14, 0x00], rfl⟩

/-- Why a text is no magic. -/
inductive Fault where
  /-- It is not eight ASCII characters. -/
  | length (text : String)
  /-- Some pair of characters is no byte. -/
  | digit (text : String)
deriving DecidableEq, Repr

def Fault.message : Fault → String
  | .length text => "magic must be 8 hex digits, got '" ++ text ++ "'"
  | .digit text => "bad magic '" ++ text ++ "'"

/-- The messages of the causes behind a fault. -/
def Fault.sources : Fault → List String
  | .length _ => []
  | .digit _ => ["invalid digit found in string"]

/-- The byte a pair of characters denotes: two digits, or a plus sign and one digit. -/
def pair? (first second : Char) : Option UInt8 :=
  if first = '+' then (Hexadecimal.value? second).map UInt8.ofNat
  else do
    let high ← Hexadecimal.value? first
    let low ← Hexadecimal.value? second
    return UInt8.ofNat (16 * high + low)

/-- The magic a text denotes. -/
def parse (text : String) : Except Fault Magic :=
  match text.toList with
  | [a, b, c, d, e, f, g, h] =>
    if text.toList.all (·.toNat < 128) then
      match pair? a b, pair? c d, pair? e f, pair? g h with
      | some w, some x, some y, some z => .ok ⟨[w, x, y, z], rfl⟩
      | _, _, _, _ => .error (.digit text)
    else .error (.length text)
  | _ => .error (.length text)

end Magic

/-- The symbol that marks the placeholder, and the magic it starts with. -/
structure Descriptor where
  symbol : String
  magic : Magic
deriving DecidableEq

/-- The descriptor of firmware that does not ask for another. -/
def Descriptor.standard : Descriptor :=
  ⟨"bindesc_entry_spotflow_build_id", .standard⟩

end FirmwareStamp
