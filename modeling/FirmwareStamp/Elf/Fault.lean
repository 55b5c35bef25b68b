import FirmwareStamp.Text.Hexadecimal

/-!
# What can be wrong with an ELF file

Each constructor is one cause with the numbers its message needs.  `source?` is the message of the
cause once more where the fault comes from reading a window or a text out of the file: those
faults carry an inner cause that says the same.
-/

namespace FirmwareStamp

namespace Elf

/-- Word arithmetic overflows here. -/
def wordLimit : Nat := UInt64.size

inductive Fault where
  /-- A window starts at or after the end. -/
  | badOffset (offset : Nat)
  /-- A window is longer than what is left. -/
  | tooBig (length available : Nat)
  /-- A string is no text; so much of its table is left. -/
  | notText (available : Nat)
  | tooSmall
  /-- The first eight bytes, least significant first. -/
  | badMagic (word : Nat)
  | badClass (byte : UInt8)
  | badByteOrder (byte : UInt8)
  | programHeaders (count : Nat)
  | sectionHeaders (count : Nat)
  | sectionRange (name offset size : Nat)
  | sectionAddress (name address size : Nat)
  | stringTableRange (offset length available : Nat)
  | symbolCount (offset count : Nat)
  | dynamicRange (offset size : Nat)
deriving DecidableEq, Repr

namespace Fault

/-- Whether a sum is no word. -/
def overflowText (sum : Nat) : String :=
  if wordLimit ≤ sum then "true" else "false"

/-- The message of a fault.  Messages on ranges name the size before the offset but fill in the
offset first for sections. -/
def message : Fault → String
  | badOffset offset => s!"bad offset {offset}"
  | tooBig length available => s!"type is too big ({length}) for {available}"
  | notText available => s!"bad input invalid utf8 ({available})"
  | tooSmall => "Malformed entity: Too small"
  | badMagic word => "Invalid magic number: 0x" ++ Hexadecimal.ofNat word
  | badClass byte => "Malformed entity: invalid ELF class " ++ Hexadecimal.ofNat byte.toNat
  | badByteOrder byte =>
    "Malformed entity: invalid ELF endianness DATA type " ++ Hexadecimal.ofNat byte.toNat
  | programHeaders count =>
    s!"Malformed entity: Buffer is too short for {count} program headers"
  | sectionHeaders count =>
    s!"Malformed entity: Buffer is too short for {count} section headers"
  | sectionRange name offset size =>
    s!"Malformed entity: Section {name} size ({offset}) + offset ({size}) is out of bounds. " ++
      "Overflowed: " ++ overflowText (offset + size)
  | sectionAddress name address size =>
    s!"Malformed entity: Section {name} size ({address}) + addr ({size}) is out of bounds. " ++
      "Overflowed: " ++ overflowText (address + size)
  | stringTableRange offset length available =>
    s!"Malformed entity: Strtable size ({length}) + offset ({offset}) is out of bounds for " ++
      s!"{available} #bytes. Overflowed: " ++ overflowText (offset + length)
  | symbolCount offset count =>
    "Malformed entity: Too many ELF symbols (offset 0x" ++ Hexadecimal.ofNat offset ++
      s!", count {count})"
  | dynamicRange offset size =>
    "Malformed entity: Invalid PT_DYNAMIC size (offset 0x" ++ Hexadecimal.ofNat offset ++
      ", filesz 0x" ++ Hexadecimal.ofNat size ++ ")"

/-- The message of the inner cause. -/
def source? : Fault → Option String
  | badOffset offset => some (badOffset offset).message
  | tooBig length available => some (tooBig length available).message
  | notText available => some (notText available).message
  | _ => none

end Fault

end Elf

end FirmwareStamp
