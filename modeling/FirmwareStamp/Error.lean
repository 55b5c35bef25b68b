import FirmwareStamp.Descriptor
import FirmwareStamp.Elf.Fault
import FirmwareStamp.IntelHex.Record
import FirmwareStamp.Store

/-!
# What can go wrong

Every cause but an arithmetic overflow names the file it is about, and those that point somewhere
carry the address or offset.  `message` words a cause, `sources` are the messages of what it was
caused by, the nearest first.
-/

namespace FirmwareStamp

/-- What an address was looked for in. -/
inductive Region where
  | allocatedSection
  | loadSegment
  | hexAddressSpace
  | hexRecord
deriving DecidableEq, Repr

def Region.name : Region → String
  | .allocatedSection => "section"
  | .loadSegment => "load segment"
  | .hexAddressSpace => "32-bit HEX address space"
  | .hexRecord => "HEX data record"

inductive Error where
  | io (path : String) (fault : Store.Fault)
  | elf (path : String) (fault : Elf.Fault)
  | hex (path : String) (fault : IntelHex.Fault)
  | symbolNotFound (path symbol : String)
  | symbolAmbiguous (path symbol : String) (count : Nat)
  | symbolSize (path symbol : String) (size : Nat)
  | notMapped (path : String) (address : Nat) (region : Region)
  | noLoadSegment (path : String)
  | headerMismatch (path : String) (offset : Nat) (expected found : Bytes)
  /-- The header is right but only `length` bytes of the placeholder are there. -/
  | truncated (path : String) (offset length : Nat)
  | unsupportedFormat (path : String)
  | idMismatch (path : String) (offset : Nat)
  /-- An address or size left the range of its word. -/
  | overflow
deriving DecidableEq, Repr

namespace Error

def message : Error → String
  | io path fault => path ++ ": " ++ fault.message
  | elf path fault => path ++ ": could not parse ELF: " ++ fault.message
  | hex path fault => path ++ ": bad Intel HEX file: " ++ fault.message
  | symbolNotFound path symbol => path ++ ": symbol '" ++ symbol ++ "' not found"
  | symbolAmbiguous path symbol count =>
    path ++ ": symbol '" ++ symbol ++ s!"' found {count} times, expected exactly once"
  | symbolSize path symbol size =>
    path ++ ": symbol '" ++ symbol ++ s!"' is {size} bytes, expected {placeholderLength}"
  | notMapped path address region =>
    path ++ ": address " ++ Hexadecimal.address address ++ " is not in any " ++ region.name
  | noLoadSegment path => path ++ ": no file-backed loadable segments"
  | headerMismatch path offset expected found =>
    path ++ ": invalid build ID descriptor header at " ++ Hexadecimal.address offset ++
      ": expected " ++ Hexadecimal.ofBytes expected ++ ", found " ++ Hexadecimal.ofBytes found
  | truncated path offset length =>
    path ++ ": build ID descriptor at " ++ Hexadecimal.address offset ++
      s!" is cut short by the end of the file ({length} of {placeholderLength} bytes)"
  | unsupportedFormat path =>
    path ++ ": unsupported file type (expected .elf, .strip, .exe, .hex or .bin)"
  | idMismatch path offset =>
    path ++ ": build ID at " ++ Hexadecimal.address offset ++
      " does not match what was expected"
  | overflow => "arithmetic overflow"

/-- The messages of the causes behind an error, the nearest first. -/
def sources : Error → List String
  | io _ fault => [fault.message]
  | elf _ fault => fault.message :: fault.source?.toList
  | _ => []

end Error

/-- A number as a word of 64 bits; overflow if it is none. -/
def checkWord (n : Nat) : Except Error Nat :=
  if n < Elf.wordLimit then .ok n else .error .overflow

end FirmwareStamp
