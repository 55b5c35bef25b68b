import FirmwareStamp.Verify

/-!
# The command line

    patch  [--symbol S] [--magic M] ELF [FILE ...]     stamps an image and the files of its build
    read   [--symbol S] [--magic M] --elf ELF FILE     prints the ID in a file
    verify [--symbol S] [--magic M] ELF [FILE ...]     checks that all of them carry the ID

`parse` gives the command that arguments ask for, if they ask for one, and `run` carries it out on
a store.
-/

namespace FirmwareStamp

namespace CommandLine

/-! ## Arguments -/

/-- Options with their values and the arguments that are none, each in order. -/
structure Arguments where
  options : List (String × String)
  operands : List String
deriving DecidableEq, Repr

/-- Whether an argument looks like an option; a lone dash does not. -/
def isOptionLike (argument : String) : Bool :=
  argument ≠ "-" && argument.toList.head? = some '-'

/-- The name and the attached value of a long option. -/
def splitOption? (argument : String) : Option (String × Option String) :=
  match argument.toList with
  | '-' :: '-' :: rest =>
    let name := String.ofList (rest.takeWhile (· ≠ '='))
    match rest.dropWhile (· ≠ '=') with
    | [] => some (name, none)
    | _ :: value => some (name, some (String.ofList value))
  | _ => none

/-- Sorts arguments into options and operands.  Every option has a value, attached or in the next
argument, and two dashes end the options; none if an option is unknown or has no value. -/
def scan? (known : List String) : List String → Option Arguments
  | [] => some ⟨[], []⟩
  | argument :: rest =>
    if argument = "--" then some ⟨[], rest⟩
    else if isOptionLike argument then do
      let (name, attached) ← splitOption? argument
      if name ∉ known then none
      match attached, rest with
      | some value, rest =>
        let a ← scan? known rest
        return { a with options := (name, value) :: a.options }
      | none, value :: rest =>
        if isOptionLike value then none
        let a ← scan? known rest
        return { a with options := (name, value) :: a.options }
      | none, [] => none
    else do
      let a ← scan? known rest
      return { a with operands := argument :: a.operands }

/-! ## Commands -/

/-- A descriptor as it is asked for. -/
structure DescriptorRequest where
  symbol : Option String
  magic : Option String
deriving DecidableEq, Repr

/-- The descriptor that is asked for; what is left out is as usual. -/
def DescriptorRequest.descriptor (r : DescriptorRequest) : Except Magic.Fault Descriptor := do
  let magic ← match r.magic with
    | some text => Magic.parse text
    | none => pure Descriptor.standard.magic
  return ⟨r.symbol.getD Descriptor.standard.symbol, magic⟩

inductive Command where
  | patch (descriptor : DescriptorRequest) (elf : String) (siblings : List String)
  | read (descriptor : DescriptorRequest) (elf file : String)
  | verify (descriptor : DescriptorRequest) (elf : String) (siblings : List String)
deriving DecidableEq, Repr

/-- The arguments of a command, which takes these options, each at most once. -/
def arguments? (known : List String) (arguments : List String) :
    Option (DescriptorRequest × Arguments) := do
  let a ← scan? known arguments
  if ¬ (a.options.map (·.1)).Nodup then none
  return (⟨a.options.lookup "symbol", a.options.lookup "magic"⟩, a)

/-- The command that arguments ask for. -/
def parse : List String → Option Command
  | "patch" :: rest => do
    let (d, a) ← arguments? ["symbol", "magic"] rest
    match a.operands with
    | elf :: siblings => return .patch d elf siblings
    | [] => none
  | "read" :: rest => do
    let (d, a) ← arguments? ["symbol", "magic", "elf"] rest
    match a.options.lookup "elf", a.operands with
    | some elf, [file] => return .read d elf file
    | _, _ => none
  | "verify" :: rest => do
    let (d, a) ← arguments? ["symbol", "magic"] rest
    match a.operands with
    | elf :: siblings => return .verify d elf siblings
    | [] => none
  | _ => none

/-! ## Results -/

/-- How a command ends. -/
inductive Exit where
  | done (output : String)
  /-- The messages of an error, the outermost first. -/
  | failed (message : String) (causes : List String)
  /-- The arguments ask for no command. -/
  | usage
  /-- Arithmetic left its range. -/
  | overflow
deriving DecidableEq, Repr

namespace Exit

def code : Exit → Nat
  | done _ => 0
  | failed .. => 1
  | usage => 2
  | overflow => 101

/-- What goes to standard output. -/
def output : Exit → String
  | done text => text
  | _ => ""

/-- A text with all lines but the first indented. -/
def indent (width : Nat) (text : String) : String :=
  String.ofList (text.toList.flatMap fun c =>
    if c = '\n' then c :: List.replicate width ' ' else [c])

/-- The lines of causes: indented, and numbered if there are several. -/
def causeLines : List String → List String
  | [cause] => ["    " ++ indent 4 cause]
  | causes => causes.zipIdx.map fun (cause, i) =>
      let number := toString i
      String.ofList (List.replicate (5 - number.length) ' ') ++ number ++ ": " ++ indent 7 cause

/-- What goes to standard error for a failure. -/
def errorText (message : String) (causes : List String) : String :=
  let trailer := if causes = [] then "" else
    "\nCaused by:\n" ++ String.join ((causeLines causes).map (· ++ "\n"))
  "Error: " ++ message ++ "\n" ++ trailer

/-- The end that an error brings about, told in a context if there is one. -/
def ofError (context : Option String) (e : Error) : Exit :=
  match e, context with
  | .overflow, _ => overflow
  | e, some context => failed context (e.message :: e.sources)
  | e, none => failed e.message e.sources

/-- The end that a text which is no magic brings about. -/
def ofMagicFault (fault : Magic.Fault) : Exit :=
  failed fault.message fault.sources

end Exit

/-! ## Carrying out -/

/-- What is printed after stamping: the files left alone, and the ID. -/
def stampedText (r : Report) : String :=
  let alone := r.outcomes.filterMap fun (path, outcome) =>
    if outcome = .leftAlone then some (path ++ ": skipped\n") else none
  String.join alone ++ r.id.hex ++ "\n"

/-- What is printed for the ID in a file. -/
def idText (id : BuildId) : String :=
  (if id.isBlank then "not patched" else id.hex) ++ "\n"

/-- Reads the ID in a file for the command `read`. -/
def readFile (d : Descriptor) (elf file : String) (s : Store) : Exit :=
  match do
    let image ← Image.load s elf
    return (image, ← image.placeholder d) with
  | .error e => .ofError none e
  | .ok (image, address) =>
    match Target.readId ⟨image, address, d⟩ s file with
    | .error e => .ofError (some ("failed to read build ID from " ++ file)) e
    | .ok id => .done (idText id)

/-- Carries a command out. -/
def Command.run (c : Command) (w : Workspace) : Exit × Workspace :=
  match c with
  | .patch request elf siblings =>
    match request.descriptor with
    | .error fault => (.ofMagicFault fault, w)
    | .ok d =>
      match (stamp elf siblings d).run w with
      | .ok report w => (.done (stampedText report), w)
      | .error e w => (.ofError (some ("failed to patch build ID into " ++ elf)) e, w)
  | .read request elf file =>
    match request.descriptor with
    | .error fault => (.ofMagicFault fault, w)
    | .ok d => (readFile d elf file w.store, w)
  | .verify request elf siblings =>
    match request.descriptor with
    | .error fault => (.ofMagicFault fault, w)
    | .ok d =>
      match (FirmwareStamp.verify elf siblings d).run w with
      | .ok id w => (.done (id.hex ++ "\n"), w)
      | .error e w => (.ofError (some "build ID verification failed") e, w)

/-- Carries out what arguments ask for. -/
def run (arguments : List String) (w : Workspace) : Exit × Workspace :=
  match parse arguments with
  | some command => command.run w
  | none => (.usage, w)

end CommandLine

end FirmwareStamp
