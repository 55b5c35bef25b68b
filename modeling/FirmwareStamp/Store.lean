import FirmwareStamp.Bytes
import FirmwareStamp.Path

/-!
# The store: files and directories by location

Operations take paths as a program gives them.  `locate` follows a path name by name through
existing directories, so it fails where a name is missing or names a file.  Writing replaces the
contents of an existing file; seen through `node?` it changes that one place:

    s.node? loc = some (.file old) →
      (s.replace loc new).node? l = if l = loc then some (.file new) else s.node? l    (node?_replace)
-/

namespace FirmwareStamp

/-- What stands at a place. -/
inductive Node where
  | file (contents : Bytes)
  | directory
deriving DecidableEq, Repr

/-- The files and directories below the working directory, and any given by a path from the root. -/
structure Store where
  entries : List (Location × Node)
deriving DecidableEq, Repr

namespace Store

/-- Why a file could not be read or written. -/
inductive Fault where
  | noSuchFile
  | notADirectory
  | isADirectory
  | invalidOffset
  | notText
deriving DecidableEq, Repr

def Fault.message : Fault → String
  | .noSuchFile => "No such file or directory (os error 2)"
  | .notADirectory => "Not a directory (os error 20)"
  | .isADirectory => "Is a directory (os error 21)"
  | .invalidOffset => "Invalid argument (os error 22)"
  | .notText => "stream did not contain valid UTF-8"

/-! ## Looking up -/

def empty : Store := ⟨[]⟩

/-- What stands at a place; around the working directory there are only directories. -/
def node? (s : Store) (loc : Location) : Option Node :=
  if loc.isOutside then some .directory else s.entries.lookup loc

/-- Follows names from a place, each of them out of an existing directory. -/
def walk (s : Store) (here : Location) : List String → Except Fault Location
  | [] => .ok here
  | name :: rest =>
    match s.node? here with
    | none => .error .noSuchFile
    | some (.file _) => .error .notADirectory
    | some .directory => s.walk (here.step name) rest

/-- The place a path leads to, whose last name need not exist. -/
def locate (s : Store) (path : String) : Except Fault Location :=
  if path = "" then .error .noSuchFile
  else s.walk (Location.origin path) (Path.names path)

/-- The place and contents of the file a path leads to. -/
def file (s : Store) (path : String) : Except Fault (Location × Bytes) := do
  let loc ← s.locate path
  match s.node? loc with
  | none => .error .noSuchFile
  | some .directory => .error .isADirectory
  | some (.file contents) => .ok (loc, contents)

/-- Whether a path leads to a file or directory. -/
def leadsTo (s : Store) (path : String) : Bool :=
  match s.locate path with
  | .ok loc => (s.node? loc).isSome
  | .error _ => false

/-! ## Reading -/

/-- The contents of a file. -/
def read (s : Store) (path : String) : Except Fault Bytes :=
  return (← s.file path).2

/-- The contents of a file that holds text. -/
def readText (s : Store) (path : String) : Except Fault String := do
  match (← s.read path).text? with
  | some text => .ok text
  | none => .error .notText

/-- Reading and writing must end below this offset, whatever the file's length. -/
def offsetLimit : Nat := UInt64.size / 2

/-- The bytes of a file at an offset and after, at most `length` of them. -/
def readAt (s : Store) (path : String) (offset length : Nat) : Except Fault Bytes := do
  let (_, contents) ← s.file path
  if offset + length < offsetLimit then .ok (contents.slice offset length)
  else .error .invalidOffset

/-! ## Writing -/

/-- Puts new contents into the file at a place. -/
def replace (s : Store) (loc : Location) (contents : Bytes) : Store :=
  ⟨s.entries.map fun (l, node) => (l, if l = loc then .file contents else node)⟩

/-- Replaces the contents of an existing file. -/
def write (s : Store) (path : String) (contents : Bytes) : Except Fault Store := do
  let (loc, _) ← s.file path
  return s.replace loc contents

/-- Writes bytes into an existing file at an offset. -/
def writeAt (s : Store) (path : String) (offset : Nat) (new : Bytes) : Except Fault Store := do
  let (loc, contents) ← s.file path
  if offset + new.length < offsetLimit then .ok (s.replace loc (contents.overwrite offset new))
  else .error .invalidOffset

/-! ## Making and removing -/

/-- Puts a node at a place, in the stead of what stands there. -/
def put (s : Store) (loc : Location) (node : Node) : Store :=
  if (s.entries.lookup loc).isSome then
    ⟨s.entries.map fun (l, old) => (l, if l = loc then node else old)⟩
  else ⟨s.entries ++ [(loc, node)]⟩

/-- Makes the directories around and at a place that do not exist. -/
def addDirectories (s : Store) : Location → Store
  | [] => s
  | name :: outer =>
    let s := s.addDirectories outer
    if (s.node? (name :: outer)).isSome then s else s.put (name :: outer) .directory

/-- Makes a directory, and those around it. -/
def addDirectory (s : Store) (path : String) : Store :=
  s.addDirectories (Location.ofPath path)

/-- Makes a file, and the directories around it. -/
def addFile (s : Store) (path : String) (contents : Bytes) : Store :=
  let loc := Location.ofPath path
  (s.addDirectories loc.parent).put loc (.file contents)

/-- Takes away what stands at the end of a path. -/
def remove (s : Store) (path : String) : Store :=
  ⟨s.entries.filter fun (l, _) => l ≠ Location.ofPath path⟩

/-- All files, by place. -/
def files (s : Store) : List (Location × Bytes) :=
  s.entries.filterMap fun (loc, node) =>
    match node with
    | .file contents => some (loc, contents)
    | .directory => none

/-! ## Lemmas -/

theorem lookup_map_replace (entries : List (Location × Node)) (loc l : Location) (new : Node) :
    (entries.map fun (l, node) => (l, if l = loc then new else node)).lookup l =
      (entries.lookup l).map fun node => if l = loc then new else node := by
  induction entries with
  | nil => rfl
  | cons entry rest ih =>
    obtain ⟨key, node⟩ := entry
    simp only [List.map_cons, List.lookup_cons]
    by_cases h : l = key
    · subst h; simp
    · rw [beq_false_of_ne h]; exact ih

/-- Replacing the contents of a file changes what stands at its place and nowhere else. -/
theorem node?_replace {s : Store} {loc : Location} {old : Bytes}
    (h : s.node? loc = some (.file old)) (new : Bytes) (l : Location) :
    (s.replace loc new).node? l = if l = loc then some (.file new) else s.node? l := by
  have hin : loc.isOutside = false := by
    cases hout : loc.isOutside with
    | false => rfl
    | true => simp [node?, hout] at h
  have hloc : s.entries.lookup loc = some (.file old) := by simpa [node?, hin] using h
  simp only [node?, replace, lookup_map_replace]
  by_cases hl : l = loc
  · subst hl; simp [hin, hloc]
  · simp [hl]

/-- A path that leads somewhere leads where its names say. -/
theorem walk_eq_foldl {s : Store} {here loc : Location} {names : List String}
    (h : s.walk here names = .ok loc) : loc = names.foldl Location.step here := by
  induction names generalizing here with
  | nil => simp only [walk, Except.ok.injEq] at h; exact h.symm
  | cons name rest ih =>
    simp only [walk] at h
    split at h
    · contradiction
    · contradiction
    · exact ih h

theorem locate_eq_ofPath {s : Store} {path : String} {loc : Location}
    (h : s.locate path = .ok loc) : loc = Location.ofPath path := by
  simp only [locate] at h
  split at h
  · contradiction
  · exact walk_eq_foldl h

end Store

end FirmwareStamp
