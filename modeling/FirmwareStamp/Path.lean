/-!
# Paths: names joined by slashes

A path is text.  Its `extension?` is what follows the last dot of its last name.  Where it leads,
seen from the working directory, is a `Location`: empty names and `.` stay where they are, `..`
goes one up.
-/

namespace FirmwareStamp

namespace Path

/-! ## Names and extensions -/

/-- The names between the slashes, empty ones included. -/
def names (path : String) : List String :=
  (path.toList.splitOn '/').map String.ofList

/-- The last name, with empty names and `.` at the end left out; none if it is `..`. -/
def fileName? (path : String) : Option String :=
  match (names path).reverse.dropWhile fun name => name = "" ∨ name = "." with
  | [] => none
  | name :: _ => if name = ".." then none else some name

/-- What follows the last dot of the file name, unless the name starts with that dot. -/
def extension? (path : String) : Option String := do
  let name := (← fileName? path).toList.reverse
  let tail := name.takeWhile (· ≠ '.')
  let stem := (name.dropWhile (· ≠ '.')).drop 1
  if stem = [] then none else return String.ofList tail.reverse

end Path

/-! ## Locations -/

/-- A place among directories: the names that lead there, the innermost first.  `[]` is the working
directory, the directories above it are `..`, `..` of that, and so on, and `/` is the root. -/
abbrev Location := List String

namespace Location

/-- The directory around a place. -/
def parent : Location → Location
  | [] => [".."]
  | name :: outer =>
    if name = ".." then ".." :: name :: outer
    else if name = "/" then name :: outer
    else outer

/-- One name further. -/
def step (here : Location) (name : String) : Location :=
  if name = "" ∨ name = "." then here
  else if name = ".." then here.parent
  else name :: here

/-- Where a path starts: at the root or in the working directory. -/
def origin (path : String) : Location :=
  if path.toList.head? = some '/' then ["/"] else []

/-- Where a path leads. -/
def ofPath (path : String) : Location :=
  (Path.names path).foldl step (origin path)

/-- Whether this is the working directory or one around it. -/
def isOutside (loc : Location) : Bool :=
  loc.all fun name => name = ".." ∨ name = "/"

/-- The place as a path. -/
def path (loc : Location) : String :=
  "/".intercalate loc.reverse

end Location

end FirmwareStamp
