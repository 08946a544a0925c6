import StyleGate.Program

/-!
# Directories

A tree of files in which the program can be run: what it finds when it opens a path, and what the
files hold afterwards. A path is walked name by name, from the root or from the program's own
directory; every name but the last has to lead to a directory.
-/

namespace StyleGate

/-- Why a path cannot be opened. -/
inductive PathFault where
  | notFound
  | notADirectory
  | isADirectory
  | nameTooLong
deriving DecidableEq, Repr

namespace PathFault

/-- The number of a fault. -/
def number : PathFault → Nat
  | notFound => 2
  | notADirectory => 20
  | isADirectory => 21
  | nameTooLong => 36

/-- What a fault is called. -/
def name : PathFault → String
  | notFound => "No such file or directory"
  | notADirectory => "Not a directory"
  | isADirectory => "Is a directory"
  | nameTooLong => "File name too long"

/-- The description of a fault. -/
def message (f : PathFault) : String := f.name ++ " (os error " ++ toString f.number ++ ")"

/-- The fault with a number. -/
def ofNumber? (n : Nat) : Option PathFault :=
  [notFound, notADirectory, isADirectory, nameTooLong].find? (·.number == n)

/-- A fault is told from its number. -/
theorem ofNumber?_number (f : PathFault) : ofNumber? f.number = some f := by
  cases f <;> rfl

end PathFault

/-- What stands at the end of a path, by the names that lead to it from the root. -/
inductive Spot where
  | directory (names : List String)
  | file (names : List String)
  /-- Nothing yet, in a directory that is there. -/
  | free (names : List String)
deriving DecidableEq, Repr

/-- Files, by the names that lead to them from the root. -/
structure Directory where
  files : List (List String × ByteArray)

namespace Directory

/-- The names that lead to the program's own directory. -/
def home : List String := ["tmp", "stylegate"]

/-- The device that is empty and takes what is written. -/
def nullDevice : List String := ["dev", "null"]

/-- The device that is the standard input. -/
def inputDevice : List String := ["dev", "stdin"]

/-- The device that is the standard output. -/
def outputDevice : List String := ["dev", "stdout"]

/-- The directories that are there without any file in them. -/
def bareDirectories : List (List String) := [[], home, ["etc"], ["home"], ["usr"], ["var"]]

/-- The most bytes in a name. -/
def maxNameSize : Nat := 255

/-- The most bytes in a path. -/
def maxPathSize : Nat := 4095

/-- The names in a path. Empty names and those of a directory itself do not count. -/
def names (path : String) : List String :=
  (path.splitOn "/").filter fun name => name != "" && name != "."

/-- The devices, and files at paths from the program's own directory. -/
def ofFiles (stdin : ByteArray) (files : List (String × ByteArray)) : Directory where
  files :=
    [(nullDevice, ByteArray.empty), (inputDevice, stdin), (outputDevice, ByteArray.empty)] ++
      files.map fun (path, bytes) => (home ++ names path, bytes)

/-- What names lead to. -/
def look (d : Directory) (names : List String) : Spot :=
  if (d.files.lookup names).isSome then .file names
  else if names ∈ bareDirectories ∨ d.files.any fun f => names.isPrefixOf f.1 then .directory names
  else .free names

/-- The spot that a name leads to. -/
def enter (d : Directory) (spot : Spot) (name : String) : Except PathFault Spot :=
  match spot with
  | .free _ => .error .notFound
  | .file _ => .error .notADirectory
  | .directory names =>
    if name == "" || name == "." then .ok (.directory names)
    else if name == ".." then .ok (.directory names.dropLast)
    else if maxNameSize < name.utf8ByteSize then .error .nameTooLong
    else .ok (d.look (names ++ [name]))

/-- The spot that some parts of a path lead to, from where the path starts. -/
def follow (d : Directory) (path : String) (parts : List String) : Except PathFault Spot :=
  if maxPathSize < path.utf8ByteSize then .error .nameTooLong
  else if path == "" then .error .notFound
  else parts.foldlM d.enter (.directory (if path.startsWith "/" then [] else home))

/-- The spot that a path leads to. -/
def walk (d : Directory) (path : String) : Except PathFault Spot := d.follow path (path.splitOn "/")

/-- What a file holds. -/
def read (d : Directory) (path : String) : Except PathFault ByteArray := do
  match ← d.walk path with
  | .directory _ => throw .isADirectory
  | .free _ => throw .notFound
  | .file names => return (d.files.lookup names).getD ByteArray.empty

/-- The names of the file that is made, or emptied, at a path. A path that ends in a slash asks for a
directory, whatever its last name leads to. -/
def create (d : Directory) (path : String) : Except PathFault (List String) := do
  if path.endsWith "/" then
    let parts := ((path.splitOn "/").reverse.dropWhile (· == "")).tail.reverse
    let _ ← d.enter (← d.follow path parts) "."
    throw .isADirectory
  match ← d.walk path with
  | .directory _ => throw .isADirectory
  | .file names | .free names => return names

/-- The directory as the surroundings of the program. -/
def surroundings (d : Directory) : Surroundings where
  stdin := .ok ((d.files.lookup inputDevice).getD ByteArray.empty)
  file path := (d.read path).mapError PathFault.message
  writable path := ((d.create path).mapError PathFault.message).map fun _ => ()

/-- The file that a run has written, and what it holds. -/
def written? (d : Directory) (t : Trace) : Option (List String × String) := do
  let (path, text) ← t.written
  return (← (d.create path).toOption, text)

/-- The directory after a run. Devices stay as they are. -/
def after (d : Directory) (t : Trace) : Directory :=
  match d.written? t with
  | some (names, text) =>
    if names ∈ [nullDevice, inputDevice, outputDevice] then d
    else { files := (names, text.toUTF8) :: d.files.filter (·.1 != names) }
  | none => d

/-- What a run shows on standard output. -/
def stdout (d : Directory) (t : Trace) : String :=
  match d.written? t with
  | some (names, text) => if names == outputDevice then t.stdout ++ text else t.stdout
  | none => t.stdout

end Directory

end StyleGate
