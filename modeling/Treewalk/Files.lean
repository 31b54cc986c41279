/-!
# Files

Paths, and files held in memory. A path is read step by step from the working directory or from the
root: every step but the last has to lead to a directory, also where the next step leads back.
Ancestors of the working directory are directories; what else they hold is only what was put there.
-/

namespace Treewalk

/-- Why a file cannot be opened, read or created. -/
inductive FileFault where
  | missing
  | notDirectory
  /-- Opening succeeds here; reading and creating do not. -/
  | isDirectory
  | nameTooLong
deriving DecidableEq, Repr

def FileFault.message : FileFault → String
  | .missing => "No such file or directory (os error 2)"
  | .notDirectory => "Not a directory (os error 20)"
  | .isDirectory => "Is a directory (os error 21)"
  | .nameTooLong => "File name too long (os error 36)"

namespace Path

/-- The steps of a path. Empty steps and, except in front, steps that stay do not count. -/
def steps (path : String) : List String :=
  match path.splitOn "/" with
  | [] => []
  | first :: rest =>
    (if first = "" then [] else [first]) ++ rest.filter fun step => step ≠ "" && step ≠ "."

def isAbsolute (path : String) : Bool :=
  path.startsWith "/"

/-- The path without its last step, unless nothing is left. -/
def parent? (path : String) : Option String :=
  match (steps path).dropLast with
  | [] => if isAbsolute path then some "/" else none
  | kept => some ((if isAbsolute path then "/" else "") ++ "/".intercalate kept)

/-- `path` seen from the directory `root`. -/
def join (root path : String) : String :=
  if isAbsolute path || root = "" then path
  else if root.endsWith "/" then root ++ path
  else root ++ "/" ++ path

def longestStep : Nat := 255

def longestPath : Nat := 4095

end Path

/-- What a place is counted from. -/
inductive Anchor where
  | root
  /-- The working directory, or its ancestor that many levels up. -/
  | working (levels : Nat)
deriving DecidableEq, Repr

/-- An anchor and the names that lead down from it. -/
structure Place where
  anchor : Anchor
  names : List String
deriving DecidableEq, Repr

namespace Place

def start (path : String) : Place :=
  ⟨if Path.isAbsolute path then .root else .working 0, []⟩

/-- One level up; the root is above itself. -/
def parent (place : Place) : Place :=
  match place.names, place.anchor with
  | [], .root => place
  | [], .working levels => ⟨.working (levels + 1), []⟩
  | names, anchor => ⟨anchor, names.dropLast⟩

def child (place : Place) (name : String) : Place :=
  ⟨place.anchor, place.names ++ [name]⟩

/-- The place that a step leads to from a directory. -/
def step (here : Place) (name : String) : Place :=
  if name = "" ∨ name = "." then here
  else if name = ".." then here.parent
  else here.child name

theorem parent_child (place : Place) (name : String) : (place.child name).parent = place := by
  rcases place with ⟨anchor, names⟩
  cases names with
  | nil => rfl
  | cons head tail => exact congrArg (Place.mk anchor) (@List.dropLast_concat _ (head :: tail) name)

end Place

/-- Directories and files by their places. Anchors are directories too. -/
structure Files where
  directories : List Place
  contents : List (Place × List UInt8)

namespace Files

def empty : Files :=
  ⟨[], []⟩

def contents? (files : Files) (place : Place) : Option (List UInt8) :=
  files.contents.lookup place

def isDirectory (files : Files) (place : Place) : Bool :=
  place.names.isEmpty || files.directories.contains place

/-- Makes `here` and what steps lead to directories. -/
def makeDirectories (files : Files) (here : Place) : List String → Files
  | [] => { files with directories := here :: files.directories }
  | step :: rest =>
    makeDirectories { files with directories := here :: files.directories } (here.step step) rest

/-- A file at a place, in front of what was there. -/
def write (files : Files) (place : Place) (bytes : List UInt8) : Files :=
  { files with contents := (place, bytes) :: files.contents }

/-- A file at a path, with the directories that the path goes through. -/
def put (files : Files) (path : String) (bytes : List UInt8) : Files :=
  let steps := path.splitOn "/"
  (files.makeDirectories (.start path) steps.dropLast).write
    (steps.foldl Place.step (.start path)) bytes

/-- The files at the given paths; of two at one place, the later. -/
def ofList (files : List (String × List UInt8)) : Files :=
  files.foldl (fun files (path, bytes) => files.put path bytes) empty

def follow (files : Files) (here : Place) : List String → Except FileFault Place
  | [] => .ok here
  | step :: rest =>
    if files.isDirectory here then
      if step.utf8ByteSize > Path.longestStep then .error .nameTooLong
      else follow files (here.step step) rest
    else if (files.contents? here).isSome then .error .notDirectory
    else .error .missing

/-- The place that a path leads to; there need not be a file. -/
def locate (files : Files) (path : String) : Except FileFault Place :=
  if path = "" then .error .missing
  else if path.utf8ByteSize > Path.longestPath then .error .nameTooLong
  else files.follow (.start path) (path.splitOn "/")

def read (files : Files) (path : String) : Except FileFault (List UInt8) := do
  let place ← files.locate path
  if files.isDirectory place then throw .isDirectory
  match files.contents? place with
  | some bytes => return bytes
  | none => throw .missing

/-- Empties the file at a path, or makes one. -/
def create (files : Files) (path : String) : Except FileFault Files := do
  let place ← files.locate path
  if files.isDirectory place then throw .isDirectory
  return files.write place []

@[simp] theorem contents?_write_self (files : Files) (place : Place) (bytes : List UInt8) :
    (files.write place bytes).contents? place = some bytes := by
  simp [write, contents?]

theorem contents?_write_of_ne (files : Files) {place other : Place} (bytes : List UInt8)
    (h : other ≠ place) : (files.write place bytes).contents? other = files.contents? other := by
  have : (other == place) = false := by simpa using h
  simp [write, contents?, List.lookup_cons, this]

@[simp] theorem isDirectory_write (files : Files) (place other : Place) (bytes : List UInt8) :
    (files.write place bytes).isDirectory other = files.isDirectory other := rfl

end Files

end Treewalk
