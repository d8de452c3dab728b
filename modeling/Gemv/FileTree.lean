import Gemv.Error
import Gemv.Path

/-! Files as data: a tree of entries, and the walk along a path.

A path is walked component by component, so each component but the last has to name a
directory. The length of a component counts only once the walk gets there. -/
namespace Gemv

/-- What a path can lead to. -/
inductive FileEntry where
  | file (bytes : ByteArray)
  | directory
  /-- Reads as empty and takes every write, but has no memory to map. -/
  | null

namespace FileEntry

/-- Bytes that an entry can ever hold; a device is not held to the limit of files. -/
def sizeLimit : FileEntry → Nat
  | .file _ | .directory => 2 ^ 63 - 1
  | .null => 2 ^ 64 - 1

/-- The bytes of an entry that is to be mapped into memory up to `stop`. -/
def mappable (entry : FileEntry) (stop : Nat) : Except MapFault ByteArray :=
  match entry with
  | .directory => .error (.file .isDirectory)
  | .file bytes => if entry.sizeLimit < stop then .error .pastSizeLimit else .ok bytes
  | .null => .error (if entry.sizeLimit < stop then .pastSizeLimit else .unmappable)

end FileEntry

/-- Entries by their full path; the root itself is always a directory. -/
structure FileTree where
  entries : List (List String × FileEntry)
  workingDirectory : List String

namespace FileTree

/-- A tree with an empty working directory among the temporary files, and the null device. -/
def initial : FileTree where
  entries :=
    [(["tmp"], .directory), (["tmp", "work"], .directory),
     (["dev"], .directory), (["dev", "null"], .null)]
  workingDirectory := ["tmp", "work"]

def entry? (t : FileTree) (location : List String) : Option FileEntry :=
  if location.isEmpty then some .directory
  else (t.entries.find? fun e => e.1 == location).map (·.2)

def put (t : FileTree) (location : List String) (entry : FileEntry) : FileTree :=
  { t with entries := (location, entry) :: t.entries.filter (·.1 != location) }

/-- One step of a walk, out of a directory. -/
def enter (t : FileTree) (location : List String) (component : String) :
    Except FileFault (List String) :=
  match t.entry? location with
  | some .directory =>
    if component = "" ∨ component = "." then .ok location
    else if component = ".." then .ok location.dropLast
    else if maxNameBytes < component.utf8ByteSize then .error .nameTooLong
    else
      let next := location ++ [component]
      if (t.entry? next).isSome then .ok next else .error .notFound
  | some _ => .error .notDirectory
  | none => .error .notFound

def locate (t : FileTree) (path : String) : Except FileFault (List String) :=
  if path.toList.contains '\x00' then .error .zeroInName
  else if path.isEmpty then .error .notFound
  else if maxPathBytes < path.utf8ByteSize then .error .nameTooLong
  else
    let start := if path.front = '/' then [] else t.workingDirectory
    (pathComponents path).foldlM t.enter start

/-- Adds an entry below the working directory, along with the directories above it. -/
def add (t : FileTree) (path : String) (entry : FileEntry) : FileTree :=
  let components := (pathComponents path).filter fun c => c ≠ "" ∧ c ≠ "."
  let parents := (List.range components.length).map fun i =>
    t.workingDirectory ++ components.take i
  let t := parents.foldl (fun t p => if (t.entry? p).isSome then t else t.put p .directory) t
  t.put (t.workingDirectory ++ components) entry

def read (t : FileTree) (path : String) : Except FileFault ByteArray := do
  match t.entry? (← t.locate path) with
  | some (.file bytes) => .ok bytes
  | some .null => .ok .empty
  | some .directory => .error .isDirectory
  | none => .error .notFound

/-- The bytes of a file that is to be mapped into memory up to `stop`. -/
def mappable (t : FileTree) (path : String) (stop : Nat) : Except MapFault ByteArray :=
  match t.locate path with
  | .error fault => .error (.file fault)
  | .ok location =>
    match t.entry? location with
    | some entry => entry.mappable stop
    | none => .error (.file .notFound)

/-- Replaces the bytes of a file that is there. -/
def store (t : FileTree) (path : String) (bytes : ByteArray) : FileTree :=
  match t.locate path with
  | .ok location => t.put location (.file bytes)
  | .error _ => t

end FileTree

end Gemv
