/-! Paths: their components and limits, and the program name that a path suggests. -/
namespace Gemv

/-- Bytes that one component of a path has at most. -/
def maxNameBytes : Nat := 255

/-- Bytes that a whole path has at most. -/
def maxPathBytes : Nat := 4095

/-- Components of a path, empty ones included. -/
def pathComponents (path : String) : List String :=
  (path.toList.splitOnP (· == '/')).map String.ofList

/-- The name of a file without its last extension. A point at the start opens no extension. -/
def fileStem (name : String) : String :=
  let cs := name.toList.reverse
  let rest := (cs.dropWhile (· != '.')).drop 1
  if rest.isEmpty then name else String.ofList rest.reverse

/-- The program name that a path suggests. -/
def programName (path : String) : String :=
  match ((pathComponents path).filter fun c => c ≠ "" ∧ c ≠ ".").getLast? with
  | some ".." | none => "program"
  | some name => fileStem name

end Gemv
