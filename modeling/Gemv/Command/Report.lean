import Gemv.Error

/-! What a command leaves behind: text, and the chain of causes if it failed. -/
namespace Gemv.Command

/-- A failure and what caused it, the nearest cause first. -/
structure Failure where
  message : String
  causes : List String := []
  deriving DecidableEq, Repr

namespace Failure

/-- A failed file access has the fault itself as its cause. -/
def ofError (e : Error) : Failure :=
  match e with
  | .file fault => ⟨e.message, [fault.message]⟩
  | _ => ⟨e.message, []⟩

/-- The failure as the cause of another. -/
def within (message : String) (f : Failure) : Failure := ⟨message, f.message :: f.causes⟩

/-- A text whose further lines start under its first one. -/
def indented (first other : String) (text : String) : String :=
  let lines := (text.toList.splitOnP (· == '\n')).map String.ofList
  first ++ String.intercalate ("\n" ++ other) lines

/-- The causes as an indented list; they are numbered if there are several. -/
def causeLines : List String → List String
  | [cause] => [indented "    " "    " cause]
  | causes => causes.zipIdx.map fun p =>
    indented (Text.rightAligned 5 (Text.decimal p.2) ++ ": ") "       " p.1

def render (f : Failure) : String :=
  let top := "Error: " ++ f.message ++ "\n"
  if f.causes.isEmpty then top
  else top ++ "\nCaused by:\n" ++ String.join ((causeLines f.causes).map (· ++ "\n"))

end Failure

/-- Lines printed in order, and the failure that came after them. -/
structure Output where
  lines : List String := []
  failure : Option Failure := none
  deriving DecidableEq, Repr

namespace Output

def ofLines (lines : List String) : Output := { lines }

def ofFailure (f : Failure) : Output := { failure := some f }

/-- First one output, then another unless the first failed. -/
def followedBy (first second : Output) : Output :=
  if first.failure.isSome then first else ⟨first.lines ++ second.lines, second.failure⟩

end Output

/-- The end of a command, with the device file as it is then. -/
structure Report where
  output : Output
  stored : Option (String × ByteArray) := none

namespace Report

def exitCode (r : Report) : Nat := if r.output.failure.isSome then 1 else 0

def printed (r : Report) : String :=
  String.ofList (r.output.lines.flatMap fun l => l.toList ++ ['\n'])

def complaint (r : Report) : String := (r.output.failure.map Failure.render).getD ""

end Report

end Gemv.Command
