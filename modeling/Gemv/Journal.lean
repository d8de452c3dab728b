import Gemv.Instruction
import Gemv.Register
import Gemv.LoadPlan

/-! The journal of a run: every register access, every pause, and the notes for the log.

The journal only grows and nothing reads it back, so it is the record against which protocol
properties are stated. -/
namespace Gemv

/-- One access to the register window, with the value that went over the bus. -/
inductive Access where
  | read (register : Register) (value : UInt32)
  | write (register : Register) (value : UInt32)
  deriving DecidableEq, Repr

inductive Level where
  | error
  | warning
  | info
  | debug
  | trace
  deriving DecidableEq, Repr

namespace Level

/-- Severity, the most severe first. -/
def rank : Level → Nat
  | .error => 0
  | .warning => 1
  | .info => 2
  | .debug => 3
  | .trace => 4

def name : Level → String
  | .error => "ERROR"
  | .warning => "WARN"
  | .info => "INFO"
  | .debug => "DEBUG"
  | .trace => "TRACE"

end Level

/-- Something worth a line in the log. -/
inductive Note where
  | touched (access : Access)
  | executed (word : Instruction)
  | inputFull
  | inputDrained (polls : Nat)
  | pushed (word : Instruction)
  | popped (word : UInt32)
  | drained (samples : Nat)
  | completed (polls : Nat)
  | resetting
  | pushing (program : String) (words : Nat)
  | loaded (register : Nat) (stats : LoadPlan.Stats)
  | parsed (form : String) (name : String) (words : Nat)
  deriving DecidableEq, Repr

namespace Note

def level : Note → Level
  | .inputFull => .warning
  | .touched _ | .executed _ | .pushed _ | .popped _ => .trace
  | .inputDrained _ | .drained _ | .completed _ | .resetting | .pushing _ _ | .loaded _ _
  | .parsed _ _ _ => .debug

/-- An access with the name of its register in a column of its own. -/
def accessText (verb : String) (register : Register) (value : UInt32) : String :=
  verb ++ Text.leftAligned 13 (Register.name register) ++ " = " ++ Text.hexadecimal 8 value.toNat

def message : Note → String
  | .touched (.read register value) => accessText "read  " register value
  | .touched (.write register value) => accessText "write " register value
  | .executed word => "sim exec " ++ word.render
  | .inputFull => "FIFO-in full, waiting"
  | .inputDrained polls => "FIFO-in drained after " ++ Text.decimal polls ++ " polls"
  | .pushed word => "push " ++ word.render
  | .popped word => "pop " ++ Text.hexadecimal 8 word.toNat
  | .drained samples => "Popped " ++ Text.decimal samples ++ " samples"
  | .completed polls => "EOV after " ++ Text.decimal polls ++ " polls"
  | .resetting => "Resetting FIFOs"
  | .pushing program words =>
    "Pushing program '" ++ program ++ "' (" ++ Text.decimal words ++ " words)"
  | .loaded register stats =>
    "Vector register " ++ Text.decimal register ++ ": " ++ Text.decimal stats.windows
      ++ " windows (" ++ Text.decimal stats.zeroWindows ++ " zero), "
      ++ Text.decimal stats.rowWrites ++ " row writes, " ++ Text.decimal stats.instructions
      ++ " instructions"
  | .parsed form name words =>
    "Parsed " ++ form ++ " '" ++ name ++ "': " ++ Text.decimal words ++ " words"

/-- The note as a line of a log at the given level, if it matters enough. -/
def line? (threshold : Level) (n : Note) : Option String :=
  if n.level.rank ≤ threshold.rank then some (n.level.name ++ " " ++ n.message) else none

end Note

inductive Event where
  | access (a : Access)
  /-- A pause after the given number of failed looks. -/
  | pause (attempt : Nat)
  | note (n : Note)
  deriving DecidableEq, Repr

namespace Event

def access? : Event → Option Access
  | .access a => some a
  | _ => none

def pause? : Event → Option Nat
  | .pause attempt => some attempt
  | _ => none

def note? : Event → Option Note
  | .note n => some n
  | _ => none

end Event

end Gemv
