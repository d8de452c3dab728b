import Gemv.RowImage
import Gemv.Sink
import Gemv.Window

/-! The instruction words that load a vector register.

A load first clears the rows of the register in every block. After that only rows with a bit set
need a write, so a block whose window is zero is left out altogether. `emit` makes the words, hands
each to a sink and counts its parts; `words` keeps them all and `stats` only the counts. -/
namespace Gemv

namespace LoadPlan

/-- The parts of a load, counted. -/
structure Stats where
  instructions : Nat
  windows : Nat
  zeroWindows : Nat
  rowWrites : Nat
  deriving DecidableEq, Repr

/-- Windows a vector of the given length is cut into. -/
def windowCount (g : Geometry) (length : Nat) : Nat := (length + g.lanes - 1) / g.lanes

/-- First row of a register, or the error that names it. -/
def base (g : Geometry) (register : Nat) : Except Error Nat :=
  match g.registerBase? register with
  | some base => .ok base
  | none => .error (.registerOutOfRange register g.registerCount)

/-- The checks of a load: the register exists, the vector fits the blocks, each value fits the
register. The result is the register's first row. -/
def check (g : Geometry) (register : Nat) (values : List Int16) : Except Error Nat := do
  let base ← base g register
  let windows := windowCount g values.length
  if blockCount < windows then .error (.vectorTooLong windows blockCount)
  RowImage.checkFits g.width values
  return base

/-- Writes of the rows that are not zero. -/
def rowWords (base : Nat) (image : RowImage) : List Instruction :=
  image.nonZero.map fun p => .write (base + p.2) p.1

/-- Sends the windows of a vector to the blocks from `block` on, keeping count. -/
def sendWindows {σ : Type} (sink : Sink σ) (g : Geometry) (base block : Nat) (stats : Stats) :
    List (List Int16) → σ → Except Error Stats × σ
  | [], s => (.ok stats, s)
  | window :: rest, s =>
    match RowImage.transpose g window with
    | .error e => (.error e, s)
    | .ok image =>
      if image.isZero then
        sendWindows sink g base (block + 1) { stats with zeroWindows := stats.zeroWindows + 1 }
          rest s
      else
        match sink (.selectColumn block) s with
        | (.error e, s) => (.error e, s)
        | (.ok (), s) =>
          match sink.sendFrom 0 (rowWords base image) s with
          | (.error e, s) => (.error e, s)
          | (.ok n, s) =>
            sendWindows sink g base (block + 1)
              { stats with
                instructions := stats.instructions + 1 + n
                rowWrites := stats.rowWrites + n } rest s

/-- Sends the words of a load to a sink as they are made: the clear first, then window after window.
Nothing is sent unless all checks have passed. -/
def emit {σ : Type} (sink : Sink σ) (g : Geometry) (register : Nat) (values : List Int16) (s : σ) :
    Except Error Stats × σ :=
  match check g register values with
  | .error e => (.error e, s)
  | .ok base =>
    match sink.sendFrom 0 (Instruction.clearRows base g.width) s with
    | (.error e, s) => (.error e, s)
    | (.ok n, s) =>
      let cut := windows g.lanes values
      sendWindows sink g base 0 ⟨n, cut.length, 0, 0⟩ cut s

def words (g : Geometry) (register : Nat) (values : List Int16) : Except Error (List Instruction) :=
  match emit .collect g register values #[] with
  | (.ok _, ws) => .ok ws.toList
  | (.error e, _) => .error e

def stats (g : Geometry) (register : Nat) (values : List Int16) : Except Error Stats :=
  (emit .discard g register values ()).1

def clearWords (g : Geometry) (register : Nat) : Except Error (List Instruction) :=
  (base g register).map fun base => Instruction.clearRows base g.width

end LoadPlan

end Gemv
