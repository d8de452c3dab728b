import Gemv.Numbers

/-! The register window through which a host reaches the engine: sixteen 32-bit registers, of
which six are in use. -/
namespace Gemv

abbrev Register := Fin 16

namespace Register

theorem val_lt (r : Register) : r.val < 16 := r.isLt

/-- Next instruction word for the input queue. -/
def inputData : Register := 0

/-- Strobes of both queues. -/
def queueControl : Register := 1

/-- Strobes of the engine itself. -/
def engineControl : Register := 2

/-- Head of the output queue. -/
def outputData : Register := 8

/-- State of both queues. -/
def queueStatus : Register := 9

/-- State of the engine itself. -/
def engineStatus : Register := 10

/-- Control bit that empties both queues. -/
def resetBit : Nat := 0

/-- Control bit that takes the input word. -/
def pushBit : Nat := 1

/-- Control bit that drops the head of the output queue. -/
def popBit : Nat := 2

/-- Control bit that lowers the end-of-vector flag. -/
def clearBit : Nat := 0

/-- Status bit of a full input queue. -/
def fullBit : Nat := 0

/-- Status bit of a result that is waiting. -/
def validBit : Nat := 1

/-- Status bit of the end-of-vector flag. -/
def endBit : Nat := 0

/-- Name of the register at an index; any other index is reserved. -/
def name : Nat → String
  | 0 => "finp_data"
  | 1 => "fifo_ctrl"
  | 2 => "engine_ctrl"
  | 8 => "fout_data"
  | 9 => "fifo_status"
  | 10 => "engine_status"
  | _ => "reserved"

/-- An index inside the window without a use. -/
def isReserved (index : Nat) : Bool := (3 ≤ index && index ≤ 7) || (11 ≤ index && index ≤ 15)

/-- Byte offset of an index, if a 64-bit address holds it. -/
def offset? (index : Nat) : Option Nat :=
  if index * 4 < 2 ^ 64 then some (index * 4) else none

end Register

end Gemv
