import Gemv.Bits
import Gemv.Journal
import Gemv.Bytes

/-! Devices behind a register window.

`Device` is all that the host side knows: reads and writes of sixteen registers, each of which
may change the device. The simplest device is a `RegisterFile`, plain memory that changes by
writes alone. -/
namespace Gemv

/-- Something with a register window. -/
class Device (σ : Type) where
  read : Register → σ → UInt32 × σ
  write : Register → UInt32 → σ → σ
  /-- What the device has to say about an access: about a read once it is done, about a write
  before it takes effect. -/
  notes : Access → σ → List Note := fun _ _ => []

/-- Sixteen words of plain memory. -/
structure RegisterFile where
  words : Vector UInt32 16
  deriving DecidableEq, Repr

namespace RegisterFile

instance : Device RegisterFile where
  read r d := (d.words[r], d)
  write r v d := ⟨d.words.set r v⟩
  notes a _ := [.touched a]

/-- The register window in a sequence of bytes, from `start` on. -/
def ofBytes (bytes : ByteArray) (start : Nat) : RegisterFile :=
  ⟨Vector.ofFn fun r => Bytes.wordAt bytes (start + 4 * r)⟩

/-- Puts the registers back into the bytes they were mapped from. -/
def store (d : RegisterFile) (bytes : ByteArray) (start : Nat) : ByteArray :=
  Bytes.overwrite bytes start (d.words.toList.flatMap Bytes.ofWord)

end RegisterFile

end Gemv
