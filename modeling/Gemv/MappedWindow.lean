import Gemv.Device
import Gemv.Files

/-! A register window that is mapped from a file. -/
namespace Gemv

/-- A register window in a file: one page of it is shared memory. -/
structure MappedWindow where
  path : String
  bytes : ByteArray
  offset : Nat

namespace MappedWindow

def pageSize : Nat := 4096

/-- Maps the page at an offset; its alignment is checked before the file is looked for. -/
def map (f : Files) (path : String) (offset : Nat) : Except Error MappedWindow :=
  if offset % pageSize ≠ 0 then .error (.mapping path (.misaligned offset))
  else match f.mappable path (offset + pageSize) with
    | .error fault => .error (.mapping path fault)
    | .ok bytes => .ok ⟨path, bytes, offset⟩

def registers (w : MappedWindow) : RegisterFile := .ofBytes w.bytes w.offset

/-- The bytes of the file once its registers are as given. -/
def stored (w : MappedWindow) (d : RegisterFile) : ByteArray := d.store w.bytes w.offset

end MappedWindow

end Gemv
