import Gemv.Numbers

/-! Words in byte sequences, lowest byte first. Past the end of a sequence there are zeros. -/
namespace Gemv.Bytes

def byteAt (bytes : ByteArray) (i : Nat) : UInt8 := if h : i < bytes.size then bytes[i] else 0

/-- The word whose lowest byte is at `i`. -/
def wordAt (bytes : ByteArray) (i : Nat) : UInt32 :=
  UInt32.ofNat ((byteAt bytes i).toNat + (byteAt bytes (i + 1)).toNat * 2 ^ 8
    + (byteAt bytes (i + 2)).toNat * 2 ^ 16 + (byteAt bytes (i + 3)).toNat * 2 ^ 24)

/-- The words of a sequence, as far as they are whole. -/
def words (bytes : ByteArray) : List UInt32 :=
  (List.range (bytes.size / 4)).map fun i => wordAt bytes (4 * i)

def ofWord (w : UInt32) : List UInt8 :=
  [UInt8.ofNat w.toNat, UInt8.ofNat (w.toNat / 2 ^ 8), UInt8.ofNat (w.toNat / 2 ^ 16),
   UInt8.ofNat (w.toNat / 2 ^ 24)]

def ofWords (ws : List UInt32) : ByteArray := ⟨(ws.flatMap ofWord).toArray⟩

/-- Replaces bytes from `start` on; what would lie past the end is dropped. -/
def overwrite (bytes : ByteArray) (start : Nat) : List UInt8 → ByteArray
  | [] => bytes
  | b :: bs =>
    if h : start < bytes.size then overwrite (bytes.set start b h) (start + 1) bs else bytes

end Gemv.Bytes
