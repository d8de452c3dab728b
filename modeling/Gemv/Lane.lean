import Gemv.Bits
import Gemv.Error

/-! Lane values: signed numbers of up to sixteen bits, kept in sixteen.

A lane of width `w` holds the numbers that `fits w` accepts, and its low `w` bits determine it:
`ofBits w` gives the value back from them. -/
namespace Gemv.Lane

/-- Bit `b` of a lane value, sign bits included. -/
def bit (v : Int16) (b : Nat) : Bool := v.toBitVec.getLsbD b

/-- The lane value with the given low bits; the highest of them is its sign. -/
def ofBits (width bits : Nat) : Int16 :=
  Int16.ofBitVec ((BitVec.ofNat width bits).signExtend 16)

/-- Whether a value fits a signed lane of the given width. -/
def fits (width : Nat) (v : Int16) : Bool :=
  16 ≤ width || (decide (-(2 ^ (width - 1) : Int) ≤ v.toInt) && decide (v.toInt < 2 ^ (width - 1)))

/-- `ofBits` for a width that is not known to be one of a lane: it has 1 to 16 bits. -/
def ofBits? (width bits : Nat) : Except Overflow Int16 :=
  if 16 < width then .error .subtraction
  else if width = 0 then .error .shift
  else .ok (ofBits width bits)

/-- `fits` for a width that is not known to be one of a lane: none has zero bits. -/
def fits? (width : Nat) (v : Int16) : Except Overflow Bool :=
  if width = 0 then .error .subtraction else .ok (fits width v)

end Gemv.Lane
