import Gemv.Lane

/-! A window of lane values, turned on its side.

A block stores registers by rows: row `b` holds bit `b` of every lane. `ofWindow` makes the rows
of a window and `values` reads the lanes back. `transpose` is `ofWindow` behind the checks that
make this exact: the window is no wider than a block and each value fits the register. -/
namespace Gemv

/-- The rows that store a window of lanes, lowest bit first. -/
structure RowImage where
  rows : List UInt16
  lanes : Nat
  deriving DecidableEq, Repr

namespace RowImage

/-- Bit `b` of every lane, lane 0 lowest. -/
def row (window : List Int16) (b : Nat) : UInt16 :=
  UInt16.ofNat (Bits.pack (window.map (Lane.bit · b)))

def ofWindow (width : Nat) (window : List Int16) : RowImage :=
  ⟨(List.range width).map (row window), window.length⟩

/-- The first value that does not fit the register, with its index. -/
def firstUnfit? (width : Nat) (values : List Int16) : Option (Int16 × Nat) :=
  values.zipIdx.find? fun p => !Lane.fits width p.1

def checkFits (width : Nat) (values : List Int16) : Except Error Unit :=
  match firstUnfit? width values with
  | some (value, index) => .error (.valueOutOfRange index value width)
  | none => .ok ()

/-- The row image of a window that a block of this geometry can hold. -/
def transpose (g : Geometry) (window : List Int16) : Except Error RowImage :=
  if g.lanes < window.length then .error (.windowTooWide window.length g.lanes)
  else (checkFits g.width window).map fun _ => ofWindow g.width window

/-- The rows that are not zero, with their index, in ascending order. -/
def nonZero (image : RowImage) : List (UInt16 × Nat) :=
  image.rows.zipIdx.filter fun p => p.1 != 0

def nonZeroCount (image : RowImage) : Nat := image.rows.countP (· != 0)

def isZero (image : RowImage) : Bool := image.rows.all (· == 0)

def lane (image : RowImage) (i : Nat) : Int16 :=
  Lane.ofBits image.rows.length (Bits.pack (image.rows.map fun r => r.toNat.testBit i))

def values (image : RowImage) : List Int16 := (List.range image.lanes).map image.lane

end RowImage

end Gemv
