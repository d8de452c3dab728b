import Gemv.Single

/-! Fixed-point lane values: a sixteen-bit number counts units of `2 ^ -fraction`.

More than 31 fraction bits count as 31. -/
namespace Gemv.Fixed

/-- Fraction bits that take effect. -/
def places (fraction : Nat) : Nat := min fraction 31

/-- One as a fixed-point number: `2 ^ places`. -/
def scale (fraction : Nat) : Single := Single.ofParts false (127 + places fraction) 0

/-- The nearest sixteen-bit number that is in range. -/
def saturate (n : Int) : Int16 :=
  Int16.ofInt (if n < -32768 then -32768 else if 32767 < n then 32767 else n)

/-- Converts to fixed point. The part below one unit is dropped, what is out of range goes to the
nearest limit, and a value that is no number becomes zero. -/
def ofSingle (fraction : Nat) (x : Single) : Int16 :=
  match x.decode with
  | .nan => 0
  | .infinite negative => saturate (if negative then -32768 else 32767)
  | .finite negative m q =>
    let e := q + places fraction
    let units : Nat := if e ≥ 0 then m * 2 ^ e.toNat else m / 2 ^ (-e).toNat
    saturate (if negative then -units else units)

/-- Converts from fixed point. Sixteen bits fit the significand, so nothing is rounded. -/
def toSingle (fraction : Nat) (v : Int16) : Single :=
  Single.ofRatio (v.toInt < 0) v.toInt.natAbs (2 ^ places fraction)

/-- Converts as many values as the buffer has room for, and keeps the rest of the buffer. The result
is the number of values converted, and the buffer. -/
def fill {α : Type} (convert : α → Int16) (values : List α) (buffer : List Int16) :
    Nat × List Int16 :=
  (min values.length buffer.length,
    (values.take buffer.length).map convert ++ buffer.drop values.length)

def convertInto (fraction : Nat) (values : List Single) (buffer : List Int16) : Nat × List Int16 :=
  fill (ofSingle fraction) values buffer

theorem fill_of_length {α : Type} (convert : α → Int16) {values : List α} {buffer : List Int16}
    (h : buffer.length = values.length) :
    fill convert values buffer = (values.length, values.map convert) := by
  rw [fill, h, Nat.min_self, List.take_length, ← h, List.drop_length, List.append_nil]

end Gemv.Fixed
