import Gemv.Text.Numeral

/-! Single-precision numbers in exact arithmetic.

A finite number is `m · 2 ^ q` up to sign; `decode` gives `m` and `q`, and `ofRatio` rounds a
fraction to the nearest number, a tie going to the even significand. Decimal text is read with
`read` and written to a fixed number of places with `fixedPlaces`. -/
namespace Gemv

/-- A single-precision number, given by its bit pattern. -/
structure Single where
  bits : UInt32
  deriving DecidableEq, Repr, Inhabited

namespace Single

/-- What a bit pattern stands for. -/
inductive Value where
  | nan
  | infinite (negative : Bool)
  /-- The number `significand · 2 ^ exponent`, or its negative. -/
  | finite (negative : Bool) (significand : Nat) (exponent : Int)
  deriving DecidableEq, Repr

def decode (x : Single) : Value :=
  let negative := x.bits.toNat / 2 ^ 31 == 1
  let biased : Nat := x.bits.toNat / 2 ^ 23 % 256
  let fraction : Nat := x.bits.toNat % 2 ^ 23
  if biased = 255 then (if fraction = 0 then .infinite negative else .nan)
  else if biased = 0 then .finite negative fraction (-149)
  else .finite negative (2 ^ 23 + fraction) ((biased : Int) - 150)

/-- The pattern with a sign, a biased exponent and a fraction; a fraction of `2 ^ 23` carries. -/
def ofParts (negative : Bool) (biased fraction : Nat) : Single :=
  ⟨UInt32.ofNat (negative.toNat * 2 ^ 31 + biased * 2 ^ 23 + fraction)⟩

def infinite (negative : Bool) : Single := ofParts negative 255 0

def nan : Single := ofParts false 255 (2 ^ 22)

/-- The quotient to the nearest whole number; a half goes to the even neighbour. -/
def roundQuotient (num den : Nat) : Nat :=
  let q := num / den
  let r := num % den
  if 2 * r < den then q
  else if den < 2 * r then q + 1
  else q + q % 2

/-- The number nearest to `num / den`. The exponent of the last place is the one that leaves a
significand of 24 bits, but never below `-149`. -/
def ofRatio (negative : Bool) (num den : Nat) : Single :=
  if num = 0 then ofParts negative 0 0
  else
    let size : Int := (num.log2 : Int) - den.log2
    -- `2 ^ (size - 1) < num / den < 2 ^ (size + 1)`
    let above := if size ≥ 0 then den * 2 ^ size.toNat ≤ num else den ≤ num * 2 ^ (-size).toNat
    let top := if above then size else size - 1
    let place := max (top - 23) (-149)
    let significand :=
      if place ≥ 0 then roundQuotient num (den * 2 ^ place.toNat)
      else roundQuotient (num * 2 ^ (-place).toNat) den
    -- A significand below `2 ^ 23` has the exponent of the subnormal numbers.
    if significand < 2 ^ 23 then ofParts negative 0 significand
    else if place + 150 ≥ 255 then infinite negative
    else
      let x := ofParts negative (place + 150).toNat (significand - 2 ^ 23)
      if x.bits.toNat % 2 ^ 31 ≥ 255 * 2 ^ 23 then infinite negative else x

inductive Fault where
  | empty
  | invalid
  deriving DecidableEq, Repr

def Fault.message : Fault → String
  | .empty => "cannot parse float from empty string"
  | .invalid => "invalid float literal"

/-- The number `mantissa · 10 ^ exponent`. Past forty digits before the point, or sixty zeros
after it, only infinity and zero are left. -/
def ofScientific (negative : Bool) (mantissa : Nat) (exponent : Int) : Single :=
  let leading : Int := (Text.digits 10 mantissa).length + exponent
  if mantissa = 0 then ofParts negative 0 0
  else if leading > 40 then infinite negative
  else if leading < -60 then ofParts negative 0 0
  else if exponent ≥ 0 then ofRatio negative (mantissa * 10 ^ exponent.toNat) 1
  else ofRatio negative mantissa (10 ^ (-exponent).toNat)

/-- A signed run of decimal digits, as after an exponent mark. -/
def exponent? (cs : List Char) : Option Int :=
  let natural (ds : List Char) : Option Int :=
    if ds.isEmpty then none else (Text.value? 10 ds).map Int.ofNat
  match cs with
  | '+' :: ds => natural ds
  | '-' :: ds => (natural ds).map (- ·)
  | ds => natural ds

/-- Reads an unsigned number: digits with at most one point among them, then perhaps an exponent. -/
def unsigned? (negative : Bool) (cs : List Char) : Option Single :=
  let isDigit (c : Char) := (Text.digitValue? 10 c).isSome
  let whole := cs.takeWhile isDigit
  let rest := cs.dropWhile isDigit
  let (fraction, rest) := match rest with
    | '.' :: after => (after.takeWhile isDigit, after.dropWhile isDigit)
    | _ => ([], rest)
  if whole.isEmpty ∧ fraction.isEmpty then none
  else
    let scale? := match rest with
      | [] => some 0
      | c :: after => if c = 'e' ∨ c = 'E' then exponent? after else none
    scale?.bind fun scale =>
      (Text.value? 10 (whole ++ fraction)).map fun mantissa =>
        ofScientific negative mantissa (scale - fraction.length)

/-- Reads a decimal number, or one of the words for infinity and for no number, in any case. -/
def read (text : String) : Except Fault Single :=
  let (negative, body) := match text.toList with
    | '-' :: cs => (true, cs)
    | '+' :: cs => (false, cs)
    | cs => (false, cs)
  let word := String.ofList (body.map Char.toLower)
  if text.isEmpty then .error .empty
  else if word = "inf" ∨ word = "infinity" then .ok (infinite negative)
  else if word = "nan" then .ok nan
  else match unsigned? negative body with
    | some x => .ok x
    | none => .error .invalid

/-- The number to a fixed count of places after the point; a half goes to the even neighbour. -/
def fixedPlaces (places : Nat) (x : Single) : String :=
  let sign (negative : Bool) := if negative then "-" else ""
  match x.decode with
  | .nan => "NaN"
  | .infinite negative => sign negative ++ "inf"
  | .finite negative m q =>
    let scaled :=
      if q ≥ 0 then m * 2 ^ q.toNat * 10 ^ places
      else roundQuotient (m * 10 ^ places) (2 ^ (-q).toNat)
    let whole := Text.decimal (scaled / 10 ^ places)
    let part := Text.padded '0' places (Text.digits 10 (scaled % 10 ^ places))
    sign negative ++ whole ++ "." ++ String.ofList part

end Single

end Gemv
