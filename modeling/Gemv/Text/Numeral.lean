import Gemv.Numbers

/-! Numerals: how numbers are written and read.

`digits` writes a number without leading zeros, `padded` fills a field from the left, and `read?`
takes a non-empty run of digits with an optional plus sign. -/
namespace Gemv.Text

/-- The character of a digit below sixteen; letters are lower case. -/
def digitChar (d : Nat) : Char :=
  if d < 10 then Char.ofNat ('0'.toNat + d) else Char.ofNat ('a'.toNat + (d - 10))

/-- The value of a digit character; letters count in either case. -/
def digitValue? (base : Nat) (c : Char) : Option Nat :=
  let value? :=
    if '0' ≤ c ∧ c ≤ '9' then some (c.toNat - '0'.toNat)
    else if 'a' ≤ c ∧ c ≤ 'z' then some (c.toNat - 'a'.toNat + 10)
    else if 'A' ≤ c ∧ c ≤ 'Z' then some (c.toNat - 'A'.toNat + 10)
    else none
  value?.filter (· < base)

/-- The digits of `n` in the given base, most significant first; zero is a single digit. -/
def digits (base n : Nat) : List Char :=
  if _ : n < base ∨ base < 2 then [digitChar n]
  else digits base (n / base) ++ [digitChar (n % base)]
termination_by n
decreasing_by exact Nat.div_lt_self (by omega) (by omega)

/-- The value of a run of digits, `none` if one of them is no digit of the base. -/
def value? (base : Nat) (cs : List Char) : Option Nat :=
  cs.foldl (fun acc c => acc.bind fun v => (digitValue? base c).map (base * v + ·)) (some 0)

/-- Reads a numeral: an optional plus sign and at least one digit. -/
def read? (base : Nat) (cs : List Char) : Option Nat :=
  let body := match cs with
    | '+' :: rest => rest
    | _ => cs
  if body.isEmpty then none else value? base body

/-- Reads a numeral below `bound`. -/
def readBelow? (base bound : Nat) (cs : List Char) : Option Nat :=
  (read? base cs).filter (· < bound)

/-- Fills a text from the left up to the given width. -/
def padded (fill : Char) (width : Nat) (cs : List Char) : List Char :=
  List.replicate (width - cs.length) fill ++ cs

/-- Fills a text with blanks from the right up to the given width. -/
def leftAligned (width : Nat) (text : String) : String :=
  text ++ String.ofList (List.replicate (width - text.length) ' ')

/-- Fills a text with blanks from the left up to the given width. -/
def rightAligned (width : Nat) (text : String) : String :=
  String.ofList (padded ' ' width text.toList)

def decimal (n : Nat) : String := String.ofList (digits 10 n)

def signedDecimal (n : Int) : String :=
  if n < 0 then "-" ++ decimal n.natAbs else decimal n.natAbs

/-- A hexadecimal numeral of at least the given number of digits, after `0x`. -/
def hexadecimal (width n : Nat) : String := "0x" ++ String.ofList (padded '0' width (digits 16 n))

/-- Why a text is not a signed number of the wanted range. -/
inductive NumeralFault where
  | empty
  | invalidDigit
  | tooLarge
  | tooSmall
  deriving DecidableEq, Repr

def NumeralFault.message : NumeralFault → String
  | .empty => "cannot parse integer from empty string"
  | .invalidDigit => "invalid digit found in string"
  | .tooLarge => "number too large to fit in target type"
  | .tooSmall => "number too small to fit in target type"

/-- Appends one decimal digit, downwards if `negative`; the first step out of the range decides. -/
def appendDigit (negative : Bool) (least greatest : Int) (v : Int) (c : Char) :
    Except NumeralFault Int :=
  match digitValue? 10 c with
  | none => .error .invalidDigit
  | some d =>
    let next := if negative then 10 * v - d else 10 * v + d
    if next < least then .error .tooSmall
    else if greatest < next then .error .tooLarge
    else .ok next

/-- Reads a decimal integer with an optional sign, from left to right. -/
def readSigned (least greatest : Int) : List Char → Except NumeralFault Int
  | [] => .error .empty
  | ['+'] | ['-'] => .error .invalidDigit
  | '+' :: rest => rest.foldlM (appendDigit false least greatest) 0
  | '-' :: rest => rest.foldlM (appendDigit true least greatest) 0
  | cs => cs.foldlM (appendDigit false least greatest) 0

end Gemv.Text
