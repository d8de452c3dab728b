import Gemv.Bytes
import Gemv.Program
import Gemv.Text.Split

/-! Programs on disk: the text listing and the binary form.

A listing is read line by line. `entry` says what one line contributes, and a program is put
together from the entries of its lines: words in order, and of each setting the last value.
`render` writes a listing that `parse` reads back. -/
namespace Gemv.Listing

/-- The settings that a directive can name. -/
inductive Setting where
  | fractionWidth
  | maxRows
  | maxColumns
  | width
  | blockIdWidth
  | lanes
  deriving DecidableEq, Repr

namespace Setting

def all : List Setting := [.fractionWidth, .maxRows, .maxColumns, .width, .blockIdWidth, .lanes]

def key : Setting → String
  | .fractionWidth => "frac_width"
  | .maxRows => "max_rows"
  | .maxColumns => "max_cols"
  | .width => "reg_width"
  | .blockIdWidth => "id_width"
  | .lanes => "lanes"

def ofKey? (key : String) : Option Setting := all.find? (·.key == key)

/-- Values of the setting lie below this bound. -/
def bound : Setting → Nat
  | .fractionWidth | .blockIdWidth => 2 ^ 32
  | .maxRows | .maxColumns | .width | .lanes => 2 ^ 64

def get (c : Config) : Setting → Nat
  | .fractionWidth => c.fractionWidth.toNat
  | .maxRows => c.maxRows.toNat
  | .maxColumns => c.maxColumns.toNat
  | .width => c.width.toNat
  | .blockIdWidth => c.blockIdWidth.toNat
  | .lanes => c.lanes.toNat

def set (c : Config) (value : Nat) : Setting → Config
  | .fractionWidth => { c with fractionWidth := UInt32.ofNat value }
  | .maxRows => { c with maxRows := UInt64.ofNat value }
  | .maxColumns => { c with maxColumns := UInt64.ofNat value }
  | .width => { c with width := UInt64.ofNat value }
  | .blockIdWidth => { c with blockIdWidth := UInt32.ofNat value }
  | .lanes => { c with lanes := UInt64.ofNat value }

end Setting

/-- What a line contributes; an empty line contributes no words. -/
inductive Entry where
  | words (ws : List Instruction)
  | setting (s : Setting) (value : Nat)
  deriving DecidableEq, Repr

def Entry.instructions : Entry → List Instruction
  | .words ws => ws
  | .setting _ _ => []

def Entry.configure (c : Config) : Entry → Config
  | .words _ => c
  | .setting s value => s.set c value

/-- The line up to its comment, which starts at the first `#` or `//`. -/
def stripComment : List Char → List Char
  | [] => []
  | '#' :: _ => []
  | '/' :: '/' :: _ => []
  | c :: cs => c :: stripComment cs

/-- The digits of a token, without the `0x` that may stand in front. -/
def unmarked : List Char → List Char
  | '0' :: 'x' :: digits => digits
  | '0' :: 'X' :: digits => digits
  | digits => digits

/-- Reads a hexadecimal word, with or without `0x` in front. -/
def word (token : List Char) : Except ListingFault Instruction :=
  match Text.readBelow? 16 (2 ^ 32) (unmarked token) with
  | some n => .ok ⟨UInt32.ofNat n⟩
  | none => .error (.notWord (String.ofList token))

def settingValue (s : Setting) (text : List Char) : Except ListingFault Nat :=
  match Text.readBelow? 10 (2 ^ 64) text with
  | none => .error (.notNumber s.key (String.ofList text))
  | some n => if n < s.bound then .ok n else .error (.tooLarge s.key n)

/-- Reads a directive, given without its point: a key and one value. -/
def directive (cs : List Char) : Except ListingFault Entry :=
  match Text.fields Text.isBlank cs with
  | [] => .error (.missingValue "")
  | [key] => .error (.missingValue (String.ofList key))
  | [key, value] =>
    match Setting.ofKey? (String.ofList key) with
    | some s => (settingValue s value).map (.setting s)
    | none => .error (.unknownKey (String.ofList key))
  | key :: _ => .error (.extraValue (String.ofList key))

def separatesWords (c : Char) : Bool := c == ',' || Text.isBlank c

def entry (line : List Char) : Except ListingFault Entry :=
  match Text.trim (stripComment line) with
  | '.' :: rest => directive rest
  | cs => ((Text.fields separatesWords cs).mapM word).map .words

def numberedEntry (line : List Char × Nat) : Except Error Entry :=
  (entry line.1).mapError (.listing line.2)

/-- The entries of lines that are numbered from `first` on; the first bad line decides. -/
def entriesFrom (first : Nat) (lines : List (List Char)) : Except Error (List Entry) :=
  (lines.zipIdx first).mapM numberedEntry

def ofEntries (name : String) (entries : List Entry) : Program :=
  ⟨name, entries.flatMap (·.instructions), entries.foldl Entry.configure {}⟩

def parse (name text : String) : Except Error Program :=
  (entriesFrom 1 (Text.lines text.toList)).map (ofEntries name)

/-- A word on a line of its own, its decoded form as a comment. -/
def wordLine (w : Instruction) : String :=
  if w.decoded.isEmpty then w.hex ++ "," else w.hex ++ ",  // " ++ w.decoded

/-- The line that opens a listing, after its comment mark. -/
def header (p : Program) : String := p.name ++ ": " ++ Text.decimal p.words.length ++ " words"

def settingLine (c : Config) (s : Setting) : String :=
  "." ++ s.key ++ " " ++ Text.decimal (s.get c)

/-- The lines of a listing: header, settings, words. -/
def renderLines (p : Program) : List String :=
  ("# " ++ header p) :: (Setting.all.map (settingLine p.config) ++ p.words.map wordLine)

def render (p : Program) : String :=
  String.ofList ((renderLines p).flatMap fun l => l.toList ++ ['\n'])

/-- The listing, written to a sink of limited size. -/
def renderWithin (limit : Nat) (p : Program) : Except Error String :=
  if (render p).utf8ByteSize ≤ limit then .ok (render p) else .error (.file .sinkFull)

/-- Reads the binary form: words without any mark, lowest byte first. -/
def parseBinary (name : String) (bytes : ByteArray) (config : Config) : Except Error Program :=
  if bytes.size % 4 ≠ 0 then .error (.listing 0 (.raggedBytes bytes.size))
  else .ok ⟨name, (Bytes.words bytes).map Instruction.mk, config⟩

/-- Reads a listing from the bytes of a file. -/
def parseBytes (name : String) (bytes : ByteArray) : Except Error Program :=
  match String.fromUTF8? bytes with
  | some text => parse name text
  | none => .error (.file .notText)

end Gemv.Listing
