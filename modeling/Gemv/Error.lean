import Gemv.Geometry

/-! Everything that can go wrong, as causes, and the one place that words them. -/
namespace Gemv

/-- A machine number that left its range; what would follow is not carried out. -/
inductive Overflow where
  | addition
  | subtraction
  | multiplication
  | shift
  deriving DecidableEq, Repr

def Overflow.message : Overflow → String
  | .addition => "attempt to add with overflow"
  | .subtraction => "attempt to subtract with overflow"
  | .multiplication => "attempt to multiply with overflow"
  | .shift => "attempt to shift left with overflow"

inductive FileFault where
  | notFound
  | isDirectory
  | notDirectory
  | nameTooLong
  /-- The name holds a character of code zero, which no name can. -/
  | zeroInName
  | notText
  | sinkFull
  /-- Any other refusal of the operating system. -/
  | system (text : String) (code : Nat)
  deriving DecidableEq, Repr

def FileFault.message : FileFault → String
  | .notFound => "No such file or directory (os error 2)"
  | .isDirectory => "Is a directory (os error 21)"
  | .notDirectory => "Not a directory (os error 20)"
  | .nameTooLong => "File name too long (os error 36)"
  | .zeroInName => "file name contained an unexpected NUL byte"
  | .notText => "stream did not contain valid UTF-8"
  | .sinkFull => "failed to write whole buffer"
  | .system text code => text ++ " (os error " ++ Text.decimal code ++ ")"

inductive MapFault where
  | misaligned (offset : Nat)
  | file (fault : FileFault)
  | unmappable
  /-- The window ends past the largest size that the file can have. -/
  | pastSizeLimit
  deriving DecidableEq, Repr

def MapFault.message : MapFault → String
  | .misaligned offset => "offset " ++ Text.hexadecimal 1 offset ++ " is not page aligned"
  | .file fault => fault.message
  | .unmappable => "mmap failed: No such device (os error 19)"
  | .pastSizeLimit => "mmap failed: Value too large for defined data type (os error 75)"

/-- What is wrong with a line of a listing, or with a binary program. -/
inductive ListingFault where
  | missingValue (key : String)
  | extraValue (key : String)
  | unknownKey (key : String)
  | notNumber (key value : String)
  | tooLarge (key : String) (value : Nat)
  | notWord (token : String)
  | raggedBytes (count : Nat)
  deriving DecidableEq, Repr

def ListingFault.message : ListingFault → String
  | .missingValue key => "." ++ key ++ " needs a value"
  | .extraValue key => "." ++ key ++ " takes one value"
  | .unknownKey key => "unknown directive '." ++ key ++ "'"
  | .notNumber key value => "." ++ key ++ ": '" ++ value ++ "' is not a number"
  | .tooLarge key value => "." ++ key ++ ": " ++ Text.decimal value ++ " too large"
  | .notWord token => "'" ++ token ++ "' is not a 32-bit hex word"
  | .raggedBytes count => Text.decimal count ++ " bytes is not a whole number of 32-bit words"

/-- Where a program's assumptions differ from the engine. -/
inductive Mismatch where
  | width (program engine : Nat)
  | lanes (program engine : Nat)
  | blockIds (program : Nat)
  deriving DecidableEq, Repr

def Mismatch.message (name : String) : Mismatch → String
  | .width program engine =>
    "'" ++ name ++ "' assembled for " ++ Text.decimal program ++ "-bit registers, engine has "
      ++ Text.decimal engine
  | .lanes program engine =>
    "'" ++ name ++ "' assembled for " ++ Text.decimal program ++ " lanes per block, engine has "
      ++ Text.decimal engine
  | .blockIds program =>
    "'" ++ name ++ "' uses " ++ Text.decimal program ++ "-bit block ids, engine decodes "
      ++ Text.decimal blockIdWidth

inductive Error where
  | windowTooWide (length lanes : Nat)
  | registerOutOfRange (register count : Nat)
  | vectorTooLong (windows blocks : Nat)
  | valueOutOfRange (index : Nat) (value : Int16) (width : Nat)
  | geometry (fault : GeometryFault)
  | mismatch (program : String) (fault : Mismatch)
  | timeout (awaited : String) (polls : Nat)
  | listing (line : Nat) (fault : ListingFault)
  | mapping (path : String) (fault : MapFault)
  | file (fault : FileFault)
  | overflow (fault : Overflow)
  | noSuchRegister (index : Nat)
  deriving DecidableEq, Repr

def Error.message : Error → String
  | .windowTooWide length lanes =>
    "Window of " ++ Text.decimal length ++ " values exceeds " ++ Text.decimal lanes
      ++ " lanes per block"
  | .registerOutOfRange register count =>
    "Vector register " ++ Text.decimal register ++ " out of range (engine has "
      ++ Text.decimal count ++ " registers)"
  | .vectorTooLong windows blocks =>
    "Vector spans " ++ Text.decimal windows ++ " blocks but only " ++ Text.decimal blocks
      ++ " are addressable"
  | .valueOutOfRange index value width =>
    "Value " ++ Text.signedDecimal value.toInt ++ " at index " ++ Text.decimal index
      ++ " does not fit a " ++ Text.decimal width ++ "-bit register"
  | .geometry fault => "Invalid engine parameters: " ++ fault.message
  | .mismatch program fault => "Program incompatible with engine: " ++ fault.message program
  | .timeout awaited polls =>
    "Timed out waiting for " ++ awaited ++ " after " ++ Text.decimal polls ++ " polls"
  | .listing line fault =>
    "Program listing line " ++ Text.decimal line ++ ": " ++ fault.message
  | .mapping path fault => "Cannot map register window at " ++ path ++ ": " ++ fault.message
  | .file fault => "I/O error: " ++ fault.message
  | .overflow fault => fault.message
  | .noSuchRegister index => "Register index " ++ Text.decimal index ++ " out of range"

end Gemv
