import Gemv.Text.Numeral

/-! The command line: its options, and how a list of arguments is read.

Options that concern the engine stand before or after the command, and the later place wins. The
first bad argument decides, and a request for the version or for help is answered where it
stands. -/
namespace Gemv.Command

/-- Which engine, and how long to wait for it. -/
structure Settings where
  device : Option String := none
  offset : Nat := 0
  simulated : Bool := false
  lanes : Nat := 16
  width : Nat := 16
  timeoutMillis : Option Nat := none
  deriving DecidableEq, Repr

inductive Action where
  | registers
  | push (path : String) (binary wait : Bool) (pop : Option Nat)
  | load (register : Nat) (float : Bool) (fraction : Nat) (dryRun : Bool) (values : List String)
  | pop (max : Nat) (fraction : Option Nat)
  | disassemble (path : String) (binary : Bool)
  | reset
  | selfTest (vectors : Nat) (seed : Nat)
  deriving DecidableEq, Repr

structure Invocation where
  settings : Settings
  action : Action
  deriving DecidableEq, Repr

inductive Refusal where
  | usage
  | version
  | help
  deriving DecidableEq, Repr

inductive ValueKind where
  | path
  /-- A number of 64 bits. -/
  | natural
  /-- A number of 32 bits; a minus sign is read, though only zero may have it. -/
  | small
  /-- A number of 64 bits, hexadecimal after `0x`. -/
  | offset
  deriving DecidableEq, Repr

namespace ValueKind

def readNatural? (text : String) : Option Nat := Text.readBelow? 10 (2 ^ 64) text.toList

def readSmall? (text : String) : Option Nat :=
  match Text.readSigned (-(2 ^ 63)) (2 ^ 63 - 1) text.toList with
  | .ok n => if 0 ≤ n ∧ n < 2 ^ 32 then some n.toNat else none
  | .error _ => none

def readOffset? (text : String) : Option Nat :=
  match text.toList with
  | '0' :: 'x' :: rest => Text.readBelow? 16 (2 ^ 64) rest
  | '0' :: 'X' :: rest => Text.readBelow? 16 (2 ^ 64) rest
  | cs => Text.readBelow? 10 (2 ^ 64) cs

def accepts (kind : ValueKind) (text : String) : Bool :=
  match kind with
  | .path => !text.isEmpty
  | .natural => (readNatural? text).isSome
  | .small => (readSmall? text).isSome
  | .offset => (readOffset? text).isSome

end ValueKind

/-- Arguments without an option of their own. -/
inductive Positionals where
  | none
  | one
  /-- At least one text; a negative number is one of them, not an option. -/
  | many
  deriving DecidableEq, Repr

/-- What a command understands: its options, each a flag or with a kind of value. -/
structure Grammar where
  options : List (String × Option ValueKind)
  positionals : Positionals

def engineOptions : List (String × Option ValueKind) :=
  [("device", some .path), ("offset", some .offset), ("sim", none), ("lanes", some .natural),
   ("reg-width", some .natural), ("timeout-ms", some .natural)]

/-- The commands and what each adds to the options about the engine. -/
def grammar? : String → Option Grammar
  | "regs" => some ⟨[], .none⟩
  | "push" => some ⟨[("binary", none), ("wait", none), ("pop", some .natural)], .one⟩
  | "load" =>
    some ⟨[("reg", some .natural), ("float", none), ("frac", some .small), ("dry-run", none)], .many⟩
  | "pop" => some ⟨[("max", some .natural), ("frac", some .small)], .none⟩
  | "disasm" => some ⟨[("binary", none)], .one⟩
  | "reset" => some ⟨[], .none⟩
  | "selftest" => some ⟨[("vectors", some .natural), ("seed", some .small)], .none⟩
  | _ => none

/-- Options and positional arguments found so far, the latter in reverse. -/
structure Found where
  options : List (String × Option String) := []
  positionals : List String := []
  deriving DecidableEq, Repr

namespace Found

def has (f : Found) (name : String) : Bool := f.options.any (·.1 == name)

def value? (f : Found) (name : String) : Option String :=
  (f.options.find? (·.1 == name)).bind (·.2)

def addOption (f : Found) (name : String) (value : Option String) : Except Refusal Found :=
  if f.has name then .error .usage else .ok { f with options := (name, value) :: f.options }

def addPositional (f : Found) (kind : Positionals) (text : String) : Except Refusal Found :=
  match kind with
  | .none => .error .usage
  | .one =>
    if f.positionals.isEmpty ∧ ¬text.isEmpty then .ok { f with positionals := [text] }
    else .error .usage
  | .many => .ok { f with positionals := text :: f.positionals }

end Found

def marksExponent (c : Char) : Bool := c == 'e' || c == 'E'

/-- Whether the characters after a minus sign look like a number: digits, at most one point and
at most one exponent mark, neither of them first, the point before the mark, the mark not last. -/
def looksNumeric (cs : List Char) : Bool :=
  let mantissa := cs.takeWhile (!marksExponent ·)
  let exponent := cs.dropWhile (!marksExponent ·)
  let digits (ds : List Char) := ds.all fun c => '0' ≤ c && c ≤ '9'
  let decimal (ds : List Char) :=
    digits (ds.takeWhile (· != '.')) && digits ((ds.dropWhile (· != '.')).drop 1)
  let mantissaFine := decimal mantissa && mantissa.head? != some '.'
  match exponent with
  | [] => mantissaFine
  | _ :: rest => mantissaFine && !mantissa.isEmpty && !rest.isEmpty && digits rest

inductive Token where
  | separator
  | long (name : String) (value : Option String)
  | short (letter : Char)
  | plain
  deriving DecidableEq, Repr

/-- Sorts a token. A lone minus sign is plain, and so are negative numbers where they have a
place. -/
def token (negativeNumbers : Bool) (text : String) : Token :=
  match text.toList with
  | ['-', '-'] => .separator
  | '-' :: '-' :: rest =>
    let name := String.ofList (rest.takeWhile (· != '='))
    match rest.dropWhile (· != '=') with
    | [] => .long name none
    | _ :: value => .long name (some (String.ofList value))
  | '-' :: c :: rest =>
    if negativeNumbers && looksNumeric (c :: rest) then .plain else .short c
  | _ => .plain

/-- An option that still waits for its value. -/
abbrev Awaiting := Option (String × ValueKind)

/-- Takes the name of an option, with a value attached to it or not. -/
def takeOption (options : List (String × Option ValueKind)) (name : String)
    (attached : Option String) (f : Found) : Except Refusal (Awaiting × Found) :=
  match options.find? (·.1 == name), attached with
  | none, _ => .error .usage
  | some (_, none), some _ => .error .usage
  | some (_, none), none => (f.addOption name none).map (none, ·)
  | some (_, some kind), none => .ok (some (name, kind), f)
  | some (_, some kind), some value =>
    if kind.accepts value then (f.addOption name (some value)).map (none, ·) else .error .usage

def takeValue (negativeNumbers : Bool) (name : String) (kind : ValueKind) (text : String)
    (f : Found) : Except Refusal Found :=
  if token negativeNumbers text = .plain ∧ kind.accepts text then f.addOption name (some text)
  else .error .usage

def readCommand (g : Grammar) : Awaiting → List String → Found → Except Refusal Found
  | none, [], f => .ok f
  | some _, [], _ => .error .usage
  | some (name, kind), text :: rest, f => do
    readCommand g none rest (← takeValue (g.positionals = .many) name kind text f)
  | none, text :: rest, f =>
    match token (g.positionals = .many) text with
    | .separator => rest.foldlM (fun f text => f.addPositional g.positionals text) f
    | .long "help" none | .short 'h' => .error .help
    | .short _ => .error .usage
    | .long name attached => do
      let (awaiting, f) ← takeOption (engineOptions ++ g.options) name attached f
      readCommand g awaiting rest f
    | .plain => do readCommand g none rest (← f.addPositional g.positionals text)

/-- The settings in two places; what stands later wins. -/
def settings (before after : Found) : Settings :=
  let value? (name : String) := (after.value? name).orElse fun _ => before.value? name
  { device := value? "device"
    offset := ((value? "offset").bind ValueKind.readOffset?).getD 0
    simulated := before.has "sim" || after.has "sim"
    lanes := ((value? "lanes").bind ValueKind.readNatural?).getD 16
    width := ((value? "reg-width").bind ValueKind.readNatural?).getD 16
    timeoutMillis := (value? "timeout-ms").bind ValueKind.readNatural? }

def action? (command : String) (f : Found) : Option Action :=
  let natural? (name : String) := (f.value? name).bind ValueKind.readNatural?
  let small? (name : String) := (f.value? name).bind ValueKind.readSmall?
  match command, f.positionals.reverse with
  | "regs", _ => some .registers
  | "push", [path] => some (.push path (f.has "binary") (f.has "wait") (natural? "pop"))
  | "load", values =>
    if values.isEmpty then none
    else (natural? "reg").map fun register =>
      .load register (f.has "float") ((small? "frac").getD 8) (f.has "dry-run") values
  | "pop", _ => some (.pop ((natural? "max").getD 64) (small? "frac"))
  | "disasm", [path] => some (.disassemble path (f.has "binary"))
  | "reset", _ => some .reset
  | "selftest", _ =>
    some (.selfTest ((natural? "vectors").getD 32) ((small? "seed").getD 0x12345678))
  | _, _ => none

/-- What a call for help comes to: it may name one topic, a command or `help` itself. -/
def helpOn : List String → Refusal
  | [] => .help
  | [topic] => if topic = "help" ∨ (grammar? topic).isSome then .help else .usage
  | _ => .usage

/-- Reads a command and what follows it. -/
def readInvocation (command : String) (args : List String) (before : Found) :
    Except Refusal Invocation :=
  match grammar? command with
  | none => .error (if command = "help" then helpOn args else .usage)
  | some g => do
    let after ← readCommand g none args {}
    match action? command after with
    | some action => .ok ⟨settings before after, action⟩
    | none => .error .usage

def readFrom : Awaiting → List String → Found → Except Refusal Invocation
  | _, [], _ => .error .usage
  | some (name, kind), text :: rest, before => do
    readFrom none rest (← takeValue false name kind text before)
  | none, text :: rest, before =>
    match token false text with
    | .separator => .error .usage
    | .long "help" none | .short 'h' => .error .help
    | .long "version" none | .short 'V' => .error .version
    | .short _ => .error .usage
    | .long name attached => do
      let (awaiting, before) ← takeOption engineOptions name attached before
      readFrom awaiting rest before
    | .plain => readInvocation text rest before

def read (args : List String) : Except Refusal Invocation := readFrom none args {}

end Gemv.Command
