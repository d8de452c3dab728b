import Gemv.Command.Arguments
import Gemv.Command.Report
import Gemv.MappedWindow
import Gemv.SelfTest

/-! Carrying out a command.

A command that talks to an engine is written for any device; `withLink` runs it on the engine
model or on a register window in a file. -/
namespace Gemv.Command

/-- What a command can see of the outside. -/
structure Surroundings where
  files : Files
  /-- The device that the environment names. -/
  device : Option String := none

/-- Looks at a status register before a simulated wait gives up. -/
def simulatedAttempts : Nat := 1024

def standardDevice : String := "/dev/uio0"

def devicePath (s : Surroundings) (c : Settings) : String :=
  (c.device.orElse fun _ => s.device).getD standardDevice

/-- Bounds on every wait. Nothing ends a wait on the engine model, so it always has one. -/
def pollLimits (c : Settings) : PollLimits :=
  match c.timeoutMillis with
  | some ms => { deadline := some (Duration.ofMillis ms) }
  | none => if c.simulated then { maxAttempts := some simulatedAttempts } else {}

def withLink (s : Surroundings) (c : Settings) (g : Geometry)
    (talk : {σ : Type} → [Device σ] → Link σ → Output × Link σ) : Report :=
  if c.simulated then
    { output := (talk { device := Engine.new g, limits := pollLimits c }).1 }
  else
    let path := devicePath s c
    match MappedWindow.map s.files path c.offset with
    | .error e => { output := .ofFailure ((Failure.ofError e).within ("mapping " ++ path)) }
    | .ok window =>
      match talk { device := window.registers, limits := pollLimits c, wait := .backoff {} } with
      | (output, t) => ⟨output, some (path, window.stored t.device)⟩

/-- Reads the program at a path; a binary one is taken to be made for this geometry. -/
def readProgram (s : Surroundings) (g : Geometry) (path : String) (binary : Bool) :
    Except Failure Program :=
  let program :=
    if binary then s.files.binary path (Config.ofGeometry g) else s.files.listing path
  program.mapError fun e => (Failure.ofError e).within ("reading " ++ path)

section Conversations

variable {σ : Type} [Device σ]

def registerLine (index : Nat) (value : UInt32) : String :=
  Text.rightAligned 3 (Text.decimal index) ++ "  " ++ Text.hexadecimal 4 (index * 4) ++ "  "
    ++ Text.leftAligned 13 (Register.name index) ++ "  " ++ Text.hexadecimal 8 value.toNat

def talkRegisters (t : Link σ) : Output × Link σ :=
  let used : List Register := (List.finRange 16).filter fun r => !Register.isReserved r.val
  let (lines, t) := used.foldl (fun (acc : List String × Link σ) r =>
    match acc.2.read r with
    | (v, t) => (registerLine r v :: acc.1, t)) ([], t)
  (.ofLines ("reg  offset  name           value" :: lines.reverse), t)

/-- A sample as a line: a whole number, or a fraction with six places. -/
def sampleLine (fraction : Option Nat) (index : Nat) (s : Sample) : String :=
  let value := match fraction with
    | some f => Text.rightAligned 12 ((Fixed.toSingle f s.value).fixedPlaces 6)
    | none => Text.rightAligned 6 (Text.signedDecimal s.value.toInt)
  Text.rightAligned 4 (Text.decimal index) ++ "  " ++ value ++ "  attrib="
    ++ Text.hexadecimal 2 s.attrib.toNat

def talkPop (max : Nat) (fraction : Option Nat) (t : Link σ) : Output × Link σ :=
  match t.popSamples max with
  | (samples, t) =>
    let lines := samples.zipIdx.map fun p => sampleLine fraction p.2 p.1
    (.ofLines (lines ++ [Text.decimal samples.length ++ " samples"]), t)

def talkWait (t : Link σ) : Output × Link σ :=
  match t.awaitEnd with
  | (.error e, t) => (.ofFailure (.ofError e), t)
  | (.ok (), t) => (.ofLines ["End of vector"], t.clearEnd)

/-- Continues a conversation unless it has failed. -/
def andThen (first : Output × Link σ) (second : Link σ → Output × Link σ) : Output × Link σ :=
  match first with
  | (output, t) =>
    if output.failure.isSome then (output, t)
    else match second t with
      | (more, t) => (output.followedBy more, t)

def talkPush (p : Program) (wait : Bool) (pop : Option Nat) (t : Link σ) : Output × Link σ :=
  match t.pushProgram p with
  | (.error e, t) => (.ofFailure (.ofError e), t)
  | (.ok (), t) =>
    let pushed := Output.ofLines
      ["Pushed '" ++ p.name ++ "': " ++ Text.decimal p.words.length ++ " words"]
    let waited := andThen (pushed, t) fun t => if wait then talkWait t else ({}, t)
    andThen waited fun t => match pop with
      | some max => talkPop max (some p.config.fractionWidth.toNat) t
      | none => ({}, t)

def talkLoad (g : Geometry) (register : Nat) (values : List Int16) (t : Link σ) :
    Output × Link σ :=
  match t.load g register values with
  | (.error e, t) => (.ofFailure (.ofError e), t)
  | (.ok n, t) =>
    (.ofLines ["Loaded " ++ Text.decimal values.length ++ " values into r"
      ++ Text.decimal register ++ ": " ++ Text.decimal n ++ " instructions"], t)

def talkReset (t : Link σ) : Output × Link σ := (.ofLines ["FIFOs reset"], t.reset)

end Conversations

/-- Reads lane values: whole numbers, or fractions to be converted. -/
def readValues (float : Bool) (fraction : Nat) (texts : List String) :
    Except Failure (List Int16) :=
  texts.mapM fun text =>
    if float then
      match Single.read text with
      | .ok x => .ok (Fixed.ofSingle fraction x)
      | .error fault => .error ⟨"'" ++ text ++ "' is not a number", [fault.message]⟩
    else
      match Text.readSigned (-32768) 32767 text.toList with
      | .ok n => .ok (Int16.ofInt n)
      | .error fault => .error ⟨"'" ++ text ++ "' is not a 16-bit integer", [fault.message]⟩

/-- The words of a load, one to a line. -/
def dryRun (g : Geometry) (register : Nat) (values : List Int16) : Output :=
  match LoadPlan.words g register values with
  | .ok words => .ofLines (words.map (·.render))
  | .error e => .ofFailure (.ofError e)

def selfTest (g : Geometry) (vectors seed : Nat) : Output :=
  match SelfTest.run g vectors (UInt32.ofNat seed) with
  | .ok summary =>
    .ofLines ["selftest: " ++ Text.decimal vectors ++ " vectors OK, "
      ++ Text.decimal summary.instructions ++ " instructions, "
      ++ Text.decimal summary.overflows ++ " overflows"]
  | .error (.load e) => .ofFailure (.ofError e)
  | .error .noRegister => .ofFailure { message := "register out of range" }
  | .error (.readBack index register length) =>
    .ofFailure { message := "vector " ++ Text.decimal index ++ " (r" ++ Text.decimal register
      ++ ", " ++ Text.decimal length ++ " lanes) read back wrong" }

def disassembly (p : Program) : Output := .ofLines (Listing.renderLines p)

def act (s : Surroundings) (c : Settings) (g : Geometry) : Action → Report
  | .registers => withLink s c g talkRegisters
  | .push path binary wait pop =>
    match readProgram s g path binary with
    | .error f => { output := .ofFailure f }
    | .ok p =>
      match p.checkCompatible g with
      | .error e => { output := .ofFailure (.ofError e) }
      | .ok () => withLink s c g (talkPush p wait pop)
  | .load register float fraction dry texts =>
    match readValues float fraction texts with
    | .error f => { output := .ofFailure f }
    | .ok values =>
      if dry then { output := dryRun g register values }
      else withLink s c g (talkLoad g register values)
  | .pop max fraction => withLink s c g (talkPop max fraction)
  | .disassemble path binary =>
    match readProgram s g path binary with
    | .error f => { output := .ofFailure f }
    | .ok p => { output := disassembly p }
  | .reset => withLink s c g talkReset
  | .selfTest vectors seed => { output := selfTest g vectors seed }

/-- Carries out an invocation. A geometry that no engine has is rejected first. -/
def run (s : Surroundings) (i : Invocation) : Report :=
  match Geometry.ofSizes i.settings.lanes i.settings.width with
  | .error fault => { output := .ofFailure { message := fault.message } }
  | .ok g => act s i.settings g i.action

def versionLine : String := "imagine 0.1.0"

end Gemv.Command
