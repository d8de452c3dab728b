import Gemv.Engine
import Gemv.Listing
import Gemv.Loader

/-! Runs: sequences of operations on a link.

`HostOp` is what a host can do over any link, `EngineOp` what the surroundings do to the engine
model behind one. A run is a list of either, in any order. -/
namespace Gemv

inductive Outcome where
  | done
  | count (n : Nat)
  | flag (b : Bool)
  | word (v : UInt32)
  | sample (s : Option Sample)
  | values (vs : List Int16)
  | singles (xs : List Single)
  | limits (l : PollLimits)
  /-- A push over a borrowed device: its result and its own count of words. -/
  | lent (result : Except Error Nat) (pushed : Nat)
  | row (data : UInt16)
  | lanes (values : Option (List Int16))
  | words (ws : List Instruction)

inductive HostOp where
  | push (w : Instruction)
  | pushAll (ws : List Instruction)
  | pushProgram (p : Program)
  | pushListing (name text : String)
  | lendPush (ws : List Instruction)
  | pop
  | popVector (max : Nat)
  | popSingles (max fraction : Nat)
  | isEnd
  | clearEnd
  | awaitEnd
  | reset
  | setLimits (l : PollLimits)
  | setWait (w : Wait)
  | renew
  | load (register : Nat) (values : List Int16)
  | loadSingles (register : Nat) (values : List Single) (fraction : Nat)
  | clearRegister (register : Nat)
  | read (index : Nat)
  | write (index : Nat) (value : UInt32)

namespace HostOp

variable {σ : Type} [Device σ]

/-- Words a result as an outcome. -/
def outcome {α : Type} (f : α → Outcome) : Except Error α × Link σ → Except Error Outcome × Link σ
  | (result, t) => (result.map f, t)

/-- Reads a listing, checks it against the geometry and pushes it. -/
def runListing (g : Geometry) (name text : String) (t : Link σ) : Except Error Outcome × Link σ :=
  match Listing.parse name text with
  | .error e => (.error e, t)
  | .ok p =>
    let t := t.note (.parsed "listing" name p.words.length)
    match p.checkCompatible g with
    | .error e => (.error e, t)
    | .ok () => outcome (fun _ => .count p.words.length) (t.pushProgram p)

/-- Pushes over a link of its own to the same device, with the same limits. -/
def runLent (ws : List Instruction) : Link σ → Except Error Outcome × Link σ
  | ⟨device, limits, wait, pushed, journal⟩ =>
    match (Link.mk device limits .spin 0 journal).pushAll ws with
    | (result, ⟨device, _, _, lentPushed, journal⟩) =>
      (.ok (.lent result lentPushed), ⟨device, limits, wait, pushed, journal⟩)

/-- Carries out one operation; loads use the given geometry. -/
def run (g : Geometry) (op : HostOp) (t : Link σ) : Except Error Outcome × Link σ :=
  match op with
  | .push w => outcome (fun _ => .done) (t.push w)
  | .pushAll ws => outcome .count (t.pushAll ws)
  | .pushProgram p => outcome (fun _ => .done) (t.pushProgram p)
  | .pushListing name text => runListing g name text t
  | .lendPush ws => runLent ws t
  | .pop => match t.pop with
    | (s, t) => (.ok (.sample s), t)
  | .popVector max => match t.popVector max with
    | (vs, t) => (.ok (.values vs), t)
  | .popSingles max fraction => match t.popVector max with
    | (vs, t) => (.ok (.singles (vs.map (Fixed.toSingle fraction))), t)
  | .isEnd => match t.isEnd with
    | (b, t) => (.ok (.flag b), t)
  | .clearEnd => (.ok .done, t.clearEnd)
  | .awaitEnd => outcome (fun _ => .done) t.awaitEnd
  | .reset => (.ok .done, t.reset)
  | .setLimits l => (.ok (.limits l), { t with limits := l })
  | .setWait w => (.ok .done, { t with wait := w })
  | .renew => (.ok .done, { device := t.device, journal := t.journal })
  | .load register values => outcome .count (t.load g register values)
  | .loadSingles register values fraction =>
    outcome .count (t.loadConverted (Fixed.ofSingle fraction) g register values)
  | .clearRegister register => outcome .count (t.clearRegister g register)
  | .read index => outcome .word (t.readIndex index)
  | .write index value => outcome (fun _ => .done) (t.writeIndex index value)

end HostOp

/-- An event in the surroundings of the engine model, or a look inside it. -/
inductive EngineOp where
  | holdFull (polls : Nat)
  | pushOutput (s : Sample)
  | raiseEnd
  | fill (pattern : UInt16)
  | step (n : Nat)
  | drain
  | row (block address : Nat)
  | lanes (register length : Nat)
  | executed (start : Nat)
  | checksum

namespace EngineOp

def change (f : Engine → Engine) : Link Engine → Link Engine
  | ⟨device, limits, wait, pushed, journal⟩ => ⟨f device, limits, wait, pushed, journal⟩

/-- Executes up to `n` pending words and notes each. -/
def runStep (n : Nat) : Link Engine → Except Error Outcome × Link Engine
  | ⟨device, limits, wait, pushed, journal⟩ =>
    let journal := (device.pending.take n).foldl (fun j w => j.push (.note (.executed w))) journal
    match device.step n with
    | (ran, device) => (.ok (.count ran), ⟨device, limits, wait, pushed, journal⟩)

def run (op : EngineOp) (t : Link Engine) : Except Error Outcome × Link Engine :=
  match op with
  | .holdFull polls => (.ok .done, change (·.holdFull polls) t)
  | .pushOutput s => (.ok .done, change (·.pushOutput s) t)
  | .raiseEnd => (.ok .done, change (·.raiseEnd) t)
  | .fill pattern => (.ok .done, change (·.fill pattern) t)
  | .step n => runStep n t
  | .drain => runStep (2 ^ 64 - 1) t
  | .row block address => (.ok (.row (t.device.row block address)), t)
  | .lanes register length => (.ok (.lanes (t.device.lanes? register length)), t)
  | .executed start => (.ok (.words (t.device.executed.toList.drop start)), t)
  | .checksum => (.ok (.word t.device.blocks.memory.checksum), t)

end EngineOp

/-- A step of a run on the engine model. -/
inductive Operation where
  | host (op : HostOp)
  | engine (op : EngineOp)

namespace Operation

def run (g : Geometry) (op : Operation) (t : Link Engine) : Except Error Outcome × Link Engine :=
  match op with
  | .host op => op.run g t
  | .engine op => op.run t

def runAll (g : Geometry) (ops : List Operation) (t : Link Engine) : Link Engine :=
  ops.foldl (fun t op => (op.run g t).2) t

end Operation

end Gemv
